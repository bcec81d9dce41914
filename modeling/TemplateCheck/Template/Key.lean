import TemplateCheck.Template.Kind

/-!
# Keys

The name a key token carries: what is left of its text without the sigil and, for an opening tag,
without the final brace.
-/

namespace TemplateCheck.Template

/-- the characters after the sigil -/
def stripSigil? : List Char → Option (List Char)
  | '\\' :: '@' :: name => some name
  | _ => none

/-- the characters before a final opening brace -/
def stripBrace? (cs : List Char) : Option (List Char) :=
  if cs.getLast? = some '{' then some cs.dropLast else none

/-- the name of a placeholder -/
def placeholderKey? (t : Token Kind) : Option String :=
  match t.kind with
  | .placeholderKey => (stripSigil? t.text.toList).map String.ofList
  | _ => none

/-- the name of an opening tag -/
def openKey? (t : Token Kind) : Option String :=
  match t.kind with
  | .openKey => ((stripSigil? t.text.toList).bind stripBrace?).map String.ofList
  | _ => none

@[simp] theorem stripSigil?_append (name : List Char) :
    stripSigil? (sigil.toList ++ name) = some name := rfl

@[simp] theorem stripBrace?_append (name : List Char) :
    stripBrace? (name ++ ['{']) = some name := by
  simp [stripBrace?]

end TemplateCheck.Template
