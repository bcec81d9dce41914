/-!
# Escaped content

In content a backslash is written twice.

* `escape`     writes every backslash twice
* `unescape`   reads every pair of backslashes, from the left, as one
-/

namespace TemplateCheck.Template

/-- every backslash twice -/
def escapeChars : List Char → List Char
  | [] => []
  | c :: cs => if c = '\\' then '\\' :: '\\' :: escapeChars cs else c :: escapeChars cs

/-- Every pair of backslashes, from the left, as one.  A backslash without a partner stays. -/
def unescapeChars : List Char → List Char
  | '\\' :: '\\' :: cs => '\\' :: unescapeChars cs
  | c :: cs => c :: unescapeChars cs
  | [] => []

def escape (s : String) : String :=
  String.ofList (escapeChars s.toList)

def unescape (s : String) : String :=
  String.ofList (unescapeChars s.toList)

@[simp] theorem unescapeChars_pair (cs : List Char) :
    unescapeChars ('\\' :: '\\' :: cs) = '\\' :: unescapeChars cs := rfl

theorem unescapeChars_cons_of_ne {c : Char} (cs : List Char) (h : c ≠ '\\') :
    unescapeChars (c :: cs) = c :: unescapeChars cs := by
  cases cs <;> simp [unescapeChars, h]

/-- reading undoes writing -/
theorem unescapeChars_escapeChars (cs : List Char) :
    unescapeChars (escapeChars cs) = cs := by
  induction cs with
  | nil => rfl
  | cons c cs ih =>
    by_cases h : c = '\\'
    · simp [escapeChars, h, ih]
    · simp [escapeChars, h, unescapeChars_cons_of_ne, ih]

end TemplateCheck.Template
