import TemplateCheck.Token

/-!
# Parse errors

* `ParseError`                 why a token, or the input as a whole, does not fit
* `ParseError.location?`       where that token begins
* `ParseError.value?`          what is shown of its text
* `ParseError.about`           what an error says of its token
* `ParseError.message`         one error in words
* `ParseError.failureText`     all errors of a failed parse
-/

namespace TemplateCheck

inductive ParseError (K : Type) where
  /-- a token of another kind had to stand here -/
  | unexpected (found : Token K) (expected : K)
  /-- no rule begins with this token -/
  | noProduction (found : Token K)
  /-- something was still expected when the input ended -/
  | prematureEnd
  deriving DecidableEq, Repr

namespace ParseError

variable {K : Type}

/-- so many characters of a token's text are shown in messages -/
def previewLength : Nat := 20

/-- the token the error is about -/
def found? : ParseError K → Option (Token K)
  | .unexpected found _ => some found
  | .noProduction found => some found
  | .prematureEnd => none

/-- line and column of the token the error is about -/
def location? (e : ParseError K) : Option (Nat × Nat) :=
  e.found?.map fun t => (t.line, t.column)

/-- what a message shows of a token's text -/
def excerpt (found : Token K) : String :=
  found.preview previewLength

def value? (e : ParseError K) : Option String :=
  e.found?.map excerpt

def message [TokenKind K] : ParseError K → String
  | .unexpected found expected =>
    let kind := TokenKind.name found.kind
    let wanted := TokenKind.name expected
    let value := excerpt found
    s!"Found token {kind} at line {found.line}, column {found.column}.\n" ++
      s!"Expected a token of type {wanted}.\nValue (truncated): \"{value}\""
  | .noProduction found =>
    let kind := TokenKind.name found.kind
    let value := excerpt found
    s!"Found token {kind} at line {found.line}, column {found.column}!\n" ++
      s!"Value (truncated): \"{value}\""
  | .prematureEnd => "Premature end of input."

def failureText [TokenKind K] (errors : List (ParseError K)) : String :=
  "\n".intercalate (errors.map message)

/-- An error is about a token, whose place it gives and of whose text it shows the beginning, or it is
about the end of the input. -/
theorem about (e : ParseError K) :
    (∃ t, (e = .noProduction t ∨ ∃ k, e = .unexpected t k) ∧
        e.location? = some (t.line, t.column) ∧
        e.value? = some (String.ofList (t.text.toList.take 20))) ∨
      e = .prematureEnd ∧ e.location? = none ∧ e.value? = none := by
  cases e with
  | unexpected t k => exact Or.inl ⟨t, Or.inr ⟨k, rfl⟩, rfl, rfl⟩
  | noProduction t => exact Or.inl ⟨t, Or.inl rfl, rfl, rfl⟩
  | prematureEnd => exact Or.inr ⟨rfl, rfl, rfl⟩

end ParseError

end TemplateCheck
