import TemplateCheck.Token

/-!
# Token kinds of the template language

A template is text with keys in it.  Every key begins with the sigil, a backslash and an at sign:
a placeholder is the sigil and a name, a tag opens with the sigil, a name and a brace, and closes
with the sigil and the other brace.  Text between keys is content, in which a backslash is written
twice.
-/

namespace TemplateCheck.Template

/-- The kinds of tokens of a template. -/
inductive Kind where
  | content
  | placeholderKey
  | openKey
  | closeKey
  | endOfInput
  | unrecognized
  deriving DecidableEq, Repr

/-- the name of a kind in messages -/
def Kind.name : Kind → String
  | .content => "CONTENT"
  | .placeholderKey => "PLACEHOLDER_KEY"
  | .openKey => "OPEN_KEY"
  | .closeKey => "CLOSE_KEY"
  | .endOfInput => "EOI"
  | .unrecognized => "UNRECOGNIZED"

instance : TokenKind Kind where
  endOfInput := .endOfInput
  unrecognized := .unrecognized
  name := Kind.name

/-- what every key begins with -/
def sigil : String := "\\@"

end TemplateCheck.Template
