/-!
# Tokens

* `TokenKind`   a type of token kinds, with the two kinds every such type has
* `Token`       a kind, the text it covers, and where that text begins
* `Token.display`, `Token.preview`   how a token is shown
-/

namespace TemplateCheck

/-- The kinds of tokens of one language.  Two are always there: the kind of the token after the
last byte, and the kind of input that fits nothing. -/
class TokenKind (K : Type) where
  /-- the kind that closes every token sequence -/
  endOfInput : K
  /-- the kind of input that fits nothing -/
  unrecognized : K
  /-- the name of a kind in messages -/
  name : K → String

structure Token (K : Type) where
  kind : K
  /-- the text the token covers -/
  text : String
  /-- line of the first byte -/
  line : Nat
  /-- column of the first byte -/
  column : Nat
  deriving DecidableEq, Repr

namespace Token

variable {K : Type}

/-- the token closes a token sequence -/
def isEndOfInput [DecidableEq K] [TokenKind K] (t : Token K) : Bool :=
  t.kind = TokenKind.endOfInput

/-- the first `n` characters of the text -/
def preview (t : Token K) (n : Nat) : String :=
  String.ofList (t.text.toList.take n)

/-- A token on one line: kind, place and text, the text as it is. -/
def display [TokenKind K] (t : Token K) : String :=
  let name := TokenKind.name t.kind
  s!"[{name}, {t.line}, {t.column}] \"{t.text}\""

@[simp] theorem isEndOfInput_iff [DecidableEq K] [TokenKind K] (t : Token K) :
    t.isEndOfInput = true ↔ t.kind = TokenKind.endOfInput := by
  simp [isEndOfInput]

end Token

end TemplateCheck
