import TemplateCheck.Lexer
import TemplateCheck.Template.Kind

/-!
# Cutting a template into tokens

* `isKeyByte`   the bytes of a key's name: letters, digits, point, hyphen and underscore
* `automaton`   the automaton of the template language
* `tokenize`    the tokens of a template

The automaton reads one token at a time.  A content run that meets a backslash reads it, to see
whether it is doubled; if it is not, that backslash begins the next token and is given back.
-/

namespace TemplateCheck.Template

def isKeyByte (b : UInt8) : Bool :=
  (0x30 ≤ b && b ≤ 0x39) || (0x41 ≤ b && b ≤ 0x5A) || (0x61 ≤ b && b ≤ 0x7A) ||
    b == 0x2D || b == 0x2E || b == 0x5F

/-- What the automaton tells apart in its input. -/
inductive Column where
  | backslash
  | atSign
  | openBrace
  | closeBrace
  | keyByte
  | other
  | endOfInput
  deriving DecidableEq, Repr

/-- the place of a column in the rows of the table -/
def Column.index : Column → Nat
  | .backslash => 0
  | .atSign => 1
  | .openBrace => 2
  | .closeBrace => 3
  | .keyByte => 4
  | .other => 5
  | .endOfInput => 6

/-- the column of a byte, or of the end of the input -/
def columnOf : Option UInt8 → Column
  | none => .endOfInput
  | some b =>
    if b = 0x5C then .backslash
    else if b = 0x40 then .atSign
    else if b = 0x7B then .openBrace
    else if b = 0x7D then .closeBrace
    else if isKeyByte b then .keyByte
    else .other

/-- The rows of the automaton.  States 9 to 15 end a token and have no successor. -/
def transitions : List (List Int) :=
  -- the columns: \  @  {  }  key byte, other, end of input
  [ [ 2,  3,  3,  3,  3,  3, 15],       -- 0  start
    [ 3,  9,  9,  9,  9,  9, 13],       -- 1  a backslash inside content
    [ 3,  4, 13, 13, 13, 13, 13],       -- 2  a backslash at the start
    [ 1,  3,  3,  3,  3,  3, 14],       -- 3  content
    [13,  8,  8,  6,  5,  8, 13],       -- 4  the sigil
    [11, 11,  7, 11,  5, 11, 11],       -- 5  the sigil and a name
    [10, 10, 10, 10, 10, 10, 10],       -- 6  a closing tag
    [12, 12, 12, 12, 12, 12, 12],       -- 7  an opening tag
    [13,  8,  8,  8,  8,  8, 13],       -- 8  the sigil and no name
    [-1, -1, -1, -1, -1, -1, -1],       -- 9
    [-1, -1, -1, -1, -1, -1, -1],       -- 10
    [-1, -1, -1, -1, -1, -1, -1],       -- 11
    [-1, -1, -1, -1, -1, -1, -1],       -- 12
    [-1, -1, -1, -1, -1, -1, -1],       -- 13
    [-1, -1, -1, -1, -1, -1, -1],       -- 14
    [-1, -1, -1, -1, -1, -1, -1] ]      -- 15

/-- the actions of the automaton -/
def actions : List (Action Kind) :=
  [ .scan, .scan, .scan, .scan, .scan, .scan, .scan, .scan, .scan,
    .acceptWithPushback .content,
    .accept .closeKey,
    .accept .placeholderKey,
    .accept .openKey,
    .accept .unrecognized,
    .accept .content,
    .accept .endOfInput ]

def automaton : Automaton Kind where
  columns := 7
  transitions := transitions
  actions := actions
  classify := fun look => (columnOf look).index

/-- a lexer at the beginning of a template -/
def lexer (source : String) : Lexer Kind :=
  .ofText automaton source

/-- The tokens of a template; the last one closes the sequence. -/
def tokenize (source : String) : List (Token Kind) :=
  (lexer source).tokenize

end TemplateCheck.Template
