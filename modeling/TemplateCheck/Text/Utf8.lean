/-!
# Texts as bytes

A text is read byte by byte, and a block of bytes is shown as a text again.  A block may begin or
end inside a character, so the way back has to say what a broken character looks like: every
maximal part that is no character is replaced by one U+FFFD.

* `encode`        the bytes of a text
* `Decoder`       what has been read of a byte sequence, and the character that is still open
* `decodeLossy`   a text for any bytes, broken parts replaced
* `decode?`       the text of bytes that hold no broken part
-/

namespace TemplateCheck.Utf8

def encode (s : String) : List UInt8 :=
  s.toList.flatMap String.utf8EncodeChar

/-- An open character: its lead byte, and perhaps more, has been read. -/
structure Pending where
  /-- continuation bytes that are still to come -/
  owed : Nat
  /-- least value of the next byte -/
  low : UInt8
  /-- greatest value of the next byte -/
  high : UInt8
  /-- the bits read so far -/
  value : Nat
  deriving DecidableEq, Repr

/-- What a byte is where a character may begin. -/
inductive Lead where
  /-- a character of one byte -/
  | single (c : Char)
  /-- the first byte of a longer character -/
  | opens (p : Pending)
  /-- no character begins with this byte -/
  | stray
  deriving DecidableEq, Repr

/-- The role of a byte between characters.  The bounds on the second byte exclude overlong forms,
surrogates and values past U+10FFFF. -/
def lead (b : UInt8) : Lead :=
  if b < 0x80 then .single (Char.ofNat b.toNat)
  else if b < 0xC2 then .stray
  else if b < 0xE0 then .opens ⟨1, 0x80, 0xBF, b.toNat % 32⟩
  else if b = 0xE0 then .opens ⟨2, 0xA0, 0xBF, 0⟩
  else if b = 0xED then .opens ⟨2, 0x80, 0x9F, 13⟩
  else if b < 0xF0 then .opens ⟨2, 0x80, 0xBF, b.toNat % 16⟩
  else if b = 0xF0 then .opens ⟨3, 0x90, 0xBF, 0⟩
  else if b < 0xF4 then .opens ⟨3, 0x80, 0xBF, b.toNat % 8⟩
  else if b = 0xF4 then .opens ⟨3, 0x80, 0x8F, 4⟩
  else .stray

/-- A byte sequence read so far. -/
structure Decoder where
  /-- the pieces read, newest first: a character, or `none` for a broken part -/
  pieces : List (Option Char) := []
  /-- the character that is still open -/
  pending : Option Pending := none
  deriving DecidableEq, Repr

namespace Decoder

/-- reads a byte between characters -/
def begin (pieces : List (Option Char)) (b : UInt8) : Decoder :=
  match lead b with
  | .single c => ⟨some c :: pieces, none⟩
  | .opens p => ⟨pieces, some p⟩
  | .stray => ⟨none :: pieces, none⟩

/-- Reads one byte.  A byte that cannot continue the open character ends it as a broken part and
is read again as a beginning. -/
def feed (d : Decoder) (b : UInt8) : Decoder :=
  match d.pending with
  | none => begin d.pieces b
  | some p =>
    if p.low ≤ b ∧ b ≤ p.high then
      let value := p.value * 64 + b.toNat % 64
      if p.owed ≤ 1 then ⟨some (Char.ofNat value) :: d.pieces, none⟩
      else ⟨d.pieces, some ⟨p.owed - 1, 0x80, 0xBF, value⟩⟩
    else begin (none :: d.pieces) b

/-- The pieces in reading order; a character that is still open is a broken part. -/
def finish (d : Decoder) : List (Option Char) :=
  match d.pending with
  | none => d.pieces.reverse
  | some _ => (none :: d.pieces).reverse

end Decoder

/-- the characters and broken parts of a byte sequence -/
def pieces (bs : List UInt8) : List (Option Char) :=
  (bs.foldl Decoder.feed {}).finish

/-- stands for a broken part -/
def replacement : Char := Char.ofNat 0xFFFD

/-- The text of any bytes, with one replacement character for each broken part. -/
def decodeLossy (bs : List UInt8) : String :=
  String.ofList ((pieces bs).map (·.getD replacement))

def decode? (bs : List UInt8) : Option String :=
  ((pieces bs).mapM id).map String.ofList

theorem encode_ofList (cs : List Char) :
    encode (String.ofList cs) = cs.flatMap String.utf8EncodeChar := by
  simp [encode]

@[simp] theorem encode_empty : encode "" = [] := rfl

@[simp] theorem encode_append (s t : String) : encode (s ++ t) = encode s ++ encode t := by
  simp [encode]

@[simp] theorem decodeLossy_nil : decodeLossy [] = "" := rfl

end TemplateCheck.Utf8
