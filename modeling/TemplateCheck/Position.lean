/-!
# Positions in a byte sequence

A position is an offset together with the line and the column that a reader would name.  Lines and
columns count from one, and a column is a number of bytes.

* `LineWidths`           the column of the newline of each line that has been left
* `Position.advance`     the position after one more byte
* `Position.retreat`     the position one byte back

Stepping back over a newline needs the column at which that newline stands, which is why the widths
of finished lines are kept.
-/

namespace TemplateCheck

/-- the byte that ends a line -/
def newline : UInt8 := 10

/-- For each line that has been left, the column of its newline. -/
structure LineWidths where
  /-- pairs of a line and its width, the latest first -/
  entries : List (Nat × Nat) := []
  deriving DecidableEq, Repr

namespace LineWidths

/-- no line has been left -/
def empty : LineWidths := {}

/-- records a width; it replaces an earlier one of the same line -/
def insert (w : LineWidths) (line width : Nat) : LineWidths :=
  ⟨(line, width) :: w.entries⟩

/-- the width last recorded for a line -/
def get? (w : LineWidths) (line : Nat) : Option Nat :=
  w.entries.lookup line

@[simp] theorem get?_empty (line : Nat) : empty.get? line = none := rfl

theorem get?_insert (w : LineWidths) (line width line' : Nat) :
    (w.insert line width).get? line' = if line' = line then some width else w.get? line' := by
  by_cases h : line' = line
  · simp [insert, get?, h]
  · have hb : (line' == line) = false := by simpa using h
    simp [insert, get?, List.lookup_cons, h, hb]

@[simp] theorem get?_insert_self (w : LineWidths) (line width : Nat) :
    (w.insert line width).get? line = some width := by
  simp [get?_insert]

end LineWidths

/-- A place in a byte sequence. -/
structure Position where
  /-- number of bytes before the place -/
  offset : Nat
  /-- line, from one -/
  line : Nat
  /-- column in bytes, from one -/
  column : Nat
  deriving DecidableEq, Repr

namespace Position

/-- the position of the first byte -/
def start : Position := ⟨0, 1, 1⟩

instance : Inhabited Position := ⟨start⟩

/-- the position right after the byte `b` that stands here -/
def advance (p : Position) (b : UInt8) : Position :=
  if b = newline then ⟨p.offset + 1, p.line + 1, 1⟩
  else ⟨p.offset + 1, p.line, p.column + 1⟩

/-- The position one byte back.  At the first column this is the end of the line before, whose
width is looked up; the start has nothing before it and stays. -/
def retreat (p : Position) (widths : LineWidths) : Position :=
  if p.offset = 0 then p
  else if p.column = 1 then
    let line := max (p.line - 1) 1
    ⟨p.offset - 1, line, (widths.get? line).getD 1⟩
  else ⟨p.offset - 1, p.line, p.column - 1⟩

/-- the position after a run of bytes that begins here -/
def after (p : Position) (bs : List UInt8) : Position :=
  bs.foldl advance p

theorem advance_newline (p : Position) :
    p.advance newline = ⟨p.offset + 1, p.line + 1, 1⟩ := by
  simp [advance]

theorem advance_of_ne {b : UInt8} (p : Position) (h : b ≠ newline) :
    p.advance b = ⟨p.offset + 1, p.line, p.column + 1⟩ := by
  simp [advance, h]

@[simp] theorem offset_advance (p : Position) (b : UInt8) :
    (p.advance b).offset = p.offset + 1 := by
  unfold advance; split <;> rfl

@[simp] theorem after_nil (p : Position) : p.after [] = p := rfl

@[simp] theorem after_cons (p : Position) (b : UInt8) (bs : List UInt8) :
    p.after (b :: bs) = (p.advance b).after bs := rfl

@[simp] theorem after_append (p : Position) (as bs : List UInt8) :
    p.after (as ++ bs) = (p.after as).after bs := by
  simp [after, List.foldl_append]

@[simp] theorem offset_after (p : Position) (bs : List UInt8) :
    (p.after bs).offset = p.offset + bs.length := by
  induction bs generalizing p with
  | nil => rfl
  | cons b bs ih => rw [after_cons, ih, offset_advance, List.length_cons]; omega

end Position

end TemplateCheck
