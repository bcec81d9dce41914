import TemplateCheck.Position

/-!
# A cursor over bytes

The bytes of a source, split at the place where reading has arrived, with the position of that
place and the widths of the lines that were left.

* `Cursor.advance`, `Cursor.advanceBy`   read bytes
* `Cursor.retreat`                       gives the last byte back

No operation changes the bytes: `before.reverse ++ after` is always the source
(`bytes_advance`, `bytes_retreat`).
-/

namespace TemplateCheck

/-- A place in a byte sequence, with the bytes on both sides. -/
structure Cursor where
  /-- the bytes already read, the nearest first -/
  before : List UInt8
  /-- the bytes still to read -/
  after : List UInt8
  /-- where the cursor stands -/
  pos : Position
  /-- the widths of the lines that were left -/
  widths : LineWidths
  deriving DecidableEq, Repr

namespace Cursor

/-- a cursor at the first of the given bytes -/
def ofBytes (bs : List UInt8) : Cursor :=
  ⟨[], bs, .start, .empty⟩

/-- all bytes, read or not -/
def bytes (c : Cursor) : List UInt8 :=
  c.before.reverse ++ c.after

/-- every byte has been read -/
def atEnd (c : Cursor) : Bool :=
  c.after.isEmpty

/-- Reads one byte.  Before a newline is crossed, the width of its line is recorded. -/
def advance (c : Cursor) : Cursor :=
  match c.after with
  | [] => c
  | b :: rest =>
    { before := b :: c.before
      after := rest
      pos := c.pos.advance b
      widths := if b = newline then c.widths.insert c.pos.line c.pos.column else c.widths }

def retreat (c : Cursor) : Cursor :=
  match c.before with
  | [] => c
  | b :: rest =>
    { before := rest
      after := b :: c.after
      pos := c.pos.retreat c.widths
      widths := c.widths }

/-- reads `n` bytes, or all that are left -/
def advanceBy (c : Cursor) : Nat → Cursor
  | 0 => c
  | n + 1 => c.advance.advanceBy n

@[simp] theorem bytes_ofBytes (bs : List UInt8) : (ofBytes bs).bytes = bs := rfl

@[simp] theorem after_ofBytes (bs : List UInt8) : (ofBytes bs).after = bs := rfl

@[simp] theorem atEnd_iff (c : Cursor) : c.atEnd = true ↔ c.after = [] := by
  simp [atEnd]

@[simp] theorem after_advance (c : Cursor) : c.advance.after = c.after.tail := by
  unfold advance; split <;> simp [*]

@[simp] theorem bytes_advance (c : Cursor) : c.advance.bytes = c.bytes := by
  unfold advance; split <;> simp [bytes, *]

@[simp] theorem bytes_retreat (c : Cursor) : c.retreat.bytes = c.bytes := by
  unfold retreat; split <;> simp [bytes, *]

@[simp] theorem advanceBy_zero (c : Cursor) : c.advanceBy 0 = c := rfl

theorem advanceBy_succ (c : Cursor) (n : Nat) :
    c.advanceBy (n + 1) = c.advance.advanceBy n := rfl

@[simp] theorem after_advanceBy (c : Cursor) (n : Nat) :
    (c.advanceBy n).after = c.after.drop n := by
  induction n generalizing c with
  | zero => rfl
  | succ n ih => rw [advanceBy_succ, ih, after_advance, List.drop_tail]

@[simp] theorem bytes_advanceBy (c : Cursor) (n : Nat) :
    (c.advanceBy n).bytes = c.bytes := by
  induction n generalizing c with
  | zero => rfl
  | succ n ih => rw [advanceBy_succ, ih, bytes_advance]

theorem length_after_retreat_le (c : Cursor) :
    c.retreat.after.length ≤ c.after.length + 1 := by
  unfold retreat; split <;> simp

end Cursor

end TemplateCheck
