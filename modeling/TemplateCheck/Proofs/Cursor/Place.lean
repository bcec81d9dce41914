import Mathlib.Data.List.Induction
import Mathlib.Data.Prod.Lex
import TemplateCheck.Cursor

/-!
# A cursor knows its place

* `Position.place bs n`       the position of the byte of `bs` with `n` bytes before it
* `Position.line_after`, `Position.column_after`   line and column, counted in the bytes
* `Position.place_lt`         places are ordered by line and column as they are by offset
* `Position.retreat_advance`  a step back undoes a step forward
* `Cursor.Exact c`            the position is the one of the bytes that were read, and the widths of
                              all lines that end in these bytes are recorded

Widths are never taken out of the record.  What a step back leaves in it is the width of a line that
ends behind the cursor; reading that newline again puts the same width in once more.
-/

namespace TemplateCheck

namespace Position

/-! ## lines and columns -/

theorem line_advance (p : Position) (b : UInt8) :
    (p.advance b).line = p.line + [b].count newline := by
  by_cases h : b = newline
  · subst h
    rw [advance_newline, List.count_singleton_self]
  · rw [advance_of_ne p h, List.count_singleton, if_neg (by simpa using h)]
    rfl

theorem line_after (p : Position) (bs : List UInt8) :
    (p.after bs).line = p.line + bs.count newline := by
  induction bs generalizing p with
  | nil => rfl
  | cons b bs ih =>
    rw [after_cons, ih, line_advance, Nat.add_assoc, ← List.count_append]
    rfl

/-- between the last newline and the place are the bytes before it in its line -/
theorem column_after (bs : List UInt8) :
    (start.after bs).column = 1 + (bs.reverse.takeWhile fun b => b ≠ newline).length := by
  induction bs using List.reverseRecOn with
  | nil => rfl
  | append_singleton bs b ih =>
    rw [after_append, after_cons, after_nil, List.reverse_append, List.reverse_singleton,
      List.singleton_append]
    by_cases h : b = newline
    · subst h
      rw [advance_newline, List.takeWhile_cons_of_neg (by simp)]
      rfl
    · rw [advance_of_ne _ h, List.takeWhile_cons_of_pos (by simpa using h), List.length_cons, ih]
      exact Nat.add_assoc _ _ _

theorem one_le_line_after (bs : List UInt8) : 1 ≤ (start.after bs).line := by
  rw [line_after]
  exact Nat.le_add_right 1 _

theorem one_le_column_after (bs : List UInt8) : 1 ≤ (start.after bs).column := by
  rw [column_after]
  exact Nat.le_add_right 1 _

/-- A step back undoes a step forward, if the width of the line is recorded when it crosses a
newline. -/
theorem retreat_advance {p : Position} {b : UInt8} {widths : LineWidths} (hline : 1 ≤ p.line)
    (hcolumn : 1 ≤ p.column) (h : b = newline → widths.get? p.line = some p.column) :
    (p.advance b).retreat widths = p := by
  have hoffset : (p.advance b).offset ≠ 0 := by
    rw [offset_advance]
    exact Nat.succ_ne_zero _
  rw [retreat, if_neg hoffset]
  by_cases hb : b = newline
  · subst hb
    rw [advance_newline, if_pos rfl]
    simp only [Nat.add_sub_cancel, Nat.max_eq_left hline, h rfl, Option.getD_some]
  · have hne : p.column + 1 ≠ 1 := by omega
    rw [advance_of_ne p hb]
    simp only [if_neg hne, Nat.add_sub_cancel]

/-! ## places -/

/-- The position of a byte, given by the number of bytes before it. -/
def place (bs : List UInt8) (n : Nat) : Position :=
  start.after (bs.take n)

variable {bs : List UInt8} {m n : Nat} {b : UInt8}

theorem place_succ (h : bs[n]? = some b) : place bs (n + 1) = (place bs n).advance b := by
  rw [place, place, List.take_add_one, h, after_append]
  rfl

theorem line_place_le (h : m ≤ n) : (place bs m).line ≤ (place bs n).line := by
  rw [place, place, line_after, line_after]
  exact Nat.add_le_add_left ((List.take_prefix_take_left h).sublist.count_le newline) _

/-- what comes after a newline stands on a later line -/
theorem line_place_lt (h : m < n) (hm : bs[m]? = some newline) :
    (place bs m).line < (place bs n).line := by
  have hle : (place bs (m + 1)).line ≤ (place bs n).line := line_place_le h
  rw [place_succ hm, advance_newline] at hle
  exact hle

theorem lt_advance (p : Position) (b : UInt8) :
    toLex (p.line, p.column) < toLex ((p.advance b).line, (p.advance b).column) := by
  rw [Prod.Lex.toLex_lt_toLex]
  by_cases h : b = newline
  · subst h
    rw [advance_newline]
    exact Or.inl (Nat.lt_succ_self _)
  · rw [advance_of_ne p h]
    exact Or.inr ⟨rfl, Nat.lt_succ_self _⟩

/-- What comes later stands on a later line, or on the same line in a later column. -/
theorem place_lt (h : m < n) (hn : n ≤ bs.length) :
    toLex ((place bs m).line, (place bs m).column) <
      toLex ((place bs n).line, (place bs n).column) := by
  induction n with
  | zero => exact absurd h (Nat.not_lt_zero m)
  | succ n ih =>
    have hb : bs[n]? = some bs[n] := List.getElem?_eq_getElem hn
    rw [place_succ hb]
    rcases Nat.lt_succ_iff_lt_or_eq.mp h with hlt | rfl
    · exact (ih hlt (Nat.le_of_succ_le hn)).trans (lt_advance _ _)
    · exact lt_advance _ _

theorem retreat_place_succ {widths : LineWidths} (h : bs[n]? = some b)
    (hw : b = newline → widths.get? (place bs n).line = some (place bs n).column) :
    (place bs (n + 1)).retreat widths = place bs n := by
  rw [place_succ h]
  exact retreat_advance (one_le_line_after _) (one_le_column_after _) hw

end Position

namespace Cursor

open Position

/-- The position is the one of the bytes read, and the widths of the lines that end in these bytes
are recorded. -/
structure Exact (c : Cursor) : Prop where
  pos : c.pos = place c.bytes c.before.length
  widths : ∀ n < c.before.length, c.bytes[n]? = some newline →
    c.widths.get? (place c.bytes n).line = some (place c.bytes n).column

variable {c : Cursor}

theorem length_bytes (c : Cursor) : c.bytes.length = c.before.length + c.after.length := by
  rw [bytes, List.length_append, List.length_reverse]

theorem after_eq_drop (c : Cursor) : c.after = c.bytes.drop c.before.length := by
  rw [bytes, ← List.length_reverse, List.drop_left]

theorem bytes_getElem?_of_after {b : UInt8} {rest : List UInt8} (h : c.after = b :: rest) :
    c.bytes[c.before.length]? = some b := by
  rw [bytes, h, ← List.length_reverse, List.getElem?_append_right (Nat.le_refl _), Nat.sub_self]
  rfl

theorem bytes_getElem?_of_before {b : UInt8} {rest : List UInt8} (h : c.before = b :: rest) :
    c.bytes[rest.length]? = some b := by
  rw [bytes, h, List.reverse_cons, List.append_assoc, ← List.length_reverse,
    List.getElem?_append_right (Nat.le_refl _), Nat.sub_self]
  rfl

theorem exact_ofBytes (bs : List UInt8) : (ofBytes bs).Exact :=
  ⟨rfl, fun _ h => absurd h (Nat.not_lt_zero _)⟩

/-- **Reading a byte.** -/
theorem Exact.advance (h : c.Exact) : c.advance.Exact := by
  cases hafter : c.after with
  | nil =>
    have hc : c.advance = c := by rw [Cursor.advance, hafter]
    rwa [hc]
  | cons b rest =>
    have hb : c.bytes[c.before.length]? = some b := bytes_getElem?_of_after hafter
    have hlength : c.advance.before.length = c.before.length + 1 := by
      rw [Cursor.advance, hafter, List.length_cons]
    refine ⟨?_, ?_⟩
    · rw [bytes_advance, hlength, place_succ hb, ← h.pos, Cursor.advance, hafter]
    · rw [bytes_advance, hlength]
      intro n hn hnl
      have hwidths : c.advance.widths =
          if b = newline then c.widths.insert c.pos.line c.pos.column else c.widths := by
        rw [Cursor.advance, hafter]
      rw [hwidths, h.pos]
      rcases Nat.lt_succ_iff_lt_or_eq.mp hn with hlt | rfl
      · -- the line of an earlier newline is another one, so what is recorded for it stays
        have hne := Nat.ne_of_lt (line_place_lt hlt hnl)
        split
        · rw [LineWidths.get?_insert, if_neg hne]
          exact h.widths n hlt hnl
        · exact h.widths n hlt hnl
      · have hb' : b = newline := Option.some.inj (hb.symm.trans hnl)
        rw [if_pos hb', LineWidths.get?_insert_self]

/-- **Giving a byte back.** -/
theorem Exact.retreat (h : c.Exact) : c.retreat.Exact := by
  cases hbefore : c.before with
  | nil =>
    have hc : c.retreat = c := by rw [Cursor.retreat, hbefore]
    rwa [hc]
  | cons b rest =>
    have hb : c.bytes[rest.length]? = some b := bytes_getElem?_of_before hbefore
    have hlength : c.before.length = rest.length + 1 := by rw [hbefore, List.length_cons]
    have hretreat : c.retreat = ⟨rest, b :: c.after, c.pos.retreat c.widths, c.widths⟩ := by
      rw [Cursor.retreat, hbefore]
    refine ⟨?_, ?_⟩
    · -- a newline that is given back was read, so its width is recorded
      rw [bytes_retreat, hretreat, h.pos, hlength]
      refine retreat_place_succ hb fun hnl => h.widths _ ?_ (hnl ▸ hb)
      rw [hlength]
      exact Nat.lt_succ_self _
    · rw [bytes_retreat, hretreat]
      intro n hn hnl
      refine h.widths n ?_ hnl
      rw [hlength]
      exact Nat.lt_succ_of_lt hn

theorem Exact.advanceBy (h : c.Exact) (n : Nat) : (c.advanceBy n).Exact := by
  induction n generalizing c with
  | zero => exact h
  | succ n ih =>
    rw [advanceBy_succ]
    exact ih h.advance

theorem Exact.offset (h : c.Exact) : c.pos.offset = c.before.length := by
  have hle : c.before.length ≤ c.bytes.length := by
    rw [length_bytes]
    exact Nat.le_add_right _ _
  rw [h.pos, place, offset_after, List.length_take, Nat.min_eq_left hle]
  exact Nat.zero_add _

end Cursor

end TemplateCheck
