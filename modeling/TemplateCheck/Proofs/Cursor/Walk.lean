import TemplateCheck.Proofs.Cursor.Place

/-!
# A cursor that goes forward and back

* `Cursor.Step`, `Cursor.walk`   one byte forward or back, and any number of such steps
* `Cursor.Crossed bs steps i`    byte `i` was read in the course of the walk, and may have been given
                                 back since
* `Cursor.Records c p`           the widths are those of the lines that end in a byte of which `p`
                                 holds
* `Records.advance`, `Records.retreat`   what a step does to the bytes whose lines are recorded
* `walk_exact`                   the position after a walk is the one of the bytes before the cursor,
                                 and the record holds the lines that were crossed

A cursor is `Exact` after every step, so the position needs no induction of its own.  The record
needs one: `Exact` speaks of the lines before the cursor only, and a line that was crossed stays
recorded when the cursor goes back before its end.  Lines that end in different bytes are different
lines (`line_place_lt`), so that crossing one leaves the others as they are.
-/

namespace TemplateCheck.Cursor

open Position

/-- One step of a cursor. -/
inductive Step where
  | forward
  | back
  deriving DecidableEq, Repr

def step (c : Cursor) : Step → Cursor
  | .forward => c.advance
  | .back => c.retreat

/-- the cursor after these steps, from the first one on -/
def walk (c : Cursor) (steps : List Step) : Cursor :=
  steps.foldl step c

@[simp] theorem walk_nil (c : Cursor) : c.walk [] = c := rfl

@[simp] theorem walk_append (c : Cursor) (as bs : List Step) :
    c.walk (as ++ bs) = (c.walk as).walk bs :=
  List.foldl_append

theorem walk_concat (c : Cursor) (steps : List Step) (s : Step) :
    c.walk (steps ++ [s]) = (c.walk steps).step s := by
  rw [walk_append]
  rfl

/-! ## bytes and places -/

theorem bytes_walk (c : Cursor) (steps : List Step) : (c.walk steps).bytes = c.bytes := by
  induction steps using List.reverseRecOn with
  | nil => rfl
  | append_singleton steps s ih =>
    rw [walk_concat, ← ih]
    cases s with
    | forward => exact bytes_advance _
    | back => exact bytes_retreat _

theorem Exact.walk {c : Cursor} (h : c.Exact) (steps : List Step) : (c.walk steps).Exact := by
  induction steps using List.reverseRecOn with
  | nil => exact h
  | append_singleton steps s ih =>
    rw [walk_concat]
    cases s with
    | forward => exact ih.advance
    | back => exact ih.retreat

theorem length_before_advance (c : Cursor) :
    c.advance.before.length = min (c.before.length + 1) c.bytes.length := by
  have hlength := length_bytes c
  have hlength' := length_bytes c.advance
  rw [bytes_advance, after_advance, List.length_tail] at hlength'
  omega

theorem length_before_retreat (c : Cursor) : c.retreat.before.length = c.before.length - 1 := by
  unfold retreat
  split
  · next h => rw [h]; rfl
  · next h => rw [h]; rfl

theorem length_before_walk_forward (c : Cursor) (n : Nat) :
    (c.walk (List.replicate n .forward)).before.length =
      min (c.before.length + n) c.bytes.length := by
  have hlength := length_bytes c
  induction n with
  | zero => rw [List.replicate_zero, walk_nil]; omega
  | succ n ih =>
    rw [List.replicate_succ', walk_concat, step, length_before_advance, bytes_walk, ih]
    omega

theorem length_before_walk_back (c : Cursor) (n : Nat) :
    (c.walk (List.replicate n .back)).before.length = c.before.length - n := by
  induction n with
  | zero => rfl
  | succ n ih =>
    rw [List.replicate_succ', walk_concat, step, length_before_retreat, ih]
    rfl

/-! ## the record of line widths -/

/-- The widths are those of the lines that end in one of these bytes, and no others are
recorded. -/
def Records (c : Cursor) (p : Nat → Prop) : Prop :=
  ∀ line column, c.widths.get? line = some column ↔
    ∃ i, p i ∧ c.bytes[i]? = some newline ∧
      (place c.bytes i).line = line ∧ (place c.bytes i).column = column

variable {c : Cursor} {p q : Nat → Prop}

theorem Records.congr (h : c.Records p) (hpq : ∀ i, p i ↔ q i) : c.Records q := by
  obtain rfl : p = q := funext fun i => propext (hpq i)
  exact h

theorem Records.retreat (h : c.Records p) : c.retreat.Records p := by
  have hwidths : c.retreat.widths = c.widths := by
    unfold Cursor.retreat
    split <;> rfl
  intro line column
  rw [hwidths, bytes_retreat]
  exact h line column

/-- two bytes that end lines on the same line are one byte -/
theorem eq_of_line_place {bs : List UInt8} {i j : Nat} (hi : bs[i]? = some newline)
    (hj : bs[j]? = some newline) (hline : (place bs i).line = (place bs j).line) : i = j := by
  rcases Nat.lt_trichotomy i j with hlt | heq | hgt
  · exact absurd hline (Nat.ne_of_lt (line_place_lt hlt hi))
  · exact heq
  · exact absurd hline.symm (Nat.ne_of_lt (line_place_lt hgt hj))

/-- **Reading a byte** adds that byte to those whose lines are recorded. -/
theorem Records.advance (hexact : c.Exact) (h : c.Records p) (hne : c.after ≠ []) :
    c.advance.Records fun i => p i ∨ i = c.before.length := by
  obtain ⟨b, rest, hafter⟩ := List.exists_cons_of_ne_nil hne
  have hb : c.bytes[c.before.length]? = some b := bytes_getElem?_of_after hafter
  have hwidths : c.advance.widths =
      if b = newline then c.widths.insert c.pos.line c.pos.column else c.widths := by
    rw [Cursor.advance, hafter]
  intro line column
  rw [hwidths, bytes_advance]
  by_cases hnl : b = newline
  · subst hnl
    rw [if_pos rfl, LineWidths.get?_insert, hexact.pos]
    split
    · next hline =>
      subst hline
      refine ⟨fun heq => ?_, ?_⟩
      · exact ⟨c.before.length, Or.inr rfl, hb, rfl, Option.some.inj heq⟩
      · rintro ⟨i, -, hi, hline, rfl⟩
        rw [eq_of_line_place hi hb hline]
    · next hline =>
      rw [h line column]
      constructor
      · rintro ⟨i, hp, hi⟩
        exact ⟨i, Or.inl hp, hi⟩
      · rintro ⟨i, hp | rfl, hi, rfl, hcolumn⟩
        · exact ⟨i, hp, hi, rfl, hcolumn⟩
        · exact absurd rfl hline
  · rw [if_neg hnl, h line column]
    constructor
    · rintro ⟨i, hp, hi⟩
      exact ⟨i, Or.inl hp, hi⟩
    · rintro ⟨i, hp | rfl, hi, hplace⟩
      · exact ⟨i, hp, hi, hplace⟩
      · exact absurd (Option.some.inj (hb.symm.trans hi)) hnl

/-! ## walks from the first byte -/

variable {bs : List UInt8} {steps : List Step}

/-- Some part of the walk led past this byte. -/
def Crossed (bs : List UInt8) (steps : List Step) (i : Nat) : Prop :=
  ∃ visited, visited <+: steps ∧ i < ((ofBytes bs).walk visited).pos.offset

theorem exact_walk (bs : List UInt8) (steps : List Step) : ((ofBytes bs).walk steps).Exact :=
  (exact_ofBytes bs).walk steps

theorem crossed_of_lt {i : Nat} (h : i < ((ofBytes bs).walk steps).pos.offset) :
    Crossed bs steps i :=
  ⟨steps, List.prefix_refl steps, h⟩

theorem crossed_concat_iff {s : Step} {i : Nat} : Crossed bs (steps ++ [s]) i ↔
    Crossed bs steps i ∨ i < ((ofBytes bs).walk (steps ++ [s])).pos.offset := by
  constructor
  · rintro ⟨visited, hvisited, hi⟩
    rcases List.prefix_concat_iff.mp hvisited with rfl | hbefore
    · exact Or.inr hi
    · exact Or.inl ⟨visited, hbefore, hi⟩
  · rintro (⟨visited, hvisited, hi⟩ | hi)
    · exact ⟨visited, hvisited.trans (List.prefix_append _ _), hi⟩
    · exact crossed_of_lt hi

/-- a step that leads to no byte for the first time -/
theorem crossed_concat_of_le {s : Step} (h : ((ofBytes bs).walk (steps ++ [s])).pos.offset ≤
    ((ofBytes bs).walk steps).pos.offset) (i : Nat) :
    Crossed bs steps i ↔ Crossed bs (steps ++ [s]) i := by
  rw [crossed_concat_iff]
  exact ⟨Or.inl, fun hi => hi.elim id fun hlt => crossed_of_lt (Nat.lt_of_lt_of_le hlt h)⟩

theorem offset_walk_replicate_forward (bs : List UInt8) (steps : List Step) (n : Nat) :
    ((ofBytes bs).walk (steps ++ List.replicate n .forward)).pos.offset =
      min (((ofBytes bs).walk steps).pos.offset + n) bs.length := by
  rw [(exact_walk bs _).offset, (exact_walk bs _).offset, walk_append,
    length_before_walk_forward, bytes_walk, bytes_ofBytes]

theorem offset_walk_replicate_back (bs : List UInt8) (steps : List Step) (n : Nat) :
    ((ofBytes bs).walk (steps ++ List.replicate n .back)).pos.offset =
      ((ofBytes bs).walk steps).pos.offset - n := by
  rw [(exact_walk bs _).offset, (exact_walk bs _).offset, walk_append, length_before_walk_back]

/-- a step forward leads past the byte at the cursor -/
theorem crossed_forward_iff (hne : ((ofBytes bs).walk steps).after ≠ []) (i : Nat) :
    Crossed bs steps i ∨ i = ((ofBytes bs).walk steps).before.length ↔
      Crossed bs (steps ++ [.forward]) i := by
  have hpos := List.length_pos_iff.mpr hne
  have hlength := length_bytes ((ofBytes bs).walk steps)
  rw [bytes_walk, bytes_ofBytes, ← (exact_walk bs steps).offset] at hlength
  have hoffset : ((ofBytes bs).walk (steps ++ [.forward])).pos.offset =
      ((ofBytes bs).walk steps).pos.offset + 1 :=
    (offset_walk_replicate_forward bs steps 1).trans (Nat.min_eq_left (by omega))
  rw [crossed_concat_iff, hoffset, ← (exact_walk bs steps).offset, Nat.lt_succ_iff_lt_or_eq,
    ← or_assoc]
  exact or_congr_left ⟨Or.inl, fun h => h.elim id crossed_of_lt⟩

/-- **The record holds the lines that were crossed.** -/
theorem records_walk (bs : List UInt8) (steps : List Step) :
    ((ofBytes bs).walk steps).Records (Crossed bs steps) := by
  induction steps using List.reverseRecOn with
  | nil =>
    intro line column
    refine ⟨nofun, ?_⟩
    rintro ⟨i, ⟨visited, hvisited, hi⟩, -⟩
    rw [List.prefix_nil.mp hvisited] at hi
    exact absurd hi (Nat.not_lt_zero i)
  | append_singleton steps s ih =>
    cases s with
    | back =>
      rw [walk_concat]
      refine ih.retreat.congr (crossed_concat_of_le ?_)
      exact Nat.le_trans (Nat.le_of_eq (offset_walk_replicate_back bs steps 1)) (Nat.sub_le _ 1)
    | forward =>
      by_cases hend : ((ofBytes bs).walk steps).after = []
      · -- at the end of the bytes nothing is read
        have hstay : (ofBytes bs).walk (steps ++ [.forward]) = (ofBytes bs).walk steps := by
          rw [walk_concat, step, Cursor.advance, hend]
        rw [hstay]
        refine ih.congr (crossed_concat_of_le ?_)
        rw [hstay]
      · rw [walk_concat]
        exact (ih.advance (exact_walk bs steps) hend).congr (crossed_forward_iff hend)

theorem pos_walk (bs : List UInt8) (steps : List Step) : ((ofBytes bs).walk steps).pos =
    Position.start.after (bs.take ((ofBytes bs).walk steps).pos.offset) := by
  have h := (exact_walk bs steps).pos
  rwa [bytes_walk, bytes_ofBytes, ← (exact_walk bs steps).offset] at h

/-- cursors with as many bytes before them stand at the same place -/
theorem pos_walk_eq {as cs : List Step} (h : ((ofBytes bs).walk as).pos.offset =
    ((ofBytes bs).walk cs).pos.offset) : ((ofBytes bs).walk as).pos = ((ofBytes bs).walk cs).pos := by
  rw [pos_walk bs as, h, ← pos_walk]

/-- **A cursor knows its place after any walk.**  Its position is the one of the bytes before it; the
record of widths holds, for every line whose end was crossed on the way, the column of its newline,
and nothing else; and some steps forward and no more of them back are as good as the difference. -/
theorem walk_exact (bs : List UInt8) (steps : List Step) :
    let walked := fun steps => (ofBytes bs).walk steps
    let offset := (walked steps).pos.offset
    (walked (steps ++ [.forward])).pos.offset = min (offset + 1) bs.length ∧
    (walked (steps ++ [.back])).pos.offset = offset - 1 ∧
    (walked steps).after = bs.drop offset ∧
    (walked steps).pos = Position.start.after (bs.take offset) ∧
    (∀ line column, (walked steps).widths.get? line = some column ↔
      ∃ visited, visited <+: steps ∧ ∃ i < (walked visited).pos.offset,
        bs[i]? = some newline ∧ (Position.start.after (bs.take i)).line = line ∧
          (Position.start.after (bs.take i)).column = column) ∧
    ∀ n k, k ≤ n → offset + n ≤ bs.length →
      (walked (steps ++ List.replicate n .forward ++ List.replicate k .back)).pos =
        (walked (steps ++ List.replicate (n - k) .forward)).pos := by
  intro walked offset
  have hbytes : (walked steps).bytes = bs := (bytes_walk _ _).trans (bytes_ofBytes bs)
  refine ⟨offset_walk_replicate_forward bs steps 1, offset_walk_replicate_back bs steps 1, ?_,
    pos_walk bs steps, ?_, ?_⟩
  · rw [after_eq_drop, hbytes, ← (exact_walk bs steps).offset]
  · intro line column
    rw [records_walk bs steps line column, hbytes]
    constructor
    · rintro ⟨i, ⟨visited, hvisited, hi⟩, hplace⟩
      exact ⟨visited, hvisited, i, hi, hplace⟩
    · rintro ⟨visited, hvisited, i, hi, hplace⟩
      exact ⟨i, ⟨visited, hvisited, hi⟩, hplace⟩
  · intro n k hk hn
    refine pos_walk_eq ?_
    rw [offset_walk_replicate_back, offset_walk_replicate_forward, offset_walk_replicate_forward]
    show min (offset + n) bs.length - k = min (offset + (n - k)) bs.length
    omega

end TemplateCheck.Cursor
