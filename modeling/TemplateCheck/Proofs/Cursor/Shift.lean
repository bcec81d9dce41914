import TemplateCheck.Proofs.Cursor.Place
import TemplateCheck.Proofs.Text.Utf8
import TemplateCheck.Token

/-!
# A text behind another

* `Position.shift p q`  the place `q` of a text that begins at `p`
* `Token.shift p t`     a token of such a text
* `Placed p ts`         the tokens `ts` stand one behind the other, the first of them at `p`

Only the first line of the text behind begins somewhere else than in the first column.
-/

namespace TemplateCheck

namespace Position

def shift (p q : Position) : Position where
  offset := q.offset + p.offset
  line := q.line + (p.line - 1)
  column := if q.line = 1 then q.column + (p.column - 1) else q.column

theorem one_le_line_after_of {p : Position} (h : 1 ≤ p.line) (bs : List UInt8) :
    1 ≤ (p.after bs).line := by
  rw [line_after]
  exact Nat.le_add_right_of_le h

theorem shift_advance (p : Position) {q : Position} (hq : 1 ≤ q.line) (b : UInt8) :
    (p.shift q).advance b = p.shift (q.advance b) := by
  have hline : q.line + 1 ≠ 1 := by omega
  have hoffset : q.offset + p.offset + 1 = q.offset + 1 + p.offset := by omega
  have hlines : q.line + (p.line - 1) + 1 = q.line + 1 + (p.line - 1) := by omega
  by_cases hb : b = newline
  · subst hb
    rw [advance_newline, advance_newline]
    simp only [shift, if_neg hline, hoffset, hlines]
  · rw [advance_of_ne _ hb, advance_of_ne _ hb]
    by_cases hfirst : q.line = 1
    · have hcolumns : q.column + (p.column - 1) + 1 = q.column + 1 + (p.column - 1) := by omega
      simp only [shift, if_pos hfirst, hoffset, hcolumns]
    · simp only [shift, if_neg hfirst, hoffset]

theorem shift_after (p : Position) {q : Position} (hq : 1 ≤ q.line) (bs : List UInt8) :
    (p.shift q).after bs = p.shift (q.after bs) := by
  induction bs generalizing q with
  | nil => rfl
  | cons b bs ih =>
    have hnext : 1 ≤ (q.advance b).line := one_le_line_after_of hq [b]
    rw [after_cons, after_cons, shift_advance p hq, ih hnext]

theorem shift_start {p : Position} (hline : 1 ≤ p.line) (hcolumn : 1 ≤ p.column) :
    p.shift start = p := by
  have h1 : 1 + (p.line - 1) = p.line := by omega
  have h2 : 1 + (p.column - 1) = p.column := by omega
  simp only [shift, start, if_true, Nat.zero_add, h1, h2]

end Position

variable {K : Type}

def Token.shift (p : Position) (t : Token K) : Token K :=
  { t with
    line := t.line + (p.line - 1)
    column := if t.line = 1 then t.column + (p.column - 1) else t.column }

def Placed (p : Position) : List (Token K) → Prop
  | [] => True
  | t :: ts => t.line = p.line ∧ t.column = p.column ∧ Placed (p.after (Utf8.encode t.text)) ts

theorem placed_nil (p : Position) : Placed p ([] : List (Token K)) := trivial

theorem placed_cons_iff {p : Position} {t : Token K} {ts : List (Token K)} :
    Placed p (t :: ts) ↔
      t.line = p.line ∧ t.column = p.column ∧ Placed (p.after (Utf8.encode t.text)) ts :=
  Iff.rfl

theorem placed_append_iff {p : Position} {ts us : List (Token K)} :
    Placed p (ts ++ us) ↔
      Placed p ts ∧ Placed (p.after (ts.flatMap fun t => Utf8.encode t.text)) us := by
  induction ts generalizing p with
  | nil => exact ⟨fun h => ⟨trivial, h⟩, And.right⟩
  | cons t ts ih =>
    rw [List.cons_append, placed_cons_iff, ih, placed_cons_iff, List.flatMap_cons,
      Position.after_append, and_assoc, and_assoc]

/-- Kinds and texts of placed tokens say what the tokens are. -/
theorem Placed.ext {p : Position} {ts us : List (Token K)} (ht : Placed p ts) (hu : Placed p us)
    (h : (ts.map fun t => (t.kind, Utf8.encode t.text)) =
      us.map fun t => (t.kind, Utf8.encode t.text)) : ts = us := by
  induction ts generalizing p us with
  | nil => exact (List.map_eq_nil_iff.mp h.symm).symm
  | cons t ts ih =>
    cases us with
    | nil => exact absurd h (List.cons_ne_nil _ _)
    | cons u us =>
      obtain ⟨hhead, htail⟩ := List.cons.inj h
      obtain ⟨hkind, hbytes⟩ := Prod.mk.inj hhead
      obtain ⟨htline, htcolumn, htrest⟩ := ht
      obtain ⟨huline, hucolumn, hurest⟩ := hu
      have htext : t.text = u.text := Utf8.encode_injective hbytes
      have hrest : ts = us := ih htrest (hbytes ▸ hurest) htail
      have hline : t.line = u.line := htline.trans huline.symm
      have hcolumn : t.column = u.column := htcolumn.trans hucolumn.symm
      have htoken : t = u := by
        cases t
        cases u
        exact (Token.mk.injEq ..).mpr ⟨hkind, htext, hline, hcolumn⟩
      rw [htoken, hrest]

theorem Placed.shift (p : Position) {q : Position} {ts : List (Token K)} (hq : 1 ≤ q.line)
    (h : Placed q ts) : Placed (p.shift q) (ts.map (Token.shift p)) := by
  induction ts generalizing q with
  | nil => exact placed_nil _
  | cons t ts ih =>
    obtain ⟨hline, hcolumn, hrest⟩ := h
    have hlater := Position.one_le_line_after_of hq (Utf8.encode t.text)
    rw [List.map_cons, placed_cons_iff]
    refine ⟨?_, ?_, ?_⟩
    · show t.line + (p.line - 1) = q.line + (p.line - 1)
      rw [hline]
    · show (if t.line = 1 then t.column + (p.column - 1) else t.column) =
        if q.line = 1 then q.column + (p.column - 1) else q.column
      rw [hline, hcolumn]
    · show Placed ((p.shift q).after (Utf8.encode t.text)) _
      rw [Position.shift_after p hq]
      exact ih hlater hrest

end TemplateCheck
