import Mathlib.Data.Finset.Card
import Mathlib.Data.Finset.Filter
import Mathlib.Tactic.Ring

/-!
# Stacks whose top is unfolded

A map `f` says what comes in place of a value on top of a stack, if anything does.  Whether this
ever comes to a stop, and after how many turns, can be read off the values alone.

* `turn?`, `turns?`   one turn, and a number of turns; no turn if nothing comes in place of the top
* `Stops`             a stack on which the turns come to a stop
* `settle`            what is left of a value when `f` can take no more turns, found by a recursion
                      of bounded depth over what comes in its place
* `settleAll`         the same for several values one after the other
* `settle_card`       with `n` values in whose place others can come, depth `n + 1` is enough
* `settle_stops`      a value that settles does so in boundedly many turns
* `stops_of_turns?_eq_none`  so a stack that comes to a stop at all does so within a bound
* `Under`             what comes on top when a value is unfolded
* `stops_of_acc`      every stack comes to a stop, if no value has others under it for ever

A value that settles at some depth and not before has another one below it which settles at the
depth before and not earlier (`Late.exists_mem`).  So there is a value for every depth, and they are
all different.
-/

namespace TemplateCheck.Parser

section
variable {α : Type} (f : α → Option (List α))

/-- what comes in place of the top is put on the stack -/
def turn? : List α → Option (List α)
  | [] => none
  | x :: s => (f x).map (· ++ s)

def turns? : Nat → List α → Option (List α)
  | 0, s => some s
  | n + 1, s => (turn? f s).bind (turns? n)

/-- No more than a number of turns can be taken. -/
def Stops (s : List α) : Prop :=
  ∃ n, turns? f n s = none

/-- Several values one after the other: the next one has its turn when nothing is left of those
before it. -/
def settleAll (one : α → Option (List α)) : List α → Option (List α)
  | [] => some []
  | x :: s =>
    match one x with
    | none => none
    | some [] => settleAll one s
    | some (y :: r) => some (y :: r ++ s)

/-- What is left of a value when no turn is left; no answer if that needs more than the given
depth. -/
def settle : Nat → α → Option (List α)
  | 0, _ => none
  | d + 1, x =>
    match f x with
    | none => some [x]
    | some ys => settleAll (settle d) ys

/-! ## turns -/

variable {f} {s t : List α}

theorem turn?_cons_of_none {x : α} (h : f x = none) (s : List α) : turn? f (x :: s) = none := by
  rw [turn?, h]
  rfl

theorem turn?_cons_of_some {x : α} {ys : List α} (h : f x = some ys) (s : List α) :
    turn? f (x :: s) = some (ys ++ s) := by
  rw [turn?, h]
  rfl

theorem turn?_append (h : turn? f s = some t) (u : List α) :
    turn? f (s ++ u) = some (t ++ u) := by
  cases s with
  | nil => cases h
  | cons x s =>
    obtain ⟨ys, hx, rfl⟩ := Option.map_eq_some_iff.mp h
    rw [List.cons_append, turn?_cons_of_some hx, List.append_assoc]

theorem turns?_succ_of_some (h : turn? f s = some t) (n : Nat) :
    turns? f (n + 1) s = turns? f n t := by
  rw [turns?, h]
  rfl

theorem turns?_append {n : Nat} (h : turns? f n s = some t) (u : List α) :
    turns? f n (s ++ u) = some (t ++ u) := by
  induction n generalizing s with
  | zero =>
    obtain rfl : s = t := Option.some.inj h
    rfl
  | succ n ih =>
    obtain ⟨s', hs', hn⟩ := Option.bind_eq_some_iff.mp h
    rw [turns?_succ_of_some (turn?_append hs' u)]
    exact ih hn

theorem turns?_add (m n : Nat) (s : List α) :
    turns? f (m + n) s = (turns? f m s).bind (turns? f n) := by
  induction m generalizing s with
  | zero =>
    rw [Nat.zero_add]
    rfl
  | succ m ih =>
    rw [Nat.add_right_comm, turns?, turns?, Option.bind_assoc]
    exact Option.bind_congr fun s' _ => ih s'

theorem turns?_trans {m n : Nat} {u : List α} (h : turns? f m s = some t)
    (h' : turns? f n t = some u) : turns? f (m + n) s = some u := by
  rw [turns?_add, h]
  exact h'

/-- where there are many turns there are fewer -/
theorem exists_turns?_of_le {m n : Nat} (hle : m ≤ n) (h : turns? f n s = some t) :
    ∃ u, turns? f m s = some u := by
  obtain ⟨k, rfl⟩ := Nat.exists_eq_add_of_le hle
  rw [turns?_add] at h
  obtain ⟨u, hu, -⟩ := Option.bind_eq_some_iff.mp h
  exact ⟨u, hu⟩

/-! ## settling -/

variable {one two : α → Option (List α)} {x y : α} {r : List α} {d : Nat}

theorem settleAll_cons_of_none (h : one x = none) (s : List α) : settleAll one (x :: s) = none := by
  rw [settleAll, h]

theorem settleAll_cons_of_nil (h : one x = some []) (s : List α) :
    settleAll one (x :: s) = settleAll one s := by
  rw [settleAll, h]

theorem settleAll_cons_of_cons (h : one x = some (y :: r)) (s : List α) :
    settleAll one (x :: s) = some (y :: r ++ s) := by
  rw [settleAll, h]

theorem settle_of_none (h : f x = none) (d : Nat) : settle f (d + 1) x = some [x] := by
  rw [settle, h]

theorem settle_of_some {ys : List α} (h : f x = some ys) (d : Nat) :
    settle f (d + 1) x = settleAll (settle f d) ys := by
  rw [settle, h]

theorem settleAll_mono (hone : ∀ x r, one x = some r → two x = some r)
    (h : settleAll one s = some r) : settleAll two s = some r := by
  induction s with
  | nil => exact h
  | cons x s ih =>
    cases hx : one x with
    | none =>
      rw [settleAll_cons_of_none hx] at h
      cases h
    | some left =>
      cases left with
      | nil =>
        rw [settleAll_cons_of_nil hx] at h
        rw [settleAll_cons_of_nil (hone x _ hx)]
        exact ih h
      | cons y r' =>
        rw [settleAll_cons_of_cons hx] at h
        rw [settleAll_cons_of_cons (hone x _ hx)]
        exact h

theorem settle_succ (h : settle f d x = some r) : settle f (d + 1) x = some r := by
  induction d generalizing x r with
  | zero => cases h
  | succ d ih =>
    cases hx : f x with
    | none =>
      rw [settle_of_none hx] at h ⊢
      exact h
    | some ys =>
      rw [settle_of_some hx] at h ⊢
      exact settleAll_mono (fun _ _ => ih) h

theorem settle_of_le {e : Nat} (hle : d ≤ e) (h : settle f d x = some r) :
    settle f e x = some r := by
  induction hle with
  | refl => exact h
  | step _ ih => exact settle_succ ih

/-! ## the depth that is enough -/

/-- The value settles one level below the given depth, and not at that depth. -/
def Late (f : α → Option (List α)) (d : Nat) (x : α) : Prop :=
  settle f d x = none ∧ settle f (d + 1) x ≠ none

theorem exists_of_settleAll (h : settleAll one s = none) (h' : settleAll two s ≠ none)
    (hone : ∀ x r, one x = some r → two x = some r) :
    ∃ x ∈ s, one x = none ∧ two x ≠ none := by
  induction s with
  | nil => cases h
  | cons x s ih =>
    cases hx : one x with
    | none =>
      refine ⟨x, List.mem_cons_self, hx, fun htwo => ?_⟩
      exact h' (settleAll_cons_of_none htwo s)
    | some left =>
      cases left with
      | nil =>
        rw [settleAll_cons_of_nil hx] at h
        rw [settleAll_cons_of_nil (hone x _ hx)] at h'
        obtain ⟨y, hy, hlate⟩ := ih h h'
        exact ⟨y, List.mem_cons_of_mem x hy, hlate⟩
      | cons y r =>
        rw [settleAll_cons_of_cons hx] at h
        cases h

theorem Late.exists_mem (h : Late f (d + 1) x) : ∃ ys, f x = some ys ∧ ∃ y ∈ ys, Late f d y := by
  obtain ⟨hnone, hsome⟩ := h
  cases hx : f x with
  | none =>
    rw [settle_of_none hx] at hnone
    cases hnone
  | some ys =>
    rw [settle_of_some hx] at hnone hsome
    exact ⟨ys, rfl, exists_of_settleAll hnone hsome fun _ _ => settle_succ⟩

section
variable {S : Finset α} (hS : ∀ x ys, f x = some ys → ys ≠ [] → x ∈ S)
include hS

/-- As many values have settled, one for every depth before. -/
theorem Late.le_card (h : Late f d x) :
    d ≤ (S.filter fun x => (settle f (d + 1) x).isSome).card := by
  induction d generalizing x with
  | zero => exact Nat.zero_le _
  | succ d ih =>
    obtain ⟨ys, hx, y, hy, hlate⟩ := h.exists_mem
    refine Nat.lt_of_le_of_lt (ih hlate) (Finset.card_lt_card ?_)
    refine (Finset.ssubset_iff_of_subset fun z hz => ?_).mpr ⟨x, ?_, fun hmem => ?_⟩
    · obtain ⟨hzS, hsome⟩ := Finset.mem_filter.mp hz
      obtain ⟨r, hr⟩ := Option.isSome_iff_exists.mp hsome
      exact Finset.mem_filter.mpr ⟨hzS, Option.isSome_iff_exists.mpr ⟨r, settle_succ hr⟩⟩
    · exact Finset.mem_filter.mpr
        ⟨hS x ys hx (List.ne_nil_of_mem hy), Option.isSome_iff_ne_none.mpr h.2⟩
    · have hsome := (Finset.mem_filter.mp hmem).2
      rw [h.1] at hsome
      cases hsome

/-- **A value that settles at all settles at this depth.** -/
theorem settle_card (h : settle f d x = some r) : settle f (S.card + 1) x = some r := by
  rcases Nat.le_total d (S.card + 1) with hle | hle
  · exact settle_of_le hle h
  · cases hx : settle f (S.card + 1) x with
    | some r' =>
      rw [settle_of_le hle hx] at h
      exact h
    | none =>
      -- at no greater depth does the value settle for the first time
      have hnone : settle f d x = none := by
        clear h
        induction hle with
        | refl => exact hx
        | @step e hle ih =>
          by_contra hsome
          have hlate : Late f e x := ⟨ih, hsome⟩
          have hcard := Nat.le_trans (hlate.le_card hS) (Finset.card_filter_le S _)
          simp only [Nat.le_eq] at hle
          omega
      rw [hnone] at h
      cases h

end

/-! ## the turns that are enough -/

/-- If each of the values comes to a stop, so do all of them. -/
theorem settleAll_stops {cost a b : Nat}
    (hone : ∀ x r, one x = some r → ∃ n ≤ cost, turns? f n [x] = some r ∧ turn? f r = none ∧
      (r = [] ∨ r.length + a ≤ 1 + b))
    (h : settleAll one s = some r) :
    ∃ n ≤ s.length * cost, turns? f n s = some r ∧ turn? f r = none ∧
      (r = [] ∨ r.length + a ≤ s.length + b) := by
  induction s with
  | nil =>
    obtain rfl : [] = r := Option.some.inj h
    exact ⟨0, Nat.zero_le _, rfl, rfl, Or.inl rfl⟩
  | cons x s ih =>
    cases hx : one x with
    | none =>
      rw [settleAll_cons_of_none hx] at h
      cases h
    | some left =>
      obtain ⟨m, hm, hturns, hstop, hlen⟩ := hone x left hx
      have hfirst : turns? f m (x :: s) = some (left ++ s) := turns?_append hturns s
      cases left with
      | nil =>
        rw [settleAll_cons_of_nil hx] at h
        obtain ⟨n, hn, hturns', hstop', hlen'⟩ := ih h
        refine ⟨m + n, ?_, turns?_trans hfirst hturns', hstop', hlen'.imp_right fun hle => ?_⟩
        · rw [List.length_cons, Nat.succ_mul]
          omega
        · rw [List.length_cons]
          omega
      | cons y left =>
        rw [settleAll_cons_of_cons hx] at h
        obtain rfl := Option.some.inj h
        refine ⟨m, ?_, hfirst, ?_, Or.inr ?_⟩
        · rw [List.length_cons, Nat.succ_mul]
          omega
        · rw [turn?, Option.map_eq_none_iff] at hstop
          exact turn?_cons_of_none hstop (left ++ s)
        · rcases hlen with hlen | hlen
          · cases hlen
          · simp only [List.length_append, List.length_cons] at hlen ⊢
            omega

section
variable {width : Nat} (hwidth : ∀ x ys, f x = some ys → ys.length ≤ width)
include hwidth

/-- **A value that settles comes to a stop**, and a bounded number of values is left of it. -/
theorem settle_stops (h : settle f d x = some r) :
    ∃ n ≤ (width + 1) ^ d, turns? f n [x] = some r ∧ turn? f r = none ∧
      (r = [] ∨ r.length + width ≤ 1 + d * width) := by
  induction d generalizing x r with
  | zero => cases h
  | succ d ih =>
    cases hx : f x with
    | none =>
      rw [settle_of_none hx] at h
      obtain rfl := Option.some.inj h
      refine ⟨0, Nat.zero_le _, rfl, turn?_cons_of_none hx [], Or.inr ?_⟩
      rw [List.length_singleton, Nat.succ_mul]
      omega
    | some ys =>
      rw [settle_of_some hx] at h
      have hys := hwidth x ys hx
      obtain ⟨n, hn, hturns, hstop, hlen⟩ := settleAll_stops (fun _ _ => ih) h
      have hfirst : turn? f [x] = some ys := by rw [turn?_cons_of_some hx, List.append_nil]
      refine ⟨n + 1, ?_, ?_, hstop, hlen.imp_right fun hle => ?_⟩
      · have hpos : 1 ≤ (width + 1) ^ d := Nat.one_le_pow _ _ (Nat.succ_pos _)
        calc n + 1 ≤ ys.length * (width + 1) ^ d + 1 := by omega
          _ ≤ width * (width + 1) ^ d + (width + 1) ^ d :=
            Nat.add_le_add (Nat.mul_le_mul_right _ hys) hpos
          _ = (width + 1) ^ (d + 1) := by ring
      · rw [turns?_succ_of_some hfirst]
        exact hturns
      · rw [Nat.succ_mul]
        omega

/-- What does not settle at a depth has as many turns. -/
theorem exists_turns?_of_settleAll (h : settleAll (settle f d) s = none) :
    ∃ t, turns? f d s = some t := by
  induction d generalizing s with
  | zero => exact ⟨s, rfl⟩
  | succ d ih =>
    induction s with
    | nil => cases h
    | cons x s ihs =>
      cases hx : settle f (d + 1) x with
      | none =>
        cases hfx : f x with
        | none =>
          rw [settle_of_none hfx] at hx
          cases hx
        | some ys =>
          rw [settle_of_some hfx] at hx
          obtain ⟨t, ht⟩ := ih hx
          refine ⟨t ++ s, ?_⟩
          rw [turns?_succ_of_some (turn?_cons_of_some hfx s)]
          exact turns?_append ht s
      | some left =>
        cases left with
        | nil =>
          -- nothing is left of the first value, and the others have the turns
          rw [settleAll_cons_of_nil hx] at h
          obtain ⟨t, ht⟩ := ihs h
          obtain ⟨m, -, hturns, -⟩ := settle_stops hwidth hx
          have hfirst : turns? f m (x :: s) = some s := turns?_append hturns s
          exact exists_turns?_of_le (Nat.le_add_left _ m) (turns?_trans hfirst ht)
        | cons y left =>
          rw [settleAll_cons_of_cons hx] at h
          cases h

/-- **A stack that comes to a stop does so within a bound.** -/
theorem stops_of_turns?_eq_none {S : Finset α} (hS : ∀ x ys, f x = some ys → ys ≠ [] → x ∈ S)
    {n : Nat} (h : turns? f n s = none) :
    ∃ m ≤ s.length * (width + 1) ^ (S.card + 1), ∃ r, turns? f m s = some r ∧
      turn? f r = none ∧ r.length ≤ s.length + S.card * width := by
  cases hsettle : settleAll (settle f n) s with
  | none =>
    obtain ⟨t, ht⟩ := exists_turns?_of_settleAll hwidth hsettle
    rw [ht] at h
    cases h
  | some r =>
    have hcard := settleAll_mono (fun _ _ => settle_card hS) hsettle
    obtain ⟨m, hm, hturns, hstop, hlen⟩ :=
      settleAll_stops (fun _ _ => settle_stops hwidth) hcard
    refine ⟨m, hm, r, hturns, hstop, ?_⟩
    rcases hlen with rfl | hlen
    · exact Nat.zero_le _
    · rw [Nat.succ_mul] at hlen
      omega

end

/-! ## what comes on top -/

/-- Nothing is left of the value. -/
def Vanishes (f : α → Option (List α)) (x : α) : Prop :=
  ∃ d, settle f d x = some []

/-- In place of `x` come values of which nothing is left, and behind them `y`. -/
def Under (f : α → Option (List α)) (y x : α) : Prop :=
  ∃ ys zs, f x = some (ys ++ y :: zs) ∧ ∀ z ∈ ys, Vanishes f z

theorem eq_nil_of_settleAll (h : settleAll one s = some []) : ∀ x ∈ s, one x = some [] := by
  induction s with
  | nil => exact fun x hx => absurd hx List.not_mem_nil
  | cons x s ih =>
    cases hx : one x with
    | none =>
      rw [settleAll_cons_of_none hx] at h
      cases h
    | some left =>
      cases left with
      | nil =>
        rw [settleAll_cons_of_nil hx] at h
        exact List.forall_mem_cons.mpr ⟨hx, ih h⟩
      | cons y r =>
        rw [settleAll_cons_of_cons hx] at h
        cases h

/-- Values settle one after the other, if each of them does that has its turn. -/
theorem exists_settleAll (h : ∀ ys y zs, s = ys ++ y :: zs → (∀ z ∈ ys, Vanishes f z) →
      ∃ d r, settle f d y = some r) :
    ∃ d r, settleAll (settle f d) s = some r := by
  induction s with
  | nil => exact ⟨0, [], rfl⟩
  | cons x s ih =>
    obtain ⟨d, left, hx⟩ := h [] x s rfl fun z hz => absurd hz List.not_mem_nil
    cases left with
    | cons y r => exact ⟨d, _, settleAll_cons_of_cons hx s⟩
    | nil =>
      obtain ⟨e, r, hs⟩ := ih fun ys y zs hsplit hys =>
        h (x :: ys) y zs (congrArg (x :: ·) hsplit) (List.forall_mem_cons.mpr ⟨⟨d, hx⟩, hys⟩)
      refine ⟨max d e, r, ?_⟩
      rw [settleAll_cons_of_nil (settle_of_le (Nat.le_max_left d e) hx)]
      exact settleAll_mono (fun _ _ => settle_of_le (Nat.le_max_right d e)) hs

/-- **A value settles**, if what comes on top in its place does not go on for ever. -/
theorem exists_settle_of_acc (h : Acc (Under f) x) : ∃ d r, settle f d x = some r := by
  induction h with
  | intro x _ ih =>
    cases hx : f x with
    | none => exact ⟨1, [x], settle_of_none hx 0⟩
    | some ys =>
      obtain ⟨d, r, hys⟩ := exists_settleAll fun us y zs hsplit hus =>
        ih y ⟨us, zs, hx.trans (congrArg some hsplit), hus⟩
      refine ⟨d + 1, r, ?_⟩
      rw [settle_of_some hx]
      exact hys

theorem stops_of_acc {width : Nat} (hwidth : ∀ x ys, f x = some ys → ys.length ≤ width)
    (h : ∀ x, Acc (Under f) x) (s : List α) : Stops f s := by
  obtain ⟨d, r, hsettle⟩ := exists_settleAll (s := s) fun _ y _ _ _ => exists_settle_of_acc (h y)
  obtain ⟨n, -, hturns, hstop, -⟩ := settleAll_stops (fun _ _ => settle_stops hwidth) hsettle
  refine ⟨n + 1, ?_⟩
  rw [turns?_add, hturns, Option.bind_some, turns?, hstop]
  rfl

end

end TemplateCheck.Parser
