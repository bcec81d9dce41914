/-!
# Lists of faults

A check goes through a list and collects what is wrong with every entry at its place.  A place is a
path of numbers: the first is the number of a part, and those behind it lead to a place in that
part.  Paths are ordered as a check comes along them, a part before what is in it.

* `ite_nil_eq_nil_iff`         a single condition is no fault if it holds
* `flatMap_zipIdx_eq_nil_iff`  nothing is wrong with a list if nothing is wrong with any entry
* `IsFirst P fault`            by `P` the fault stands somewhere, and no fault stands before it
* `Begins P faults`            the list begins with the first fault, or there is none
* `Begins.node`                so does the list of a part if the lists of the parts in it do
-/

namespace TemplateCheck

variable {α β : Type}

theorem ite_nil_eq_nil_iff {p : Prop} [Decidable p] {fault : β} :
    (if p then [] else [fault]) = [] ↔ p := by
  split <;> simp [*]

theorem flatMap_zipIdx_eq_nil_iff {xs : List α} {f : α × Nat → List β} :
    xs.zipIdx.flatMap f = [] ↔ ∀ i x, xs[i]? = some x → f (x, i) = [] := by
  rw [List.flatMap_eq_nil_iff]
  constructor
  · intro h i x hx
    exact h (x, i) (List.mk_mem_zipIdx_iff_getElem?.mpr hx)
  · rintro h ⟨x, i⟩ hx
    exact h i x (List.mk_mem_zipIdx_iff_getElem?.mp hx)

theorem flatMap_eq_flatMap_zipIdx (xs : List α) (f : α → List β) :
    xs.flatMap f = xs.zipIdx.flatMap fun x => f x.1 := by
  have hfst : (xs.zipIdx.map Prod.fst).flatMap f = xs.zipIdx.flatMap fun x => f x.1 :=
    List.flatMap_map ..
  rwa [List.zipIdx_map_fst] at hfst

/-! ## the first fault -/

/-- A place in what is checked, as a path. -/
abbrev Place := List Nat

-- a row before its entries, and these before the next row
example : ([2, 1] : Place) < [2, 1, 7] ∧ ([2, 1, 7] : Place) < [2, 2] := by decide

/-- The fault stands somewhere, and at no place before that one stands any. -/
def IsFirst (P : Place → β → Prop) (fault : β) : Prop :=
  ∃ p, P p fault ∧ ∀ q other, P q other → ¬ q < p

/-- The list begins with the first fault; where it is empty there is none. -/
def Begins (P : Place → β → Prop) : List β → Prop
  | [] => ∀ p fault, ¬ P p fault
  | fault :: _ => IsFirst P fault

variable {P Q : Place → β → Prop} {fs gs : List β} {fault : β}

/-- nothing comes before the whole -/
theorem isFirst_of_nil (h : P [] fault) : IsFirst P fault :=
  ⟨[], h, fun q _ _ => List.not_lt_nil q⟩

/-- nothing comes before a part as a whole but what is in the parts before it -/
theorem isFirst_of_singleton {i : Nat} (h : P [i] fault)
    (hmin : ∀ q other, P q other → ∃ j r, q = j :: r ∧ i ≤ j) : IsFirst P fault := by
  refine ⟨[i], h, fun q other hq hlt => ?_⟩
  obtain ⟨j, r, rfl, hle⟩ := hmin q other hq
  rcases List.cons_lt_cons_iff.mp hlt with hj | ⟨-, hr⟩
  · exact Nat.not_lt.mpr hle hj
  · exact List.not_lt_nil r hr

namespace Begins

theorem congr (hPQ : ∀ p fault, P p fault ↔ Q p fault) (h : Begins P fs) : Begins Q fs := by
  obtain rfl : P = Q := funext fun p => funext fun fault => propext (hPQ p fault)
  exact h

/-- A list that begins with the first fault says which one that is, if a place has only one. -/
theorem head?_eq_some_iff (h : Begins P fs)
    (hunique : ∀ p fault other, P p fault → P p other → fault = other) :
    fs.head? = some fault ↔ IsFirst P fault := by
  cases fs with
  | nil =>
    refine iff_of_false nofun ?_
    rintro ⟨p, hp, -⟩
    exact h p fault hp
  | cons first fs =>
    obtain ⟨p, hp, hmin⟩ := h
    constructor
    · intro hhead
      obtain rfl := Option.some.inj hhead
      exact ⟨p, hp, hmin⟩
    · rintro ⟨q, hq, hmin'⟩
      obtain rfl : p = q := List.le_antisymm (hmin q fault hq) (hmin' p first hp)
      exact congrArg some (hunique p first fault hp hq)

/-- Two lists one behind the other, for faults that stand one behind the other. -/
theorem append (hf : Begins P fs) (hg : Begins Q gs)
    (h : ∀ p fault q other, P p fault → Q q other → ¬ q < p) :
    Begins (fun p fault => P p fault ∨ Q p fault) (fs ++ gs) := by
  cases fs with
  | nil => exact hg.congr fun p fault => (or_iff_right (hf p fault)).symm
  | cons first fs =>
    obtain ⟨p, hp, hmin⟩ := hf
    refine ⟨p, Or.inl hp, ?_⟩
    rintro q other (hq | hq)
    · exact hmin q other hq
    · exact h p first q other hp hq

/-- The faults in part `i`. -/
theorem cons {i : Nat} (h : Begins (fun p => P (i :: p)) fs) :
    Begins (fun p fault => ∃ q, p = i :: q ∧ P p fault) fs := by
  cases fs with
  | nil =>
    rintro p fault ⟨q, rfl, hq⟩
    exact h q fault hq
  | cons first fs =>
    obtain ⟨p, hp, hmin⟩ := h
    refine ⟨i :: p, ⟨p, rfl, hp⟩, ?_⟩
    rintro q other ⟨q, rfl, hq⟩ hlt
    rcases List.cons_lt_cons_iff.mp hlt with hi | ⟨-, hlt⟩
    · exact Nat.lt_irrefl i hi
    · exact hmin q other hq hlt

/-- The faults in the parts from `n` on. -/
theorem flatMap_zipIdx {f : α × Nat → List β} (xs : List α) (n : Nat)
    (h : ∀ i x, (x, i) ∈ xs.zipIdx n → Begins (fun p => P (i :: p)) (f (x, i))) :
    Begins (fun p fault => ∃ i q, n ≤ i ∧ i < n + xs.length ∧ p = i :: q ∧ P p fault)
      ((xs.zipIdx n).flatMap f) := by
  induction xs generalizing n with
  | nil =>
    rintro p fault ⟨i, q, hle, hlt, -⟩
    exact Nat.not_lt.mpr hle hlt
  | cons x xs ih =>
    have hfirst := (h n x List.mem_cons_self).cons
    have hrest := ih (n + 1) fun i y hy => h i y (List.mem_cons_of_mem _ hy)
    rw [List.zipIdx_cons, List.flatMap_cons]
    refine (hfirst.append hrest ?_).congr fun p fault => ?_
    · rintro p fault q other ⟨p, rfl, -⟩ ⟨i, q, hle, -, rfl, -⟩ hlt
      rcases List.cons_lt_cons_iff.mp hlt with hi | ⟨hi, -⟩ <;> omega
    · rw [List.length_cons]
      constructor
      · rintro (⟨q, hq, hp⟩ | ⟨i, q, hle, hlt, hq, hp⟩)
        · exact ⟨n, q, by omega, by omega, hq, hp⟩
        · exact ⟨i, q, by omega, by omega, hq, hp⟩
      · rintro ⟨i, q, hle, hlt, hq, hp⟩
        rcases Nat.eq_or_lt_of_le hle with rfl | hle
        · exact Or.inl ⟨q, hq, hp⟩
        · exact Or.inr ⟨i, q, hle, by omega, hq, hp⟩

/-- **The faults of a part**, those of the part itself before those of the parts in it. -/
theorem node {own : List β} {xs : List α} {f : α × Nat → List β}
    (hown : Begins (fun p fault => p = [] ∧ P p fault) own)
    (hparts : ∀ i x, xs[i]? = some x → Begins (fun p => P (i :: p)) (f (x, i)))
    (hlt : ∀ i p fault, P (i :: p) fault → i < xs.length) :
    Begins P (own ++ xs.zipIdx.flatMap f) := by
  have hrest := flatMap_zipIdx (f := f) xs 0 fun i x hx =>
    hparts i x (List.mk_mem_zipIdx_iff_getElem?.mp hx)
  refine (hown.append hrest ?_).congr fun p fault => ?_
  · rintro p fault q other ⟨rfl, -⟩ -
    exact List.not_lt_nil q
  · constructor
    · rintro (⟨-, hp⟩ | ⟨i, q, -, -, -, hp⟩) <;> exact hp
    · intro hp
      cases p with
      | nil => exact Or.inl ⟨rfl, hp⟩
      | cons i p =>
        exact Or.inr ⟨i, p, Nat.zero_le i, (Nat.zero_add _).symm ▸ hlt i p fault hp, rfl, hp⟩

/-- a part with nothing wrong but what is wrong in it -/
theorem parts {xs : List α} {f : α × Nat → List β} (hnil : ∀ fault, ¬ P [] fault)
    (hparts : ∀ i x, xs[i]? = some x → Begins (fun p => P (i :: p)) (f (x, i)))
    (hlt : ∀ i p fault, P (i :: p) fault → i < xs.length) :
    Begins P (xs.zipIdx.flatMap f) := by
  have hown : Begins (fun p fault => p = [] ∧ P p fault) [] := by
    rintro p fault ⟨rfl, h⟩
    exact hnil fault h
  exact node hown hparts hlt

/-- a part with no parts in it -/
theorem leaf (h : ∀ p fault, P p fault ↔ p = [] ∧ fault ∈ fs) : Begins P fs := by
  cases fs with
  | nil =>
    intro p fault hp
    exact absurd ((h p fault).mp hp).2 List.not_mem_nil
  | cons first fs => exact isFirst_of_nil ((h [] first).mpr ⟨rfl, List.mem_cons_self⟩)

theorem ite {p : Prop} [Decidable p] (h : ∀ q other, P q other ↔ q = [] ∧ ¬ p ∧ other = fault) :
    Begins P (if p then [] else [fault]) := by
  refine leaf fun q other => (h q other).trans (and_congr_right fun _ => ?_)
  split <;> simp [*]

end Begins

end TemplateCheck
