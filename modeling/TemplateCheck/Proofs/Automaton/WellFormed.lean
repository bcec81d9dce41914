import TemplateCheck.Automaton.Validity
import TemplateCheck.Proofs.Faults

/-!
# What the check of an automaton establishes

The faults of an automaton are listed table by table and entry by entry.  Where the list is empty,
the tables have a shape that every look-up can rely on.

* `Automaton.WellFormed`         the shape
* `Automaton.faults_eq_nil_iff`  the check finds no fault in this shape, and in no other

The start state may end a token at the end of the input only.  A scanner that is at the end of its
input before it has read anything does not run the automaton at all.
-/

namespace TemplateCheck

namespace Automaton

variable {K : Type}

structure WellFormed (a : Automaton K) : Prop where
  states : a.transitions ≠ []
  actions : a.transitions.length = a.actions.length
  width : ∀ (state : Nat) (row : List Int), a.transitions[state]? = some row →
    row.length = a.columns
  /-- a state that ends a token has no successor, and a successor is a state -/
  entry : ∀ (state : Nat) (row : List Int) (column : Nat) (target : Int),
    a.transitions[state]? = some row → row[column]? = some target →
    target = noTransition ∨
      a.accepts state = false ∧ 0 ≤ target ∧ target.toNat < a.transitions.length
  /-- no token ends before its first byte -/
  start : ∀ (row : List Int) (column : Nat) (target : Int),
    a.transitions[startState]? = some row → row[column]? = some target →
    column = a.classify none ∨ target < 0 ∨ a.accepts target.toNat = false

variable {a : Automaton K} {state column : Nat} {row : List Int} {target : Int}

/-! ## one entry, one row -/

theorem entryFaults_eq_nil_iff : a.entryFaults state column target = [] ↔
    target = noTransition ∨
      a.accepts state = false ∧ 0 ≤ target ∧ target.toNat < a.transitions.length := by
  unfold entryFaults
  split
  · next h => exact iff_of_true rfl (Or.inl h)
  · next h =>
    rw [or_iff_right h]
    split
    · next haccepts => simp [haccepts]
    · next haccepts =>
      split
      · next hrange =>
        refine iff_of_false (List.cons_ne_nil _ _) ?_
        rintro ⟨-, hnonneg, hlt⟩
        omega
      · next hrange =>
        refine iff_of_true rfl ⟨Bool.not_eq_true _ ▸ haccepts, ?_, ?_⟩ <;> omega

theorem rowFaults_eq_nil_iff : a.rowFaults state row = [] ↔
    row.length = a.columns ∧
      ∀ column target, row[column]? = some target → a.entryFaults state column target = [] := by
  rw [rowFaults, List.append_eq_nil_iff, ite_nil_eq_nil_iff, flatMap_zipIdx_eq_nil_iff]

theorem startFaults_eq_nil_iff : a.startFaults column target = [] ↔
    column = a.classify none ∨ target < 0 ∨ a.accepts target.toNat = false := by
  unfold startFaults
  split
  · next h => exact iff_of_true rfl (Or.inl h)
  · next h =>
    rw [or_iff_right h]
    split
    · next haccepts =>
      refine iff_of_false (List.cons_ne_nil _ _) ?_
      rintro (hneg | hno)
      · omega
      · rw [haccepts.2] at hno
        cases hno
    · next haccepts =>
      refine iff_of_true rfl ?_
      by_cases hneg : target < 0
      · exact Or.inl hneg
      · refine Or.inr (Bool.eq_false_iff.mpr fun hyes => haccepts ⟨by omega, hyes⟩)

/-! ## the tables -/

theorem headD_transitions (h : a.transitions ≠ []) :
    a.transitions[startState]? = some (a.transitions.headD []) := by
  cases ht : a.transitions with
  | nil => exact absurd ht h
  | cons row rows => rfl

/-- **The check finds no fault in well-formed tables, and in no others.** -/
theorem faults_eq_nil_iff : a.faults = [] ↔ a.WellFormed := by
  unfold faults
  split
  · next hempty => exact iff_of_false (List.cons_ne_nil _ _) fun h => h.states hempty
  split
  · next hcount => exact iff_of_false (List.cons_ne_nil _ _) fun h => hcount h.actions
  next hne hcount =>
  rw [List.append_eq_nil_iff, flatMap_zipIdx_eq_nil_iff, flatMap_zipIdx_eq_nil_iff]
  constructor
  · rintro ⟨hrows, hstart⟩
    refine ⟨hne, Decidable.not_not.mp hcount, ?_, ?_, ?_⟩
    · intro state row hrow
      exact (rowFaults_eq_nil_iff.mp (hrows state row hrow)).1
    · intro state row column target hrow htarget
      have hentry := (rowFaults_eq_nil_iff.mp (hrows state row hrow)).2 column target htarget
      exact entryFaults_eq_nil_iff.mp hentry
    · intro row column target hrow htarget
      obtain rfl : a.transitions.headD [] = row :=
        Option.some.inj ((headD_transitions hne).symm.trans hrow)
      exact startFaults_eq_nil_iff.mp (hstart column target htarget)
  · intro h
    refine ⟨fun state row hrow => ?_, fun column target htarget => ?_⟩
    · refine rowFaults_eq_nil_iff.mpr ⟨h.width state row hrow, fun column target htarget => ?_⟩
      exact entryFaults_eq_nil_iff.mpr (h.entry state row column target hrow htarget)
    · exact startFaults_eq_nil_iff.mpr (h.start _ column target (headD_transitions hne) htarget)

theorem wellFormed_of_validate (h : a.validate = .ok ()) : a.WellFormed :=
  faults_eq_nil_iff.mp ((validate_eq_ok_iff a).mp h)

/-! ## look-ups in well-formed tables -/

theorem next?_eq_some {next : Nat} (h : a.next? state column = some next) :
    ∃ row target, a.transitions[state]? = some row ∧ row[column]? = some target ∧ 0 ≤ target ∧
      target.toNat = next := by
  unfold next? at h
  split at h
  · cases h
  · next row hrow =>
    split at h
    · cases h
    · next target htarget =>
      split at h
      · cases h
      · next hnonneg => exact ⟨row, target, hrow, htarget, Int.not_lt.mp hnonneg, Option.some.inj h⟩

namespace WellFormed

variable (h : a.WellFormed) {next : Nat}
include h

theorem startState_lt : startState < a.transitions.length :=
  List.length_pos_iff.mpr h.states

/-- a successor is a state, and no token ends where it comes from -/
theorem next_lt (hnext : a.next? state column = some next) :
    next < a.transitions.length ∧ a.accepts state = false := by
  obtain ⟨row, target, hrow, htarget, hnonneg, rfl⟩ := next?_eq_some hnext
  rcases h.entry state row column target hrow htarget with rfl | ⟨hscans, -, hlt⟩
  · exact absurd hnonneg (by decide)
  · exact ⟨hlt, hscans⟩

theorem accepts_next_startState (hnext : a.next? startState column = some next)
    (hcolumn : column ≠ a.classify none) : a.accepts next = false := by
  obtain ⟨row, target, hrow, htarget, hnonneg, rfl⟩ := next?_eq_some hnext
  rcases h.start row column target hrow htarget with hend | hneg | hscans
  · exact absurd hend hcolumn
  · exact absurd hneg (Int.not_lt.mpr hnonneg)
  · exact hscans

/-- a state without a successor on a column of the table says so in its row -/
theorem noTransition_of_next? (hstate : state < a.transitions.length)
    (hnext : a.next? state column = none) :
    ∃ row, a.transitions[state]? = some row ∧
      (row[column]? = some noTransition ∨ row.length = a.columns ∧ a.columns ≤ column) := by
  have hrow := List.getElem?_eq_getElem hstate
  refine ⟨_, hrow, ?_⟩
  have hwidth := h.width state _ hrow
  cases htarget : a.transitions[state][column]? with
  | none => exact Or.inr ⟨hwidth, hwidth ▸ List.getElem?_eq_none_iff.mp htarget⟩
  | some target =>
    rcases h.entry state _ column target hrow htarget with rfl | ⟨-, hnonneg, -⟩
    · exact Or.inl rfl
    · rw [next?, hrow] at hnext
      simp [htarget, Int.not_lt.mpr hnonneg] at hnext

section
variable [TokenKind K]

theorem getElem?_actions (hstate : state < a.transitions.length) :
    a.actions[state]? = some (a.action state) := by
  rw [action, List.getElem?_eq_getElem (h.actions ▸ hstate)]
  rfl

theorem accepts_eq (hstate : state < a.transitions.length) :
    a.accepts state = (a.action state).isAccepting := by
  rw [accepts, h.getElem?_actions hstate]
  rfl

end

end WellFormed

end Automaton

end TemplateCheck
