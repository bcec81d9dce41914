import TemplateCheck.Proofs.Automaton.WellFormed

/-!
# The first fault of an automaton

The places in an automaton are `[0]` for the states as a whole, `[1]` for the number of actions,
`[2, s]` for the row of state `s` and `[2, s, c]` for column `c` of that row, and `[3, c]` for
column `c` of the row of the start state, once more.

* `Automaton.Fault a p fault`         the fault stands at this place
* `Automaton.begins_faults`           the list of all faults begins with the first one
* `Automaton.check`                   the check as it goes from place to place; a look outside a
                                      list leaves it without an answer
* `Automaton.answers_check`           it has one, and that is the first of the listed faults
* `Automaton.check_finds_first_fault` what this comes to

The check looks up the row of the start state, the action of every state and that of every successor
of the start state, without asking whether there is one.  There is one each time, by what has been
found in order before.
-/

namespace TemplateCheck.Automaton

variable {K : Type}

/-- What is wrong with an automaton, and where. -/
inductive Fault (a : Automaton K) : Place → AutomatonError → Prop where
  | empty : a.transitions = [] → Fault a [0] .empty
  | stateCount : a.transitions.length ≠ a.actions.length →
    Fault a [1] (.stateCountMismatch a.transitions.length a.actions.length)
  | width {state : Nat} {row : List Int} : a.transitions[state]? = some row →
    row.length ≠ a.columns → Fault a [2, state] (.rowWidth state row.length a.columns)
  | accepting {state column : Nat} {row : List Int} {target : Int} :
    a.transitions[state]? = some row → row[column]? = some target → a.accepts state = true →
    target ≠ noTransition → Fault a [2, state, column] (.acceptingWithTransitions state)
  | range {state column : Nat} {row : List Int} {target : Int} :
    a.transitions[state]? = some row → row[column]? = some target → a.accepts state = false →
    target ≠ noTransition → ¬ (0 ≤ target ∧ target.toNat < a.transitions.length) →
    Fault a [2, state, column] (.targetOutOfRange state column target)
  | start {column : Nat} {row : List Int} {target : Int} :
    a.transitions[startState]? = some row → row[column]? = some target →
    column ≠ a.classify none → 0 ≤ target → a.accepts target.toNat = true →
    Fault a [3, column] (.emptyAccept column)

variable {a : Automaton K}

theorem Fault.unique {p : Place} {fault other : AutomatonError} (h : a.Fault p fault)
    (h' : a.Fault p other) : fault = other := by
  cases h with
  | empty _ => cases h'; rfl
  | stateCount _ => cases h'; rfl
  | width hrow _ =>
    cases h' with
    | width hrow' _ => rw [Option.some.inj (hrow.symm.trans hrow')]
  | accepting _ _ haccepts _ =>
    cases h' with
    | accepting _ _ _ _ => rfl
    | range _ _ hscans _ _ => cases haccepts.symm.trans hscans
  | range hrow htarget hscans _ _ =>
    cases h' with
    | accepting _ _ haccepts _ => cases haccepts.symm.trans hscans
    | range hrow' htarget' _ _ _ =>
      obtain rfl := Option.some.inj (hrow.symm.trans hrow')
      rw [Option.some.inj (htarget.symm.trans htarget')]
  | start _ _ _ _ _ =>
    cases h' with
    | start _ _ _ _ _ => rfl

/-! ## the list of all faults -/

theorem mem_entryFaults_iff {state column : Nat} {target : Int} {fault : AutomatonError} :
    fault ∈ a.entryFaults state column target ↔ target ≠ noTransition ∧
      (a.accepts state = true ∧ fault = .acceptingWithTransitions state ∨
        a.accepts state = false ∧ ¬ (0 ≤ target ∧ target.toNat < a.transitions.length) ∧
          fault = .targetOutOfRange state column target) := by
  unfold entryFaults
  split
  · next h => simp [h]
  · next hne =>
    split
    · next haccepts => simp [hne, haccepts]
    · next hscans =>
      split
      · next hrange =>
        have hout : ¬ (0 ≤ target ∧ target.toNat < a.transitions.length) := by omega
        simp [hne, hscans, hout]
      · next hrange =>
        have hin : 0 ≤ target ∧ target.toNat < a.transitions.length := by omega
        simp [hscans, hin]

theorem mem_startFaults_iff {column : Nat} {target : Int} {fault : AutomatonError} :
    fault ∈ a.startFaults column target ↔
      column ≠ a.classify none ∧ 0 ≤ target ∧ a.accepts target.toNat = true ∧
        fault = .emptyAccept column := by
  unfold startFaults
  split
  · next h => simp [h]
  · next h => split <;> simp_all

section
variable {state : Nat} {row : List Int} (hrow : a.transitions[state]? = some row)
include hrow

theorem begins_entryFaults {column : Nat} {target : Int} (htarget : row[column]? = some target) :
    Begins (fun q => a.Fault (2 :: state :: column :: q)) (a.entryFaults state column target) := by
  refine Begins.leaf fun q fault => ?_
  rw [mem_entryFaults_iff]
  constructor
  · intro h
    cases h with
    | accepting hrow' htarget' haccepts hne =>
      obtain rfl := Option.some.inj (hrow.symm.trans hrow')
      obtain rfl := Option.some.inj (htarget.symm.trans htarget')
      exact ⟨rfl, hne, Or.inl ⟨haccepts, rfl⟩⟩
    | range hrow' htarget' hscans hne hrange =>
      obtain rfl := Option.some.inj (hrow.symm.trans hrow')
      obtain rfl := Option.some.inj (htarget.symm.trans htarget')
      exact ⟨rfl, hne, Or.inr ⟨hscans, hrange, rfl⟩⟩
  · rintro ⟨rfl, hne, ⟨haccepts, rfl⟩ | ⟨hscans, hrange, rfl⟩⟩
    · exact .accepting hrow htarget haccepts hne
    · exact .range hrow htarget hscans hne hrange

theorem begins_rowFaults :
    Begins (fun q => a.Fault (2 :: state :: q)) (a.rowFaults state row) := by
  refine Begins.node ?_ ?_ ?_
  · refine Begins.ite fun q other => and_congr_right ?_
    rintro rfl
    constructor
    · intro h
      cases h with
      | width hrow' hwidth =>
        obtain rfl := Option.some.inj (hrow.symm.trans hrow')
        exact ⟨hwidth, rfl⟩
    · rintro ⟨hwidth, rfl⟩
      exact .width hrow hwidth
  · intro column target htarget
    exact begins_entryFaults hrow htarget
  · intro column q fault h
    cases h with
    | accepting hrow' htarget _ _ =>
      obtain rfl := Option.some.inj (hrow.symm.trans hrow')
      exact (List.getElem?_eq_some_iff.mp htarget).1
    | range hrow' htarget _ _ _ =>
      obtain rfl := Option.some.inj (hrow.symm.trans hrow')
      exact (List.getElem?_eq_some_iff.mp htarget).1

end

theorem begins_tableFaults : Begins (fun q => a.Fault (2 :: q))
    (a.transitions.zipIdx.flatMap fun (row, state) => a.rowFaults state row) := by
  refine Begins.parts ?_ ?_ ?_
  · intro fault h
    cases h
  · intro state row hrow
    exact begins_rowFaults hrow
  · intro state q fault h
    cases h with
    | width hrow _ => exact (List.getElem?_eq_some_iff.mp hrow).1
    | accepting hrow _ _ _ => exact (List.getElem?_eq_some_iff.mp hrow).1
    | range hrow _ _ _ _ => exact (List.getElem?_eq_some_iff.mp hrow).1

theorem begins_startRowFaults {row : List Int} (hrow : a.transitions[startState]? = some row) :
    Begins (fun q => a.Fault (3 :: q))
      (row.zipIdx.flatMap fun (target, column) => a.startFaults column target) := by
  refine Begins.parts ?_ ?_ ?_
  · intro fault h
    cases h
  · intro column target htarget
    refine Begins.leaf fun q fault => ?_
    rw [mem_startFaults_iff]
    constructor
    · intro h
      cases h with
      | start hrow' htarget' hcolumn hnonneg haccepts =>
        obtain rfl := Option.some.inj (hrow.symm.trans hrow')
        obtain rfl := Option.some.inj (htarget.symm.trans htarget')
        exact ⟨rfl, hcolumn, hnonneg, haccepts, rfl⟩
    · rintro ⟨rfl, hcolumn, hnonneg, haccepts, rfl⟩
      exact .start hrow htarget hcolumn hnonneg haccepts
  · intro column q fault h
    cases h with
    | start hrow' htarget _ _ _ =>
      obtain rfl := Option.some.inj (hrow.symm.trans hrow')
      exact (List.getElem?_eq_some_iff.mp htarget).1

/-- **The list of all faults begins with the first one.**  Without states, or with too many or too
few actions, it lists nothing else. -/
theorem begins_faults : Begins a.Fault a.faults := by
  unfold faults
  split
  · next hempty =>
    refine isFirst_of_singleton (.empty hempty) fun q other h => ?_
    cases h <;> exact ⟨_, _, rfl, Nat.zero_le _⟩
  next hne =>
  split
  · next hcount =>
    refine isFirst_of_singleton (.stateCount hcount) fun q other h => ?_
    cases h with
    | empty hempty => exact absurd hempty hne
    | _ => exact ⟨_, _, rfl, by decide⟩
  next hcount =>
  have hparts (fs gs : List AutomatonError) :
      fs ++ gs = [[], [], fs, gs].zipIdx.flatMap Prod.fst := by simp
  rw [hparts]
  refine Begins.parts ?_ ?_ ?_
  · intro fault h
    cases h
  · rintro (_ | _ | _ | _ | i) part hpart
    · obtain rfl := Option.some.inj hpart
      intro q fault h
      cases h with
      | empty hempty => exact hne hempty
    · obtain rfl := Option.some.inj hpart
      intro q fault h
      cases h with
      | stateCount hne' => exact hcount hne'
    · obtain rfl := Option.some.inj hpart
      exact begins_tableFaults
    · obtain rfl := Option.some.inj hpart
      exact begins_startRowFaults (headD_transitions hne)
    · cases hpart
  · intro i q fault h
    show i < 4
    cases h <;> decide

/-! ## the check from place to place -/

/-- A check ends well or with a fault; it has no answer once it has looked outside a list. -/
abbrev Check := ExceptT AutomatonError Option

def look {α : Type} (xs : List α) (i : Nat) : Check α :=
  ExceptT.lift xs[i]?

def demand (p : Prop) [Decidable p] (fault : AutomatonError) : Check Unit :=
  if p then pure () else throw fault

/-- an entry in the row of a state that ends a token, or of one that does not -/
def checkEntry (a : Automaton K) (state : Nat) (accepting : Bool) (column : Nat) (target : Int) :
    Check Unit :=
  if accepting then demand (target = noTransition) (.acceptingWithTransitions state)
  else
    demand (target = noTransition ∨ 0 ≤ target ∧ target.toNat < a.transitions.length)
      (.targetOutOfRange state column target)

def checkRow (a : Automaton K) (state : Nat) (row : List Int) : Check Unit := do
  demand (row.length = a.columns) (.rowWidth state row.length a.columns)
  let action ← look a.actions state
  row.zipIdx.forM fun (target, column) => a.checkEntry state action.isAccepting column target

def checkStart (a : Automaton K) (column : Nat) (target : Int) : Check Unit :=
  if column = a.classify none then pure ()
  else if target < 0 then pure ()
  else do
    let action ← look a.actions target.toNat
    demand (action.isAccepting = false) (.emptyAccept column)

/-- The tables from place to place, up to the first fault. -/
def check (a : Automaton K) : Check Unit := do
  demand (a.transitions ≠ []) .empty
  demand (a.transitions.length = a.actions.length)
    (.stateCountMismatch a.transitions.length a.actions.length)
  a.transitions.zipIdx.forM fun (row, state) => a.checkRow state row
  let row ← look a.transitions startState
  row.zipIdx.forM fun (target, column) => a.checkStart column target

/-- The check has an answer, and that is the first of these faults. -/
def Answers (x : Check Unit) (faults : List AutomatonError) : Prop :=
  x.run = some (match faults with | [] => .ok () | fault :: _ => .error fault)

theorem accepts_of_action {state : Nat} {action : Action K}
    (haction : a.actions[state]? = some action) : a.accepts state = action.isAccepting := by
  rw [accepts, haction]
  rfl

namespace Answers

variable {x y : Check Unit} {fs gs : List AutomatonError} {fault : AutomatonError}
  {p : Prop} [Decidable p]

theorem pure : Answers (Pure.pure ()) [] := rfl

theorem holds (h : p) : Answers (demand p fault) [] := by
  rw [demand, if_pos h]
  rfl

theorem fails (h : ¬ p) : Answers (demand p fault) [fault] := by
  rw [demand, if_neg h]
  rfl

theorem demand : Answers (demand p fault) (if p then [] else [fault]) := by
  split
  · next h => exact holds h
  · next h => exact fails h

/-- What comes behind matters where nothing has been found, and need have an answer only there. -/
theorem bind (hx : Answers x fs) (hy : fs = [] → Answers y gs) :
    Answers (x >>= fun _ => y) (fs ++ gs) := by
  show (x >>= fun _ => y).run = _
  rw [ExceptT.run_bind, hx]
  cases fs with
  | nil => exact hy rfl
  | cons fault fs => rfl

/-- nothing has been found -/
theorem next (hx : Answers x []) (hy : Answers y fs) : Answers (x >>= fun _ => y) fs :=
  hx.bind fun _ => hy

/-- something has -/
theorem stop (hx : Answers x [fault]) : Answers (x >>= fun _ => y) [fault] := by
  show (x >>= fun _ => y).run = _
  rw [ExceptT.run_bind, hx]
  rfl

theorem look {α : Type} {xs : List α} {i : Nat} {v : α} {k : α → Check Unit} (hv : xs[i]? = some v)
    (hk : Answers (k v) fs) : Answers (look xs i >>= k) fs := by
  show (Automaton.look xs i >>= k).run = _
  rw [ExceptT.run_bind, Automaton.look, hv]
  exact hk

theorem forM {α : Type} {xs : List α} {f : α → Check Unit} {g : α → List AutomatonError}
    (h : ∀ x ∈ xs, Answers (f x) (g x)) : Answers (xs.forM f) (xs.flatMap g) := by
  induction xs with
  | nil => exact pure
  | cons x xs ih =>
    rw [List.flatMap_cons]
    exact bind (h x List.mem_cons_self) fun _ => ih fun y hy => h y (List.mem_cons_of_mem x hy)

end Answers

theorem answers_checkEntry {state column : Nat} {target : Int} {action : Action K}
    (haction : a.actions[state]? = some action) :
    Answers (a.checkEntry state action.isAccepting column target)
      (a.entryFaults state column target) := by
  unfold checkEntry entryFaults
  rw [accepts_of_action haction]
  cases action.isAccepting with
  | true => exact Answers.demand
  | false =>
    rw [if_neg Bool.false_ne_true, if_neg Bool.false_ne_true]
    split
    · next hno => exact Answers.holds (Or.inl hno)
    · next hne =>
      split
      · next hrange => exact Answers.fails (by omega)
      · next hrange => exact Answers.holds (by omega)

theorem answers_checkRow {state : Nat} {row : List Int} (hstate : state < a.actions.length) :
    Answers (a.checkRow state row) (a.rowFaults state row) := by
  have haction := List.getElem?_eq_getElem hstate
  refine Answers.demand.bind fun _ => Answers.look haction ?_
  exact Answers.forM fun _ _ => answers_checkEntry haction

theorem answers_checkStart {column : Nat} {target : Int}
    (htarget : 0 ≤ target → target.toNat < a.actions.length) :
    Answers (a.checkStart column target) (a.startFaults column target) := by
  unfold checkStart startFaults
  split
  · exact Answers.pure
  split
  · next hneg =>
    rw [if_neg fun h => Int.not_lt.mpr h.1 hneg]
    exact Answers.pure
  · next hnonneg =>
    have hnonneg : 0 ≤ target := Int.not_lt.mp hnonneg
    have haction := List.getElem?_eq_getElem (htarget hnonneg)
    refine Answers.look haction ?_
    rw [accepts_of_action haction]
    split
    · next haccepts => exact Answers.fails (Bool.not_eq_false _ ▸ haccepts.2)
    · next hscans => exact Answers.holds (Bool.eq_false_iff.mpr fun h => hscans ⟨hnonneg, h⟩)

/-- **The check has an answer**, since it looks up what it has found to be there, and the answer is
the first of the listed faults. -/
theorem answers_check : Answers a.check a.faults := by
  unfold check faults
  split
  · next hempty => exact (Answers.fails (not_not_intro hempty)).stop
  next hne =>
  refine (Answers.holds hne).next ?_
  split
  · next hcount => exact (Answers.fails hcount).stop
  next hcount =>
  have hlength : a.transitions.length = a.actions.length := Decidable.not_not.mp hcount
  refine (Answers.holds hlength).next ?_
  have hstart := headD_transitions hne
  refine (Answers.forM ?_).bind fun hrows => Answers.look hstart (Answers.forM ?_)
  · rintro ⟨row, state⟩ hrow
    have hrow := List.mk_mem_zipIdx_iff_getElem?.mp hrow
    exact answers_checkRow (hlength ▸ (List.getElem?_eq_some_iff.mp hrow).1)
  · rintro ⟨target, column⟩ htarget
    have htarget := List.mk_mem_zipIdx_iff_getElem?.mp htarget
    have hrow := flatMap_zipIdx_eq_nil_iff.mp hrows startState _ hstart
    have hentry := (rowFaults_eq_nil_iff.mp hrow).2 column target htarget
    refine answers_checkStart fun hnonneg => ?_
    rcases entryFaults_eq_nil_iff.mp hentry with rfl | ⟨-, -, hlt⟩
    · exact absurd hnonneg (by decide)
    · exact hlength ▸ hlt

theorem entry_iff {state : Nat} {target : Int} :
    (target = noTransition ∨
      a.accepts state = false ∧ 0 ≤ target ∧ target.toNat < a.transitions.length) ↔
    if a.accepts state then target = noTransition
      else target = noTransition ∨ 0 ≤ target ∧ target.toNat < a.transitions.length := by
  cases a.accepts state <;> simp

theorem start_iff {column : Nat} {target : Int} :
    (column = a.classify none ∨ target < 0 ∨ a.accepts target.toNat = false) ↔
      (column ≠ a.classify none → 0 ≤ target → a.accepts target.toNat = false) := by
  rw [← Int.not_le, ← Decidable.imp_iff_not_or, Decidable.or_iff_not_imp_left]

/-- **The check of an automaton finds the first fault**, and never looks outside a list for it.
Its order is that of the states as a whole, the number of actions, the rows from top to bottom, each
with its width before its entries, and the columns of the start state.  It finds nothing exactly if
there is a state, every state has an action, every row has the right width, a state that ends a
token leads nowhere and any other only to states, and no token ends before its first byte. -/
theorem check_finds_first_fault (a : Automaton K) :
    a.check.run = some a.validate ∧
    (a.validate = .ok () ↔
      a.transitions ≠ [] ∧ a.transitions.length = a.actions.length ∧
      (∀ state row, a.transitions[state]? = some row → row.length = a.columns ∧
        ∀ target ∈ row, if a.accepts state then target = noTransition
          else target = noTransition ∨ 0 ≤ target ∧ target.toNat < a.transitions.length) ∧
      ∀ row column target, a.transitions[startState]? = some row → row[column]? = some target →
        column ≠ a.classify none → 0 ≤ target → a.accepts target.toNat = false) ∧
    ∀ fault, a.validate = .error fault ↔ IsFirst a.Fault fault := by
  refine ⟨answers_check, ?_, ?_⟩
  · rw [validate_eq_ok_iff, faults_eq_nil_iff]
    constructor
    · intro h
      refine ⟨h.states, h.actions, fun state row hrow => ?_, ?_⟩
      · refine ⟨h.width state row hrow, fun target htarget => ?_⟩
        obtain ⟨column, hcolumn⟩ := List.mem_iff_getElem?.mp htarget
        exact entry_iff.mp (h.entry state row column target hrow hcolumn)
      · intro row column target hrow htarget
        exact start_iff.mp (h.start row column target hrow htarget)
    · rintro ⟨hstates, hactions, hrows, hstart⟩
      refine ⟨hstates, hactions, fun state row hrow => (hrows state row hrow).1, ?_, ?_⟩
      · intro state row column target hrow htarget
        exact entry_iff.mpr ((hrows state row hrow).2 target (List.mem_of_getElem? htarget))
      · intro row column target hrow htarget
        exact start_iff.mpr (hstart row column target hrow htarget)
  · intro fault
    rw [validate_eq_error_iff]
    exact begins_faults.head?_eq_some_iff fun p fault other => Fault.unique

-- an entry of row 0 before the width of row 1, and both before what the start state must not do
example : Automaton.validate {
    columns := 2, transitions := [[1, 7], [0]], actions := [.scan, .accept ()]
    classify := fun look => look.elim 1 fun _ => 0 } = .error (.targetOutOfRange 0 1 7) := by
  rfl

end TemplateCheck.Automaton
