import TemplateCheck.Automaton

/-!
# Well-formed automata

The tables of an automaton can be checked before it is used.  `Automaton.faults` lists what is
wrong with them, in the order in which the checks are made, and `Automaton.validate` reports the
first fault.

The order is: no states at all; as many rows as actions; then row by row its width, and its
entries from left to right; last the row of the start state, which must not end a token on any
column but the one for the end of the input.
-/

namespace TemplateCheck

/-- What can be wrong with the tables of an automaton. -/
inductive AutomatonError where
  | stateCountMismatch (transitions actions : Nat)
  | rowWidth (state found expected : Nat)
  | targetOutOfRange (state column : Nat) (target : Int)
  | acceptingWithTransitions (state : Nat)
  | emptyAccept (column : Nat)
  | empty
  deriving DecidableEq, Repr

/-- the fault in words -/
def AutomatonError.message : AutomatonError → String
  | .stateCountMismatch transitions actions =>
    s!"transition table has {transitions} rows but action table has {actions}"
  | .rowWidth state found expected => s!"state {state} has {found} columns, expected {expected}"
  | .targetOutOfRange state column target =>
    s!"state {state}, column {column}: target {target} is out of range"
  | .acceptingWithTransitions state => s!"accepting state {state} has outgoing transitions"
  | .emptyAccept column => s!"start state accepts on column {column} without consuming input"
  | .empty => "automaton has no states"

namespace Automaton

variable {K : Type}

/-- the entry of a table that is no transition -/
def noTransition : Int := -1

/-- the state has an action, and that action ends a token -/
def accepts (a : Automaton K) (state : Nat) : Bool :=
  (a.actions[state]?).any Action.isAccepting

/-- the fault of one entry, if it has one -/
def entryFaults (a : Automaton K) (state column : Nat) (target : Int) : List AutomatonError :=
  if target = noTransition then []
  else if a.accepts state then [.acceptingWithTransitions state]
  else if target < 0 ∨ a.transitions.length ≤ target.toNat then
    [.targetOutOfRange state column target]
  else []

/-- the faults of one row, its width first -/
def rowFaults (a : Automaton K) (state : Nat) (row : List Int) : List AutomatonError :=
  (if row.length = a.columns then [] else [.rowWidth state row.length a.columns]) ++
    row.zipIdx.flatMap fun (target, column) => a.entryFaults state column target

/-- The fault of one entry of the start row: it ends a token of no bytes. -/
def startFaults (a : Automaton K) (column : Nat) (target : Int) : List AutomatonError :=
  if column = a.classify none then []
  else if 0 ≤ target ∧ a.accepts target.toNat then [.emptyAccept column]
  else []

/-- Everything that is wrong with the tables, in the order of the checks. -/
def faults (a : Automaton K) : List AutomatonError :=
  if a.transitions = [] then [.empty]
  else if a.transitions.length ≠ a.actions.length then
    [.stateCountMismatch a.transitions.length a.actions.length]
  else
    (a.transitions.zipIdx.flatMap fun (row, state) => a.rowFaults state row) ++
      (a.transitions.headD []).zipIdx.flatMap fun (target, column) => a.startFaults column target

/-- The tables are well formed, or the first fault. -/
def validate (a : Automaton K) : Except AutomatonError Unit :=
  match a.faults with
  | [] => .ok ()
  | fault :: _ => .error fault

theorem validate_eq_ok_iff (a : Automaton K) : a.validate = .ok () ↔ a.faults = [] := by
  unfold validate; split <;> simp [*]

theorem validate_eq_error_iff (a : Automaton K) (fault : AutomatonError) :
    a.validate = .error fault ↔ a.faults.head? = some fault := by
  unfold validate; split <;> simp [*]

end Automaton

end TemplateCheck
