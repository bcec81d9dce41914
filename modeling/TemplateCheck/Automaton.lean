import TemplateCheck.Token

/-!
# Automata over classified bytes

An automaton cuts one token off the front of a byte sequence.  A classifier folds the next byte,
or the end of the input, onto a column; a table of rows, one per state, names the next state; and
an action is attached to every state.  Nothing is asked of the tables: a missing row, column or
action has a meaning too, so that every automaton can be run on every input.

* `Action`           what a state stands for
* `Automaton.next?`, `Automaton.action`   table look-ups
* `Automaton.move`   one look at the next byte
* `Automaton.run`    moves until the automaton halts, with the number of bytes it read
-/

namespace TemplateCheck

inductive Action (K : Type) where
  /-- read the byte and go on -/
  | scan
  /-- a token of this kind ends before the byte that led here -/
  | accept (kind : K)
  /-- a token of this kind ended one byte earlier still -/
  | acceptWithPushback (kind : K)
  deriving DecidableEq, Repr

/-- a state with this action ends a token -/
def Action.isAccepting {K : Type} : Action K → Bool
  | .scan => false
  | .accept _ => true
  | .acceptWithPushback _ => true

/-- Tables of an automaton.  State 0 is the start. -/
structure Automaton (K : Type) where
  /-- number of columns, the one for the end of input included -/
  columns : Nat
  /-- for every state a row of next states; a negative entry is no state -/
  transitions : List (List Int)
  /-- for every state its action -/
  actions : List (Action K)
  /-- the column of a byte, or of the end of the input -/
  classify : Option UInt8 → Nat

/-- How a run ends. -/
inductive Halt (K : Type) where
  /-- the bytes read are a token -/
  | accept (kind : K)
  /-- the bytes read without the last one are a token -/
  | pushback (kind : K)
  /-- no token was found -/
  | stuck
  deriving DecidableEq, Repr

/-- The outcome of one look at the next byte. -/
inductive Move (K : Type) where
  /-- the byte belongs to the token -/
  | go (state : Nat)
  | halt (how : Halt K)
  deriving DecidableEq, Repr

namespace Automaton

variable {K : Type}

/-- the state a run begins in -/
def startState : Nat := 0

/-- The state after `state` on a column.  A cell outside the table is as good as a negative
one. -/
def next? (a : Automaton K) (state column : Nat) : Option Nat :=
  match a.transitions[state]? with
  | none => none
  | some row =>
    match row[column]? with
    | none => none
    | some target => if target < 0 then none else some target.toNat

/-- The action of a state; a state without one ends unrecognized input. -/
def action [TokenKind K] (a : Automaton K) (state : Nat) : Action K :=
  (a.actions[state]?).getD (.accept TokenKind.unrecognized)

/-- One look at the next byte, after `read` bytes of the token.  A token must not be empty, so an
accepting state that would make it so is no way out. -/
def move [TokenKind K] (a : Automaton K) (state read : Nat) (look : Option UInt8) : Move K :=
  match a.next? state (a.classify look) with
  | none => .halt .stuck
  | some next =>
    match a.action next with
    | .scan => .go next
    | .accept kind => .halt (if read = 0 then .stuck else .accept kind)
    | .acceptWithPushback kind => .halt (if read ≤ 1 then .stuck else .pushback kind)

/-- Runs from `state` over the bytes still to come, `read` bytes of the token being read, and
gives the number of bytes read in the end.  Where the input is over, an automaton that wants to
read on is stuck. -/
def run [TokenKind K] (a : Automaton K) (state read : Nat) : List UInt8 → Nat × Halt K
  | [] =>
    match a.move state read none with
    | .go _ => (read, .stuck)
    | .halt how => (read, how)
  | b :: bs =>
    match a.move state read (some b) with
    | .go next => a.run next (read + 1) bs
    | .halt how => (read, how)

section
variable [TokenKind K] (a : Automaton K)

/-- A look that ends a run finds no state, or one that ends a token; that token may be too short. -/
theorem move_eq_halt {state read : Nat} {look : Option UInt8} {how : Halt K}
    (h : a.move state read look = .halt how) :
    a.next? state (a.classify look) = none ∧ how = .stuck ∨
      ∃ next kind, a.next? state (a.classify look) = some next ∧
        (a.action next = .accept kind ∧
            (how = .accept kind ∧ 1 ≤ read ∨ how = .stuck ∧ read = 0) ∨
          a.action next = .acceptWithPushback kind ∧
            (how = .pushback kind ∧ 2 ≤ read ∨ how = .stuck ∧ read ≤ 1)) := by
  unfold move at h
  split at h
  · next hnext => exact Or.inl ⟨hnext, (Move.halt.inj h).symm⟩
  · next target hnext =>
    split at h
    · cases h
    · next kind haction =>
      refine Or.inr ⟨target, kind, hnext, Or.inl ⟨haction, ?_⟩⟩
      split at h
      · next hread => exact Or.inr ⟨(Move.halt.inj h).symm, hread⟩
      · next hread => exact Or.inl ⟨(Move.halt.inj h).symm, Nat.pos_of_ne_zero hread⟩
    · next kind haction =>
      refine Or.inr ⟨target, kind, hnext, Or.inr ⟨haction, ?_⟩⟩
      split at h
      · next hread => exact Or.inr ⟨(Move.halt.inj h).symm, hread⟩
      · next hread => exact Or.inl ⟨(Move.halt.inj h).symm, Nat.not_le.mp hread⟩

theorem move_eq_accept {state read : Nat} {look : Option UInt8} {kind : K}
    (h : a.move state read look = .halt (.accept kind)) : 1 ≤ read := by
  rcases a.move_eq_halt h with ⟨-, hhow⟩ | ⟨next, kind', -, ⟨-, hhow⟩ | ⟨-, hhow⟩⟩
  · cases hhow
  · rcases hhow with ⟨-, hread⟩ | ⟨hhow, -⟩
    · exact hread
    · cases hhow
  · rcases hhow with ⟨hhow, -⟩ | ⟨hhow, -⟩ <;> cases hhow

theorem move_eq_pushback {state read : Nat} {look : Option UInt8} {kind : K}
    (h : a.move state read look = .halt (.pushback kind)) : 2 ≤ read := by
  rcases a.move_eq_halt h with ⟨-, hhow⟩ | ⟨next, kind', -, ⟨-, hhow⟩ | ⟨-, hhow⟩⟩
  · cases hhow
  · rcases hhow with ⟨hhow, -⟩ | ⟨hhow, -⟩ <;> cases hhow
  · rcases hhow with ⟨-, hread⟩ | ⟨hhow, -⟩
    · exact hread
    · cases hhow

theorem run_cons_go {state read next : Nat} {b : UInt8} {bs : List UInt8}
    (h : a.move state read (some b) = .go next) :
    a.run state read (b :: bs) = a.run next (read + 1) bs := by
  simp [run, h]

theorem run_cons_halt {state read : Nat} {how : Halt K} {b : UInt8} {bs : List UInt8}
    (h : a.move state read (some b) = .halt how) :
    a.run state read (b :: bs) = (read, how) := by
  simp [run, h]

/-- a run reads forward -/
theorem le_run (state read : Nat) (bs : List UInt8) : read ≤ (a.run state read bs).1 := by
  induction bs generalizing state read with
  | nil => unfold run; split <;> simp
  | cons b bs ih =>
    unfold run
    split
    · exact Nat.le_trans (Nat.le_succ read) (ih _ _)
    · simp

/-- a run stays within the input -/
theorem run_le (state read : Nat) (bs : List UInt8) :
    (a.run state read bs).1 ≤ read + bs.length := by
  induction bs generalizing state read with
  | nil => unfold run; split <;> simp
  | cons b bs ih =>
    unfold run
    split
    · refine Nat.le_trans (ih _ _) ?_
      simp only [List.length_cons]
      omega
    · simp

/-- a run that finds a token finds it in one look -/
theorem exists_move_of_run {state read : Nat} {bs : List UInt8}
    (h : (a.run state read bs).2 ≠ .stuck) :
    ∃ last look, a.move last (a.run state read bs).1 look = .halt (a.run state read bs).2 := by
  induction bs generalizing state read with
  | nil =>
    cases hm : a.move state read none with
    | go next =>
      simp only [run, hm] at h
      exact absurd rfl h
    | halt how =>
      simp only [run, hm]
      exact ⟨state, none, hm⟩
  | cons b bs ih =>
    cases hm : a.move state read (some b) with
    | go next =>
      rw [run_cons_go a hm] at h ⊢
      exact ih h
    | halt how =>
      rw [run_cons_halt a hm]
      exact ⟨state, some b, hm⟩

/-- an accepted token has at least one byte -/
theorem one_le_run_of_accept {state read : Nat} {bs : List UInt8} {kind : K}
    (h : (a.run state read bs).2 = .accept kind) : 1 ≤ (a.run state read bs).1 := by
  have hne : (a.run state read bs).2 ≠ .stuck := by simp [h]
  obtain ⟨last, look, hmove⟩ := a.exists_move_of_run hne
  rw [h] at hmove
  exact a.move_eq_accept hmove

/-- a token that gives a byte back was at least two bytes long -/
theorem two_le_run_of_pushback {state read : Nat} {bs : List UInt8} {kind : K}
    (h : (a.run state read bs).2 = .pushback kind) : 2 ≤ (a.run state read bs).1 := by
  have hne : (a.run state read bs).2 ≠ .stuck := by simp [h]
  obtain ⟨last, look, hmove⟩ := a.exists_move_of_run hne
  rw [h] at hmove
  exact a.move_eq_pushback hmove

end

end Automaton

end TemplateCheck
