import TemplateCheck.Lexer

/-!
# The token at the front of the bytes

What a lexer answers depends on the bytes that are left and, apart from line and column, on nothing
else.

* `Automaton.cut`             kind and length of the token at the front of some bytes
* `Lexer.next_eq_cut`         a lexer with bytes left answers with that token and goes on behind it
* `Lexer.tokenize_induction`  facts about a lexer, one token at a time
* `Lexer.length_tokenize_le`  there are at most as many tokens as bytes, and the closing one
-/

namespace TemplateCheck

variable {K : Type}

/-! ## a byte given back -/

namespace Cursor

theorem advanceBy_succ' (c : Cursor) (n : Nat) : c.advanceBy (n + 1) = (c.advanceBy n).advance := by
  induction n generalizing c with
  | zero => rfl
  | succ n ih => rw [advanceBy_succ, ih, ← advanceBy_succ]

theorem after_retreat_advance (c : Cursor) (h : c.after ≠ []) :
    c.advance.retreat.after = c.after := by
  cases hc : c.after with
  | nil => exact absurd hc h
  | cons b rest => simp [advance, retreat, hc]

/-- giving the last of `n + 1` bytes back leaves `n` bytes read -/
theorem after_retreat_advanceBy (c : Cursor) (n : Nat) (h : n < c.after.length) :
    (c.advanceBy (n + 1)).retreat.after = c.after.drop n := by
  have hne : (c.advanceBy n).after ≠ [] := by
    rw [after_advanceBy]
    intro hnil
    exact Nat.not_le.mpr h (List.drop_eq_nil_iff.mp hnil)
  rw [advanceBy_succ', after_retreat_advance _ hne, after_advanceBy]

end Cursor

/-! ## moves and runs -/

namespace Automaton
variable [TokenKind K] (a : Automaton K)

section
variable {a} {state read next : Nat} {look : Option UInt8} {kind : K}
  (hn : a.next? state (a.classify look) = some next)
include hn

theorem move_of_scan (ha : a.action next = .scan) : a.move state read look = .go next := by
  simp only [move, hn, ha]

theorem move_of_accept (ha : a.action next = .accept kind) (hr : read ≠ 0) :
    a.move state read look = .halt (.accept kind) := by
  simp only [move, hn, ha, if_neg hr]

theorem move_of_pushback (ha : a.action next = .acceptWithPushback kind) (hr : 2 ≤ read) :
    a.move state read look = .halt (.pushback kind) := by
  have hr' : ¬ read ≤ 1 := by omega
  simp only [move, hn, ha, if_neg hr']

end

theorem run_nil_halt {state read : Nat} {how : Halt K} (h : a.move state read none = .halt how) :
    a.run state read [] = (read, how) := by
  simp only [run, h]

/-- Bytes that leave the automaton in its state are read one after the other. -/
theorem run_loop {state : Nat} {xs rest : List UInt8}
    (h : ∀ b ∈ xs, ∀ read, a.move state read (some b) = .go state) (read : Nat) :
    a.run state read (xs ++ rest) = a.run state (read + xs.length) rest := by
  induction xs generalizing read with
  | nil => rfl
  | cons b xs ih =>
    rw [List.cons_append, run_cons_go a (h b List.mem_cons_self read),
      ih (fun b' hb' => h b' (List.mem_cons_of_mem b hb')), List.length_cons, Nat.add_assoc,
      Nat.add_comm 1]

/-! ## cuts -/

/-- Kind and length of the token at the front of the bytes. -/
def cut (bs : List UInt8) : K × Nat :=
  match a.run startState 0 bs with
  | (n, .accept kind) => (kind, n)
  | (n, .pushback kind) => (kind, n - 1)
  | (n, .stuck) => (TokenKind.unrecognized, max n 1)

theorem cut_of_accept {bs : List UInt8} {n : Nat} {kind : K}
    (h : a.run startState 0 bs = (n, .accept kind)) : a.cut bs = (kind, n) := by
  simp [cut, h]

/-- the last byte read is not part of the token -/
theorem cut_of_pushback {bs : List UInt8} {n : Nat} {kind : K}
    (h : a.run startState 0 bs = (n + 1, .pushback kind)) : a.cut bs = (kind, n) := by
  simp [cut, h]

theorem cut_of_stuck {bs : List UInt8} {n : Nat} (h : a.run startState 0 bs = (n, .stuck)) :
    a.cut bs = (TokenKind.unrecognized, max n 1) := by
  simp [cut, h]

/-- A token is the bytes that were read, or those before the last of them. -/
theorem cut_snd (bs : List UInt8) :
    (a.cut bs).2 = max (a.run startState 0 bs).1 1 ∨
      1 ≤ (a.cut bs).2 ∧ (a.run startState 0 bs).1 = (a.cut bs).2 + 1 := by
  generalize hrun : a.run startState 0 bs = found
  obtain ⟨n, how⟩ := found
  cases how with
  | accept kind =>
    have h1 := one_le_run_of_accept a (congrArg Prod.snd hrun)
    rw [hrun] at h1
    rw [cut_of_accept a hrun]
    exact Or.inl (Nat.max_eq_left h1).symm
  | pushback kind =>
    have h2 := two_le_run_of_pushback a (congrArg Prod.snd hrun)
    rw [hrun] at h2
    obtain ⟨m, rfl⟩ : ∃ m, n = m + 1 := ⟨n - 1, by simp only at h2; omega⟩
    rw [cut_of_pushback a hrun]
    exact Or.inr ⟨Nat.le_of_succ_le_succ h2, rfl⟩
  | stuck =>
    rw [cut_of_stuck a hrun]
    exact Or.inl rfl

/-- a token has at least one byte -/
theorem one_le_cut (bs : List UInt8) : 1 ≤ (a.cut bs).2 := by
  rcases cut_snd a bs with hread | ⟨hpos, -⟩
  · rw [hread]
    exact Nat.le_max_right _ 1
  · exact hpos

/-- at most one of the bytes read is not part of the token -/
theorem run_le_cut (bs : List UInt8) : (a.run startState 0 bs).1 ≤ (a.cut bs).2 + 1 := by
  have hread := cut_snd a bs
  omega

/-- a token lies within the bytes -/
theorem cut_le {bs : List UInt8} (h : bs ≠ []) : (a.cut bs).2 ≤ bs.length := by
  have hread := cut_snd a bs
  have hle := run_le a startState 0 bs
  have hpos : 1 ≤ bs.length := List.length_pos_iff.mpr h
  omega

end Automaton

/-! ## the next token -/

namespace Lexer

theorem atEnd_of_rest_ne_nil {l : Lexer K} (h : l.rest ≠ []) : l.cursor.atEnd = false := by
  simpa [Cursor.atEnd, rest] using h

section
variable [TokenKind K] {l : Lexer K} (h : l.rest = [])
include h

theorem kind_next_of_rest_eq_nil : l.next.1.kind = TokenKind.endOfInput := by
  rw [next_of_rest_eq_nil l h]
  rfl

theorem next_snd_of_rest_eq_nil : l.next.2 = l := by
  rw [next_of_rest_eq_nil l h]

end

variable [TokenKind K] (l : Lexer K)

/-- A lexer with bytes left answers with the token at their front and goes on behind it. -/
theorem next_eq_cut (h : l.rest ≠ []) :
    l.next.1 = l.tokenOf (l.automaton.cut l.rest).1 (l.automaton.cut l.rest).2 ∧
      l.next.2.rest = l.rest.drop (l.automaton.cut l.rest).2 := by
  have hle := Automaton.run_le l.automaton Automaton.startState 0 l.rest
  rw [next, atEnd_of_rest_ne_nil h]
  simp only [Bool.false_eq_true, if_false]
  generalize hrun : l.automaton.run Automaton.startState 0 l.rest = found at hle
  obtain ⟨n, how⟩ := found
  cases how with
  | accept kind =>
    rw [Automaton.cut_of_accept _ hrun]
    exact ⟨rfl, Cursor.after_advanceBy _ _⟩
  | pushback kind =>
    have h2 := Automaton.two_le_run_of_pushback l.automaton (congrArg Prod.snd hrun)
    rw [hrun] at h2
    obtain ⟨m, rfl⟩ : ∃ m, n = m + 1 := ⟨n - 1, by simp only at h2; omega⟩
    have hm : m < l.cursor.after.length := by simp only [rest] at hle; omega
    rw [Automaton.cut_of_pushback _ hrun]
    exact ⟨rfl, Cursor.after_retreat_advanceBy _ _ hm⟩
  | stuck =>
    rw [Automaton.cut_of_stuck _ hrun]
    exact ⟨rfl, Cursor.after_advanceBy _ _⟩

@[simp] theorem automaton_next : l.next.2.automaton = l.automaton := by
  unfold next
  split
  · rfl
  · split <;> rfl

/-! ## all tokens -/

variable [DecidableEq K]

/-- Facts about a lexer, one token at a time. -/
theorem tokenize_induction {motive : Lexer K → Prop}
    (last : ∀ l, l.next.1.isEndOfInput = true → motive l)
    (more : ∀ l, ¬ l.next.1.isEndOfInput = true → motive l.next.2 → motive l) (l : Lexer K) :
    motive l := by
  by_cases h : l.next.1.isEndOfInput = true
  · exact last l h
  · have hlt := length_rest_next_lt l (rest_ne_nil_of_next l h)
    exact more l h (tokenize_induction last more l.next.2)
termination_by l.rest.length

theorem tokenize_of_isEndOfInput {l : Lexer K} (h : l.next.1.isEndOfInput = true) :
    l.tokenize = [l.next.1] := by
  rw [tokenize_eq, if_pos h]

theorem tokenize_of_not_isEndOfInput {l : Lexer K} (h : ¬ l.next.1.isEndOfInput = true) :
    l.tokenize = l.next.1 :: l.next.2.tokenize := by
  rw [tokenize_eq, if_neg h]

theorem tokenize_ne_nil : l.tokenize ≠ [] := by
  by_cases h : l.next.1.isEndOfInput = true
  · rw [tokenize_of_isEndOfInput h]
    exact List.cons_ne_nil _ _
  · rw [tokenize_of_not_isEndOfInput h]
    exact List.cons_ne_nil _ _

theorem next_of_tokenize_singleton {l : Lexer K} {last : Token K} (h : l.tokenize = [last]) :
    l.next.1 = last ∧ last.isEndOfInput = true := by
  by_cases hend : l.next.1.isEndOfInput = true
  · rw [tokenize_of_isEndOfInput hend] at h
    obtain rfl := (List.cons.inj h).1
    exact ⟨rfl, hend⟩
  · rw [tokenize_of_not_isEndOfInput hend] at h
    exact absurd (List.cons.inj h).2 (tokenize_ne_nil _)

theorem next_of_tokenize_cons {l : Lexer K} {t last : Token K} {ts : List (Token K)}
    (h : l.tokenize = t :: (ts ++ [last])) :
    l.next.1 = t ∧ ¬ t.isEndOfInput = true ∧ l.next.2.tokenize = ts ++ [last] := by
  by_cases hend : l.next.1.isEndOfInput = true
  · rw [tokenize_of_isEndOfInput hend] at h
    exact absurd (List.cons.inj h).2.symm (List.append_ne_nil_of_right_ne_nil ts (by simp))
  · rw [tokenize_of_not_isEndOfInput hend] at h
    obtain ⟨rfl, hrest⟩ := List.cons.inj h
    exact ⟨rfl, hend, hrest⟩

/-- the last token closes the sequence, and no other one does -/
theorem isEndOfInput_of_tokenize {l : Lexer K} {ts : List (Token K)} {last : Token K}
    (h : l.tokenize = ts ++ [last]) :
    last.isEndOfInput = true ∧ ∀ t ∈ ts, ¬ t.isEndOfInput = true := by
  induction ts generalizing l with
  | nil => exact ⟨(next_of_tokenize_singleton h).2, fun t ht => absurd ht List.not_mem_nil⟩
  | cons t ts ih =>
    obtain ⟨-, ht, hrest⟩ := next_of_tokenize_cons h
    obtain ⟨hlast, hts⟩ := ih hrest
    exact ⟨hlast, List.forall_mem_cons.mpr ⟨ht, hts⟩⟩

/-- the tokens of as many calls as it takes to close the sequence are all tokens -/
theorem tokenize_of_take {l : Lexer K} {ts : List (Token K)} {last : Token K}
    (h : (l.take (ts.length + 1)).1 = ts ++ [last]) (hlast : last.isEndOfInput = true)
    (hts : ∀ t ∈ ts, ¬ t.isEndOfInput = true) : l.tokenize = ts ++ [last] := by
  induction ts generalizing l with
  | nil =>
    rw [List.length_nil, take_succ, List.nil_append, List.cons.injEq] at h
    obtain ⟨rfl, -⟩ := h
    exact tokenize_of_isEndOfInput hlast
  | cons t ts ih =>
    rw [List.length_cons, take_succ, List.cons_append, List.cons.injEq] at h
    obtain ⟨rfl, hrest⟩ := h
    obtain ⟨ht, hts⟩ := List.forall_mem_cons.mp hts
    rw [tokenize_of_not_isEndOfInput ht, ih hrest hts]
    rfl

/-- every token but the closing one takes a byte -/
theorem length_tokenize_le : l.tokenize.length ≤ l.rest.length + 1 := by
  induction l using tokenize_induction with
  | last l h =>
    rw [tokenize_of_isEndOfInput h, List.length_singleton]
    exact Nat.le_add_left 1 _
  | more l h ih =>
    have hlt := length_rest_next_lt l (rest_ne_nil_of_next l h)
    rw [tokenize_of_not_isEndOfInput h, List.length_cons]
    omega

end Lexer

end TemplateCheck
