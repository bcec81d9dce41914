import TemplateCheck.Parser.Machine
import TemplateCheck.Proofs.Lexer.Cut

/-!
# The machine between two tokens and before one

* `Config.Idle c k stack l ts es`  no token is in hand and those of `l` are still to come; the last
                      one taken was of kind `k`, and so far `ts` were met and `es` were reported
* `Config.Ready c stack l ts es`  the same, and the last token taken did not close the input
* `Config.Holds c stack l ts es`  the first token of `l` is in hand, those after it are to come
* `Config.Awaits c stack l ts es`  the tokens of `l` are still to be met or refused, whether or not
                      the first of them is in hand
* `Awaits.expand`     a right-hand side is put on the stack, and the next token is in hand
* `Awaits.skip`       no right-hand side begins with the next token, which is dropped
* `Awaits.meet`       the next token is the terminal on top
* `Awaits.refuse`     it is another one, and the token after it is in hand at once
* `Rounds g c c'`     one of these four comes of a round
* `run_induction`     what every round keeps holds at the end of a run
* `Ready.take`        the next token is met in two rounds
* `Holds.drain`       where only the end of the input fits, every token before it is refused
-/

namespace TemplateCheck.Parser.Config

variable {K : Type} [TokenKind K]

/-! ## what a trace says after one more event -/

section
variable (c : Config K)

@[simp] theorem refusals_pull : c.pull.2.refusals = c.refusals := by
  simp [refusals, pull]

@[simp] theorem met_pull : c.pull.2.met = c.met := by
  simp [met, pull]

omit [TokenKind K] in
@[simp] theorem refusals_replace (n : Nat) (t : Token K) (rhs : List (Symbol K)) :
    (c.replace n t rhs).refusals = c.refusals := by
  simp [refusals, replace]

omit [TokenKind K] in
@[simp] theorem met_replace (n : Nat) (t : Token K) (rhs : List (Symbol K)) :
    (c.replace n t rhs).met = c.met := by
  simp [met, replace]

omit [TokenKind K] in
@[simp] theorem refusals_accept (t : Token K) : (c.accept t).refusals = c.refusals := by
  simp [refusals, accept]

omit [TokenKind K] in
@[simp] theorem met_accept (t : Token K) : (c.accept t).met = c.met ++ [t] := by
  simp [met, accept]

omit [TokenKind K] in
@[simp] theorem refusals_refuse (e : ParseError K) : (c.refuse e).refusals = c.refusals ++ [e] := by
  simp [refusals, refuse]

omit [TokenKind K] in
@[simp] theorem met_refuse (e : ParseError K) : (c.refuse e).met = c.met := by
  simp [met, refuse]

@[simp] theorem refusals_skip : c.skip.refusals = c.refusals :=
  refusals_pull c

@[simp] theorem met_skip : c.skip.met = c.met :=
  met_pull c

@[simp] theorem stack_fetch : c.fetch.2.stack = c.stack := by
  unfold fetch; split <;> rfl

@[simp] theorem look_fetch : c.fetch.2.look = none := by
  unfold fetch; split
  · rfl
  · assumption

@[simp] theorem failed_fetch : c.fetch.2.failed = c.failed := by
  unfold fetch; split <;> rfl

@[simp] theorem refusals_fetch : c.fetch.2.refusals = c.refusals := by
  unfold fetch; split
  · rfl
  · exact refusals_pull c

@[simp] theorem met_fetch : c.fetch.2.met = c.met := by
  unfold fetch; split
  · rfl
  · exact met_pull c

end

/-! ## states of the machine -/

structure Idle (c : Config K) (k : Option K) (stack : List (Symbol K)) (l : Lexer K)
    (ts : List (Token K)) (es : List (ParseError K)) : Prop where
  items : c.stack.items = stack
  lexer : c.lexer = l
  look : c.look = none
  lastKind : c.lastKind = k
  failed : c.failed = !es.isEmpty
  met : c.met = ts
  refusals : c.refusals = es

/-- No token is in hand, and the last one taken did not close the input. -/
structure Ready (c : Config K) (stack : List (Symbol K)) (l : Lexer K) (ts : List (Token K))
    (es : List (ParseError K)) : Prop extends Idle c c.lastKind stack l ts es where
  notLast : c.lastKind ≠ some TokenKind.endOfInput

structure Holds (c : Config K) (stack : List (Symbol K)) (l : Lexer K) (ts : List (Token K))
    (es : List (ParseError K)) : Prop where
  items : c.stack.items = stack
  lexer : c.lexer = l.next.2
  look : c.look = some l.next.1
  lastKind : c.lastKind = some l.next.1.kind
  failed : c.failed = !es.isEmpty
  met : c.met = ts
  refusals : c.refusals = es

/-- The tokens of `l` are still to be met, and the first of them may be in hand already. -/
structure Awaits (c : Config K) (stack : List (Symbol K)) (l : Lexer K) (ts : List (Token K))
    (es : List (ParseError K)) : Prop where
  items : c.stack.items = stack
  token : c.fetch.1 = l.next.1
  lexer : c.fetch.2.lexer = l.next.2
  lastKind : c.fetch.2.lastKind = some l.next.1.kind
  failed : c.failed = !es.isEmpty
  met : c.met = ts
  refusals : c.refusals = es

theorem idle_start (g : Grammar K) (l : Lexer K) :
    (start g l).Idle none [.nonterminal g.start, .terminal TokenKind.endOfInput] l [] [] :=
  ⟨rfl, rfl, rfl, rfl, rfl, rfl, rfl⟩

section
variable {c : Config K} {k : Option K} {stack : List (Symbol K)} {l : Lexer K}
  {ts : List (Token K)} {es : List (ParseError K)}

theorem Idle.ready (h : c.Idle k stack l ts es) (hk : k ≠ some TokenKind.endOfInput) :
    c.Ready stack l ts es := by
  obtain rfl := h.lastKind
  exact ⟨h, hk⟩

theorem Idle.awaits (h : c.Idle k stack l ts es) : c.Awaits stack l ts es := by
  obtain ⟨hs, rfl, hl, -, hfail, hm, hr⟩ := h
  have hf := fetch_of_look_eq_none hl
  exact ⟨hs, by rw [hf]; rfl, by rw [hf]; rfl, by rw [hf]; rfl, hfail, hm, hr⟩

theorem Holds.awaits (h : c.Holds stack l ts es) : c.Awaits stack l ts es := by
  have hf := fetch_of_look h.look
  exact ⟨h.items, by rw [hf], by rw [hf]; exact h.lexer, by rw [hf]; exact h.lastKind, h.failed,
    h.met, h.refusals⟩

end

theorem ready_start (g : Grammar K) (l : Lexer K) :
    (start g l).Ready [.nonterminal g.start, .terminal TokenKind.endOfInput] l [] [] :=
  (idle_start g l).ready nofun

omit [TokenKind K] in
theorem top?_of_items {c : Config K} {s : Symbol K} {stack : List (Symbol K)}
    (hs : c.stack.items = s :: stack) : c.stack.top? = some s := by
  rw [Stack.top?, hs]
  rfl

omit [TokenKind K] in
theorem isEmpty_of_items {c : Config K} {s : Symbol K} {stack : List (Symbol K)}
    (hs : c.stack.items = s :: stack) : c.stack.isEmpty = false := by
  rw [Stack.isEmpty, hs]
  rfl

variable [DecidableEq K] {g : Grammar K} {c : Config K} {l : Lexer K} {ts : List (Token K)}
  {es : List (ParseError K)}

theorem done_of_items_eq_nil (h : c.stack.items = []) : c.done = true := by
  rw [Config.done, Stack.isEmpty, h]
  rfl

theorem Ready.done {s : Symbol K} {stack : List (Symbol K)} (h : c.Ready (s :: stack) l ts es) :
    c.done = false := by
  rw [Config.done, isEmpty_of_items h.items, decide_eq_false h.notLast, Bool.and_false]
  rfl

/-- Holding the end of the input the machine goes on only if nothing was refused. -/
theorem Holds.done {s : Symbol K} {stack : List (Symbol K)} (h : c.Holds (s :: stack) l ts es) :
    c.done = (!es.isEmpty && l.next.1.isEndOfInput) := by
  have hk : (c.lastKind = some TokenKind.endOfInput) ↔ l.next.1.kind = TokenKind.endOfInput := by
    rw [h.lastKind]
    exact Option.some_inj
  rw [Config.done, isEmpty_of_items h.items, h.failed, Bool.false_or, Token.isEndOfInput]
  congr 1
  exact decide_eq_decide.mpr hk

/-- As long as nothing was refused, the machine goes on. -/
theorem Awaits.done {s : Symbol K} {stack : List (Symbol K)} (h : c.Awaits (s :: stack) l ts []) :
    c.done = false := by
  rw [Config.done, isEmpty_of_items h.items, h.failed]
  rfl

/-! ## rounds -/

/-- **A right-hand side** comes in place of the nonterminal on top. -/
theorem Awaits.expand {n : Nat} {below rhs : List (Symbol K)}
    (h : c.Awaits (.nonterminal n :: below) l ts es)
    (hp : g.productionFor? n l.next.1.kind = some rhs) :
    (c.round g).Holds (rhs ++ below) l ts es := by
  have hp' : g.productionFor? n c.fetch.1.kind = some rhs := by rw [h.token]; exact hp
  rw [round_nonterminal (top?_of_items h.items), expand_of_some hp']
  refine ⟨?_, h.lexer, ?_, h.lastKind, ?_, ?_, ?_⟩
  · rw [items_replace, stack_fetch, h.items, List.tail_cons]
  · show some c.fetch.1 = _
    rw [h.token]
  · show c.fetch.2.failed = _
    rw [failed_fetch, h.failed]
  · rw [met_replace, met_fetch, h.met]
  · rw [refusals_replace, refusals_fetch, h.refusals]

/-- **No right-hand side** begins with the token, and it is dropped. -/
theorem Awaits.skip {n : Nat} {below : List (Symbol K)}
    (h : c.Awaits (.nonterminal n :: below) l ts es)
    (hp : g.productionFor? n l.next.1.kind = none) :
    (c.round g).Idle (some l.next.1.kind) (.nonterminal n :: below) l.next.2 ts
      (es ++ [.noProduction l.next.1]) := by
  have hp' : g.productionFor? n c.fetch.1.kind = none := by rw [h.token]; exact hp
  rw [round_nonterminal (top?_of_items h.items), expand_of_none hp']
  refine ⟨?_, h.lexer, look_fetch c, h.lastKind, ?_, ?_, ?_⟩
  · show c.fetch.2.stack.items = _
    rw [stack_fetch, h.items]
  · show true = !(es ++ [_]).isEmpty
    cases es <;> rfl
  · rw [met_refuse, met_fetch, h.met]
  · rw [refusals_refuse, refusals_fetch, h.refusals, h.token]

/-- **The token is the terminal on top**, which is taken away. -/
theorem Awaits.meet {kind : K} {below : List (Symbol K)}
    (h : c.Awaits (.terminal kind :: below) l ts es) (hk : l.next.1.kind = kind) :
    (c.round g).Idle (some kind) below l.next.2 (ts ++ [l.next.1]) es := by
  have hk' : c.fetch.1.kind = kind := by rw [h.token]; exact hk
  rw [round_terminal (top?_of_items h.items), meet_of_eq hk']
  refine ⟨?_, h.lexer, look_fetch c, hk ▸ h.lastKind, ?_, ?_, ?_⟩
  · rw [items_accept, stack_fetch, h.items, List.tail_cons]
  · show c.fetch.2.failed = _
    rw [failed_fetch, h.failed]
  · rw [met_accept, met_fetch, h.met, h.token]
  · rw [refusals_accept, refusals_fetch, h.refusals]

/-- **The token is another one** than the terminal on top, and the token after it is in hand. -/
theorem Awaits.refuse {kind : K} {below : List (Symbol K)}
    (h : c.Awaits (.terminal kind :: below) l ts es) (hk : l.next.1.kind ≠ kind) :
    (c.round g).Holds (.terminal kind :: below) l.next.2 ts
      (es ++ [.unexpected l.next.1 kind]) := by
  have hk' : c.fetch.1.kind ≠ kind := by rw [h.token]; exact hk
  rw [round_terminal (top?_of_items h.items), meet_of_ne hk']
  refine ⟨?_, ?_, ?_, ?_, ?_, ?_, ?_⟩
  · show c.fetch.2.stack.items = _
    rw [stack_fetch, h.items]
  · show c.fetch.2.lexer.next.2 = _
    rw [h.lexer]
  · show some c.fetch.2.lexer.next.1 = _
    rw [h.lexer]
  · show some c.fetch.2.lexer.next.1.kind = _
    rw [h.lexer]
  · show true = !(es ++ [_]).isEmpty
    cases es <;> rfl
  · rw [met_skip, met_refuse, met_fetch, h.met]
  · rw [refusals_skip, refusals_refuse, refusals_fetch, h.refusals, h.token]

theorem Ready.expand {n : Nat} {below rhs : List (Symbol K)}
    (h : c.Ready (.nonterminal n :: below) l ts es)
    (hp : g.productionFor? n l.next.1.kind = some rhs) :
    (c.round g).Holds (rhs ++ below) l ts es :=
  h.toIdle.awaits.expand hp

theorem Ready.skip {n : Nat} {below : List (Symbol K)}
    (h : c.Ready (.nonterminal n :: below) l ts es)
    (hp : g.productionFor? n l.next.1.kind = none)
    (hk : l.next.1.kind ≠ TokenKind.endOfInput) :
    (c.round g).Ready (.nonterminal n :: below) l.next.2 ts (es ++ [.noProduction l.next.1]) :=
  (h.toIdle.awaits.skip hp).ready fun he => hk (Option.some.inj he)

theorem Holds.meet {kind : K} {below : List (Symbol K)}
    (h : c.Holds (.terminal kind :: below) l ts es) (hk : l.next.1.kind = kind)
    (hend : kind ≠ TokenKind.endOfInput) :
    (c.round g).Ready below l.next.2 (ts ++ [l.next.1]) es :=
  (h.awaits.meet hk).ready fun he => hend (Option.some.inj he)

theorem Holds.refuse {kind : K} {below : List (Symbol K)}
    (h : c.Holds (.terminal kind :: below) l ts es) (hk : l.next.1.kind ≠ kind) :
    (c.round g).Holds (.terminal kind :: below) l.next.2 ts
      (es ++ [.unexpected l.next.1 kind]) :=
  h.awaits.refuse hk

/-! ## runs -/

/-- What holds at first and is kept by every round holds at the end. -/
theorem run_induction {motive : Config K → Prop} (hstart : motive c)
    (hround : ∀ c, motive c → c.done = false → motive (c.round g)) (n : Nat) :
    motive (c.run g n) := by
  induction n generalizing c with
  | zero => exact hstart
  | succ n ih =>
    cases hd : c.done with
    | true =>
      rw [run_of_done hd]
      exact hstart
    | false =>
      rw [run_succ hd]
      exact ih (hround c hstart hd)

/-- What a round can do, by the top of the stack and the next token. -/
inductive Rounds (g : Grammar K) (c : Config K) : Config K → Prop where
  /-- the right-hand side that begins with the token comes in place of a nonterminal -/
  | expands {n : Nat} {below rhs : List (Symbol K)} (items : c.stack.items = .nonterminal n :: below)
    (rule : g.productionFor? n c.fetch.1.kind = some rhs) :
    Rounds g c (c.fetch.2.replace n c.fetch.1 rhs)
  /-- no right-hand side begins with it -/
  | drops {n : Nat} {below : List (Symbol K)} (items : c.stack.items = .nonterminal n :: below)
    (rule : g.productionFor? n c.fetch.1.kind = none) :
    Rounds g c (c.fetch.2.refuse (.noProduction c.fetch.1))
  /-- the token is the terminal on top -/
  | meets {below : List (Symbol K)} (items : c.stack.items = .terminal c.fetch.1.kind :: below) :
    Rounds g c (c.fetch.2.accept c.fetch.1)
  /-- it is another one, and the token after it is in hand at once -/
  | refuses {kind : K} {below : List (Symbol K)} (items : c.stack.items = .terminal kind :: below)
    (other : c.fetch.1.kind ≠ kind) :
    Rounds g c (c.fetch.2.refuse (.unexpected c.fetch.1 kind)).skip

theorem rounds (g : Grammar K) (hne : c.stack.items ≠ []) : Rounds g c (c.round g) := by
  obtain ⟨s, below, hs⟩ := List.exists_cons_of_ne_nil hne
  cases s with
  | nonterminal n =>
    rw [round_nonterminal (top?_of_items hs)]
    cases hp : g.productionFor? n c.fetch.1.kind with
    | none =>
      rw [expand_of_none hp]
      exact .drops hs hp
    | some rhs =>
      rw [expand_of_some hp]
      exact .expands hs hp
  | terminal kind =>
    rw [round_terminal (top?_of_items hs)]
    by_cases hk : c.fetch.1.kind = kind
    · rw [meet_of_eq hk]
      exact .meets (hk ▸ hs)
    · rw [meet_of_ne hk]
      exact .refuses hs hk

theorem items_ne_nil_of_done (h : c.done = false) : c.stack.items ≠ [] := by
  intro hnil
  rw [done_of_items_eq_nil hnil] at h
  cases h

/-- an error stays -/
theorem refusals_round (g : Grammar K) (c : Config K) : c.refusals <+: (c.round g).refusals := by
  cases hs : c.stack.items with
  | nil =>
    refine ⟨[], ?_⟩
    rw [List.append_nil, round, Stack.top?, hs]
    rfl
  | cons s below =>
    have hround : Rounds g c (c.round g) := rounds g (hs ▸ List.cons_ne_nil s below)
    generalize c.round g = c' at hround
    cases hround with
    | expands _ _ =>
      refine ⟨[], ?_⟩
      rw [List.append_nil, refusals_replace, refusals_fetch]
    | drops _ _ =>
      rw [refusals_refuse, refusals_fetch]
      exact List.prefix_append _ _
    | meets _ =>
      refine ⟨[], ?_⟩
      rw [List.append_nil, refusals_accept, refusals_fetch]
    | refuses _ _ =>
      rw [refusals_skip, refusals_refuse, refusals_fetch]
      exact List.prefix_append _ _

/-- Two rounds: a right-hand side that puts the next token's kind on top, and the token meets it. -/
theorem Ready.take {n : Nat} {below rhs stack : List (Symbol K)}
    (h : c.Ready (.nonterminal n :: below) l ts es)
    (hp : g.productionFor? n l.next.1.kind = some rhs)
    (hs : rhs ++ below = .terminal l.next.1.kind :: stack)
    (hend : l.next.1.kind ≠ TokenKind.endOfInput) :
    (c.run g 2).Ready stack l.next.2 (ts ++ [l.next.1]) es := by
  have hholds := h.expand hp
  rw [hs] at hholds
  have hgo : (c.round g).done = false := by
    rw [hholds.done, Token.isEndOfInput, decide_eq_false hend, Bool.and_false]
  rw [run_succ h.done, run_succ hgo, run_zero]
  exact hholds.meet rfl hend

omit [DecidableEq K] in
/-- a symbol that is left on the stack is the last error -/
theorem Holds.errors {s : Symbol K} {stack : List (Symbol K)} (h : c.Holds (s :: stack) l ts es) :
    c.errors = es ++ [.prematureEnd] := by
  rw [Config.errors, isEmpty_of_items h.items, h.refusals]
  rfl

/-- **Where only the end of the input fits, every token before it is refused.** -/
theorem Holds.drain {below : List (Symbol K)} {ms : List (Token K)} {last : Token K}
    (h : c.Holds (.terminal TokenKind.endOfInput :: below) l ms es) (hes : es ≠ [])
    (hl : l.tokenize = ts ++ [last]) :
    ∃ n ≤ ts.length, (c.run g n).done = true ∧
      ∃ l', (c.run g n).Holds (.terminal TokenKind.endOfInput :: below) l' ms
        (es ++ ts.map fun t => .unexpected t TokenKind.endOfInput) := by
  induction ts generalizing c l es with
  | nil =>
    obtain ⟨hlast, hend⟩ := Lexer.next_of_tokenize_singleton hl
    refine ⟨0, Nat.le_refl 0, ?_, l, ?_⟩
    · rw [run_zero, h.done, hlast, hend, Bool.and_true, List.isEmpty_eq_false_iff.mpr hes]
      rfl
    · rw [List.map_nil, List.append_nil]
      exact h
  | cons t ts ih =>
    obtain ⟨rfl, hend, hrest⟩ := Lexer.next_of_tokenize_cons hl
    have hk : l.next.1.kind ≠ TokenKind.endOfInput := fun he =>
      hend ((Token.isEndOfInput_iff _).mpr he)
    have hd : c.done = false := by
      rw [h.done, Bool.eq_false_iff.mpr hend, Bool.and_false]
    obtain ⟨n, hn, hdone, l', hholds⟩ :=
      ih (h.refuse (g := g) hk) (List.append_ne_nil_of_right_ne_nil es (by simp)) hrest
    refine ⟨n + 1, Nat.succ_le_succ hn, ?_, l', ?_⟩
    · rw [run_succ hd]
      exact hdone
    · rw [run_succ hd, List.map_cons, List.append_cons]
      exact hholds

/-! ## results -/

/-- Where every symbol was met and nothing refused, the result is what was met before the end of the
input. -/
theorem verdict_of_met {ms : List (Token K)} {last : Token K} (hnone : c.errors = [])
    (hmet : c.met = ms ++ [last]) (hlast : last.isEndOfInput = true)
    (hms : ∀ t ∈ ms, ¬ t.isEndOfInput = true) : c.verdict = .ok ms := by
  have hkeep : ms.filter (fun t => !t.isEndOfInput) = ms := by
    refine List.filter_eq_self.mpr fun t ht => ?_
    rw [Bool.eq_false_iff.mpr (hms t ht)]
    rfl
  have hdrop : [last].filter (fun t => !t.isEndOfInput) = [] := by
    rw [List.filter_cons, hlast]
    rfl
  rw [verdict, hnone, hmet, List.filter_append, hkeep, hdrop, List.append_nil]
  rfl

theorem errors_of_verdict {ms : List (Token K)} (h : c.verdict = .ok ms) : c.errors = [] := by
  unfold verdict at h
  split at h
  · next hnone => exact List.isEmpty_iff.mp hnone
  · cases h

theorem parse?_eq_some_iff {result : Except (List (ParseError K)) (List (Token K))} :
    parse? g l = some result ↔ (final g l).done = true ∧ (final g l).verdict = result := by
  rw [parse?, Option.ite_none_right_eq_some, Option.some_inj]

end TemplateCheck.Parser.Config
