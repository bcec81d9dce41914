import TemplateCheck.Proofs.Grammar.Derivation
import TemplateCheck.Proofs.Parser.Ready
import TemplateCheck.Proofs.Parser.Unfolding

/-!
# How many rounds a run that ends can take

* `Grammar.unfolding?`     what comes in place of a symbol while all tokens are of one kind
* `Grammar.phaseRounds`    rounds for each symbol of a stack, until a token is dealt with
* `Grammar.phaseGrowth`    how many symbols more there can be when it is
* `Awaits.stops_of_done`   in a run that ends the stack comes to a stop before every token
* `Awaits.exists_phase`    where it does, a token is dealt with within these rounds
* `Awaits.exists_end`      at the end of the bytes the run ends within them
* `exists_done_le`         so it ends within a number of phases that the bytes give
* `parse?_eq_some_iff_run` the bound on the rounds decides about no result

At the end of the bytes all tokens are alike, so a terminal that is met there leaves the machine
before another token of the same kind: meeting it is one more way to unfold the stack.
-/

namespace TemplateCheck

variable {K : Type} [DecidableEq K]

namespace Grammar

/-- What comes in place of a symbol before tokens of kind `k`: the right-hand side of a nonterminal
and, where all tokens to come are of this kind, nothing in place of the terminal itself. -/
def unfolding? (g : Grammar K) (k : K) (alike : Bool) : Symbol K → Option (List (Symbol K))
  | .terminal kind => if alike = true ∧ kind = k then some [] else none
  | .nonterminal n => g.productionFor? n k

/-- for each symbol of a stack, a number of rounds until the next token is dealt with -/
def phaseRounds (g : Grammar K) : Nat :=
  (g.maxWidth + 1) ^ (g.table.length + 1)

/-- how many symbols more a stack can have when the next token has been dealt with -/
def phaseGrowth (g : Grammar K) : Nat :=
  g.table.length * g.maxWidth

/-- the nonterminals that have a row in the table -/
def rowSymbols (g : Grammar K) : Finset (Symbol K) :=
  (Finset.range g.table.length).map ⟨.nonterminal, fun _ _ h => Symbol.nonterminal.inj h⟩

variable {g : Grammar K} {k : K} {alike : Bool}

omit [DecidableEq K] in
theorem card_rowSymbols (g : Grammar K) : g.rowSymbols.card = g.table.length := by
  rw [rowSymbols, Finset.card_map, Finset.card_range]

theorem le_foldl_max (a : Nat) (ns : List Nat) :
    a ≤ ns.foldl max a ∧ ∀ n ∈ ns, n ≤ ns.foldl max a := by
  induction ns generalizing a with
  | nil => exact ⟨Nat.le_refl a, fun n hn => absurd hn List.not_mem_nil⟩
  | cons m ns ih =>
    obtain ⟨hmax, hns⟩ := ih (max a m)
    refine ⟨Nat.le_trans (Nat.le_max_left a m) hmax, List.forall_mem_cons.mpr ⟨?_, hns⟩⟩
    exact Nat.le_trans (Nat.le_max_right a m) hmax

omit [DecidableEq K] in
theorem length_le_maxWidth {rhs : List (Symbol K)} (h : rhs ∈ g.productions) :
    rhs.length ≤ g.maxWidth :=
  (le_foldl_max 0 _).2 _ (List.mem_map_of_mem h)

theorem length_of_unfolding? {s : Symbol K} {ss : List (Symbol K)}
    (h : g.unfolding? k alike s = some ss) : ss.length ≤ g.maxWidth := by
  cases s with
  | terminal kind =>
    obtain ⟨-, hnil⟩ := Option.ite_none_right_eq_some.mp h
    obtain rfl := Option.some.inj hnil
    exact Nat.zero_le _
  | nonterminal n => exact length_le_maxWidth (mem_productions_of_productionFor? h)

theorem mem_rowSymbols_of_unfolding? {s : Symbol K} {ss : List (Symbol K)}
    (h : g.unfolding? k alike s = some ss) (hne : ss ≠ []) : s ∈ g.rowSymbols := by
  cases s with
  | terminal kind =>
    obtain ⟨-, hnil⟩ := Option.ite_none_right_eq_some.mp h
    exact absurd (Option.some.inj hnil).symm hne
  | nonterminal n =>
    have hlt : n < g.table.length := lt_length_of_productionFor? h
    exact Finset.mem_map.mpr ⟨n, Finset.mem_range.mpr hlt, rfl⟩

end Grammar

namespace Parser

open Grammar

/-- A stack that comes to a stop before tokens of one kind does so within a phase. -/
theorem exists_turns?_unfold {g : Grammar K} {k : K} {alike : Bool} {s : List (Symbol K)} {n : Nat}
    (h : turns? (g.unfolding? k alike) n s = none) :
    ∃ m ≤ s.length * g.phaseRounds, ∃ r, turns? (g.unfolding? k alike) m s = some r ∧
      turn? (g.unfolding? k alike) r = none ∧ r.length ≤ s.length + g.phaseGrowth := by
  have hstop := stops_of_turns?_eq_none (fun _ _ => length_of_unfolding?)
    (fun _ _ => mem_rowSymbols_of_unfolding?) h
  rw [card_rowSymbols] at hstop
  exact hstop

variable [TokenKind K]

namespace Config

variable {g : Grammar K} {c : Config K} {l : Lexer K} {s : List (Symbol K)} {x : Symbol K}
  {ts : List (Token K)} {es : List (ParseError K)}

/-- With the end of the input taken the machine is done, once a token was refused. -/
theorem done_of_end (hlast : c.lastKind = some TokenKind.endOfInput)
    (hfailed : c.failed = !es.isEmpty) (hes : es ≠ []) : c.done = true := by
  rw [Config.done, hfailed, hlast, List.isEmpty_eq_false_iff.mpr hes, decide_eq_true rfl]
  exact Bool.or_true _

theorem exists_done_run (n : Nat) (h : ∃ m, (c.run g m).done = true) :
    ∃ m, ((c.run g n).run g m).done = true := by
  obtain ⟨m, hm⟩ := h
  refine ⟨m, ?_⟩
  rw [← run_add, Nat.add_comm, run_add, run_of_done hm]
  exact hm

/-! ## turns as rounds -/

section
variable {k : K} {alike : Bool} {P : Config K → List (Symbol K) → Prop}
  (hgo : ∀ c x s, P c (x :: s) → c.done = false)
  (hround : ∀ c x s ss, P c (x :: s) → g.unfolding? k alike x = some ss → P (c.round g) (ss ++ s))
include hgo hround

/-- Where a machine takes every turn of its stack in a round, it takes all of them. -/
theorem run_turns {n : Nat} {r : List (Symbol K)} (h : P c s)
    (hn : turns? (g.unfolding? k alike) n s = some r) : P (c.run g n) r := by
  induction n generalizing c s with
  | zero =>
    obtain rfl : s = r := Option.some.inj hn
    exact h
  | succ n ih =>
    obtain ⟨s', hturn, hn'⟩ := Option.bind_eq_some_iff.mp hn
    cases s with
    | nil => cases hturn
    | cons x s =>
      obtain ⟨ss, hx, rfl⟩ := Option.map_eq_some_iff.mp hturn
      rw [run_succ (hgo c x s h)]
      exact ih (hround c x s ss h hx) hn'

/-- In a run that ends the turns come to a stop. -/
theorem stops_of_done (h : P c s) (hend : ∃ n, (c.run g n).done = true) :
    Stops (g.unfolding? k alike) s := by
  obtain ⟨n, hn⟩ := hend
  refine ⟨n + 1, ?_⟩
  rw [turns?_add]
  cases hturns : turns? (g.unfolding? k alike) n s with
  | none => rfl
  | some r =>
    cases r with
    | nil => rfl
    | cons x r =>
      rw [hgo _ x r (run_turns hgo hround h hturns)] at hn
      cases hn

/-- Where the turns come to a stop, so does the machine, in boundedly many rounds. -/
theorem exists_stop (h : P c s) (hstops : Stops (g.unfolding? k alike) s) :
    ∃ m ≤ s.length * g.phaseRounds, ∃ r, P (c.run g m) r ∧ r.length ≤ s.length + g.phaseGrowth ∧
      ∀ x r', r = x :: r' → g.unfolding? k alike x = none := by
  obtain ⟨n, hn⟩ := hstops
  obtain ⟨m, hm, r, hturns, hstop, hlen⟩ := exists_turns?_unfold hn
  refine ⟨m, hm, r, run_turns hgo hround h hturns, hlen, fun x r' hr => ?_⟩
  rw [hr, turn?, Option.map_eq_none_iff] at hstop
  exact hstop

end

/-! ## a phase -/

/-- Where nothing comes in place of the top, one round deals with the token. -/
theorem Awaits.consume (h : c.Awaits (x :: s) l ts es)
    (hx : g.unfolding? l.next.1.kind false x = none) :
    ∃ s' ts' es', (c.round g).Awaits s' l.next.2 ts' es' ∧ s'.length ≤ s.length + 1 := by
  cases x with
  | terminal kind =>
    by_cases hk : l.next.1.kind = kind
    · exact ⟨_, _, _, (h.meet hk).awaits, Nat.le_succ _⟩
    · exact ⟨_, _, _, (h.refuse hk).awaits, Nat.le_refl _⟩
  | nonterminal n => exact ⟨_, _, _, (h.skip hx).awaits, Nat.le_refl _⟩

theorem Awaits.unfold {ss : List (Symbol K)} (h : c.Awaits (x :: s) l ts es)
    (hx : g.unfolding? l.next.1.kind false x = some ss) :
    (c.round g).Holds (ss ++ s) l ts es := by
  cases x with
  | terminal kind => cases hx
  | nonterminal n => exact h.expand hx

/-- the machine awaits the tokens of `l`, and does not stop as long as there are symbols -/
def Going (l : Lexer K) (ts : List (Token K)) (es : List (ParseError K)) (c : Config K)
    (s : List (Symbol K)) : Prop :=
  c.Awaits s l ts es ∧ (s ≠ [] → c.done = false)

theorem Going.done (h : Going l ts es c (x :: s)) : c.done = false :=
  h.2 (List.cons_ne_nil x s)

theorem Going.unfold (hgo : (!es.isEmpty && l.next.1.isEndOfInput) = false)
    {ss : List (Symbol K)} (h : Going l ts es c (x :: s))
    (hx : g.unfolding? l.next.1.kind false x = some ss) : Going l ts es (c.round g) (ss ++ s) := by
  have hholds := h.1.unfold hx
  refine ⟨hholds.awaits, fun hne => ?_⟩
  obtain ⟨y, r, hr⟩ := List.exists_cons_of_ne_nil hne
  rw [hr] at hholds
  exact hholds.done.trans hgo

theorem Awaits.stops_of_done (h : c.Awaits s l ts es) (hdone : c.done = false)
    (hgo : (!es.isEmpty && l.next.1.isEndOfInput) = false)
    (hend : ∃ n, (c.run g n).done = true) : Stops (g.unfolding? l.next.1.kind false) s :=
  have hgoing : Going l ts es c s := ⟨h, fun _ => hdone⟩
  Config.stops_of_done (fun _ _ _ => Going.done) (fun _ _ _ _ => Going.unfold hgo) hgoing hend

/-- Unless a token was refused and this one is the end of the input, the machine goes on until a
round deals with the token. -/
theorem Awaits.exists_phase_of_go (h : c.Awaits s l ts es) (hdone : c.done = false)
    (hgo : (!es.isEmpty && l.next.1.isEndOfInput) = false)
    (hstops : Stops (g.unfolding? l.next.1.kind false) s) :
    ∃ n ≤ s.length * g.phaseRounds + 1, (c.run g n).done = true ∨
      ∃ s' ts' es', (c.run g n).Awaits s' l.next.2 ts' es' ∧
        s'.length ≤ s.length + g.phaseGrowth := by
  have hstart : Going l ts es c s := ⟨h, fun _ => hdone⟩
  obtain ⟨m, hm, r, hgoing, hlen, hstop⟩ :=
    exists_stop (fun _ _ _ => Going.done) (fun _ _ _ _ => Going.unfold hgo) hstart hstops
  cases r with
  | nil => exact ⟨m, Nat.le_succ_of_le hm, Or.inl (done_of_items_eq_nil hgoing.1.items)⟩
  | cons x r =>
    obtain ⟨s', ts', es', hawaits, hlen'⟩ := hgoing.1.consume (hstop x r rfl)
    refine ⟨m + 1, Nat.succ_le_succ hm, Or.inr ⟨s', ts', es', ?_, ?_⟩⟩
    · rw [run_add, run_succ hgoing.done, run_zero]
      exact hawaits
    · rw [List.length_cons] at hlen
      omega

/-- **A phase.**  A machine whose stack comes to a stop before the next token deals with it, or is
done before. -/
theorem Awaits.exists_phase (h : c.Awaits s l ts es)
    (hstops : c.done = false → (!es.isEmpty && l.next.1.isEndOfInput) = false →
      Stops (g.unfolding? l.next.1.kind false) s) :
    ∃ n ≤ s.length * g.phaseRounds + 1, (c.run g n).done = true ∨
      ∃ s' ts' es', (c.run g n).Awaits s' l.next.2 ts' es' ∧
        s'.length ≤ s.length + g.phaseGrowth := by
  cases hdone : c.done with
  | true => exact ⟨0, Nat.zero_le _, Or.inl hdone⟩
  | false =>
    cases hgo : !es.isEmpty && l.next.1.isEndOfInput with
    | false => exact h.exists_phase_of_go hdone hgo (hstops hdone hgo)
    | true =>
      -- one round is enough, whatever is on top
      obtain ⟨hes, hlast⟩ := Bool.and_eq_true_iff.mp hgo
      have hne : es ≠ [] := fun hnil => by rw [hnil] at hes; cases hes
      have hround : c.run g 1 = c.round g := by rw [run_succ hdone, run_zero]
      cases s with
      | nil =>
        rw [done_of_items_eq_nil h.items] at hdone
        cases hdone
      | cons x s =>
        refine ⟨1, Nat.le_add_left 1 _, ?_⟩
        rw [hround]
        cases hx : g.unfolding? l.next.1.kind false x with
        | none =>
          obtain ⟨s', ts', es', hawaits, hlen⟩ := h.consume hx
          exact Or.inr ⟨s', ts', es', hawaits, Nat.le_trans hlen (Nat.le_add_right _ _)⟩
        | some ss =>
          have hholds := h.unfold hx
          refine Or.inl (done_of_end ?_ hholds.failed hne)
          rw [hholds.lastKind, (Token.isEndOfInput_iff _).mp hlast]

/-! ## the end of the bytes -/

/-- the machine awaits the tokens of `l`, and nothing was refused -/
def Flawless (l : Lexer K) (c : Config K) (s : List (Symbol K)) : Prop :=
  ∃ ts, c.Awaits s l ts []

theorem Flawless.done (h : Flawless l c (x :: s)) : c.done = false :=
  h.elim fun _ hawaits => hawaits.done

section
variable (hnil : l.rest = [])
include hnil

/-- At the end of the bytes a round is the last one, if a token was refused or is refused now. -/
theorem Awaits.done_round (h : c.Awaits (x :: s) l ts es)
    (hlast : es ≠ [] ∨ g.unfolding? TokenKind.endOfInput true x = none) :
    (c.round g).done = true := by
  have hkind := Lexer.kind_next_of_rest_eq_nil hnil
  cases x with
  | terminal kind =>
    by_cases hk : l.next.1.kind = kind
    · have hes : es ≠ [] := hlast.resolve_right fun hnone => by
        rw [Grammar.unfolding?, if_pos ⟨rfl, hk.symm.trans hkind⟩] at hnone
        cases hnone
      have hidle := h.meet (g := g) hk
      refine done_of_end ?_ hidle.failed hes
      rw [hidle.lastKind, ← hk, hkind]
    · have hholds := h.refuse (g := g) hk
      refine done_of_end ?_ hholds.failed (List.append_ne_nil_of_right_ne_nil es (by simp))
      rw [hholds.lastKind, Lexer.next_snd_of_rest_eq_nil hnil, hkind]
  | nonterminal n =>
    cases hp : g.productionFor? n l.next.1.kind with
    | none =>
      have hidle := h.skip hp
      refine done_of_end ?_ hidle.failed (List.append_ne_nil_of_right_ne_nil es (by simp))
      rw [hidle.lastKind, hkind]
    | some rhs =>
      have hes : es ≠ [] := hlast.resolve_right fun hnone => by
        rw [hkind] at hp
        cases hp.symm.trans hnone
      have hholds := h.expand hp
      refine done_of_end ?_ hholds.failed hes
      rw [hholds.lastKind, hkind]

theorem Flawless.unfold {ss : List (Symbol K)} (h : Flawless l c (x :: s))
    (hx : g.unfolding? TokenKind.endOfInput true x = some ss) :
    Flawless l (c.round g) (ss ++ s) := by
  have hkind := Lexer.kind_next_of_rest_eq_nil hnil
  obtain ⟨ts, hawaits⟩ := h
  cases x with
  | terminal kind =>
    obtain ⟨⟨-, hk⟩, hss⟩ := Option.ite_none_right_eq_some.mp hx
    obtain rfl := Option.some.inj hss
    have hidle := hawaits.meet (g := g) (hkind.trans hk.symm)
    rw [Lexer.next_snd_of_rest_eq_nil hnil] at hidle
    exact ⟨_, hidle.awaits⟩
  | nonterminal n =>
    have hp : g.productionFor? n l.next.1.kind = some ss := by
      rw [hkind]
      exact hx
    exact ⟨_, (hawaits.expand hp).awaits⟩

theorem Flawless.stops_of_done (h : Flawless l c s) (hend : ∃ n, (c.run g n).done = true) :
    Stops (g.unfolding? TokenKind.endOfInput true) s :=
  Config.stops_of_done (fun _ _ _ => Flawless.done) (fun _ _ _ _ => Flawless.unfold hnil) h hend

/-- **The last phase.**  At the end of the bytes a machine whose stack comes to a stop is done before
another token is asked for that is not alike. -/
theorem Awaits.exists_end (h : c.Awaits s l ts es)
    (hstops : es = [] → Stops (g.unfolding? TokenKind.endOfInput true) s) :
    ∃ n ≤ s.length * g.phaseRounds + 1, (c.run g n).done = true := by
  cases hdone : c.done with
  | true => exact ⟨0, Nat.zero_le _, hdone⟩
  | false =>
    by_cases hes : es = []
    · subst hes
      have hstart : Flawless l c s := ⟨ts, h⟩
      obtain ⟨m, hm, r, ⟨ts', hawaits⟩, -, hstop⟩ :=
        exists_stop (fun _ _ _ => Flawless.done) (fun _ _ _ _ => Flawless.unfold hnil) hstart
          (hstops rfl)
      cases r with
      | nil => exact ⟨m, Nat.le_succ_of_le hm, done_of_items_eq_nil hawaits.items⟩
      | cons x r =>
        refine ⟨m + 1, Nat.succ_le_succ hm, ?_⟩
        rw [run_add, run_succ hawaits.done, run_zero]
        exact hawaits.done_round hnil (Or.inr (hstop x r rfl))
    · cases s with
      | nil =>
        rw [done_of_items_eq_nil h.items] at hdone
        cases hdone
      | cons x s =>
        refine ⟨1, Nat.le_add_left 1 _, ?_⟩
        rw [run_succ hdone, run_zero]
        exact h.done_round hnil (Or.inl hes)

end

/-! ## all phases -/

/-- **A run that ends does so in one phase for each byte that is left, and a last one.**  In each of
them the stack is at most `height` symbols high. -/
theorem exists_done_le {phases height : Nat} (h : c.Awaits s l ts es)
    (hphases : l.rest.length ≤ phases) (hheight : s.length + phases * g.phaseGrowth ≤ height)
    (hend : ∃ n, (c.run g n).done = true) :
    ∃ n ≤ (phases + 1) * (height * g.phaseRounds + 1), (c.run g n).done = true := by
  have hrounds (s' : List (Symbol K)) (hs' : s'.length ≤ height) :
      s'.length * g.phaseRounds + 1 ≤ height * g.phaseRounds + 1 :=
    Nat.succ_le_succ (Nat.mul_le_mul_right _ hs')
  have hlast {c : Config K} {s : List (Symbol K)} {l : Lexer K} {ts : List (Token K)}
      {es : List (ParseError K)} (h : c.Awaits s l ts es) (hnil : l.rest = [])
      (hend : ∃ n, (c.run g n).done = true) :
      ∃ n ≤ s.length * g.phaseRounds + 1, (c.run g n).done = true :=
    h.exists_end hnil fun hes => Flawless.stops_of_done hnil ⟨ts, hes ▸ h⟩ hend
  induction phases generalizing c s l ts es with
  | zero =>
    have hnil : l.rest = [] := List.eq_nil_of_length_eq_zero (Nat.le_zero.mp hphases)
    obtain ⟨n, hn, hdone⟩ := hlast h hnil hend
    refine ⟨n, Nat.le_trans hn ?_, hdone⟩
    rw [Nat.zero_add, Nat.one_mul]
    exact hrounds s (Nat.le_trans (Nat.le_add_right _ _) hheight)
  | succ phases ih =>
    have hs := hrounds s (Nat.le_trans (Nat.le_add_right _ _) hheight)
    by_cases hnil : l.rest = []
    · obtain ⟨n, hn, hdone⟩ := hlast h hnil hend
      refine ⟨n, Nat.le_trans hn (Nat.le_trans hs ?_), hdone⟩
      exact Nat.le_mul_of_pos_left _ (Nat.succ_pos _)
    · obtain ⟨n, hn, hphase⟩ :=
        h.exists_phase fun hdone hgo => h.stops_of_done hdone hgo hend
      have hstep : (phases + 1 + 1) * (height * g.phaseRounds + 1) =
          (height * g.phaseRounds + 1) + (phases + 1) * (height * g.phaseRounds + 1) := by
        rw [Nat.succ_mul, Nat.add_comm]
      rcases hphase with hdone | ⟨s', ts', es', hawaits, hlen⟩
      · exact ⟨n, by omega, hdone⟩
      · have hlt := Lexer.length_rest_next_lt l hnil
        rw [Nat.succ_mul] at hheight
        obtain ⟨m, hm, hdone⟩ := ih hawaits (by omega) (by omega) (exists_done_run n hend)
        refine ⟨n + m, by omega, ?_⟩
        rw [run_add]
        exact hdone

end Config

/-- **The bound on the rounds is one**: a run that ends at all has ended by then. -/
theorem done_final_iff {g : Grammar K} {l : Lexer K} :
    (final g l).done = true ↔ ∃ n, ((Config.start g l).run g n).done = true := by
  refine ⟨fun h => ⟨_, h⟩, fun hend => ?_⟩
  obtain ⟨n, hn, hdone⟩ := Config.exists_done_le (Config.idle_start g l).awaits
    (Nat.le_refl l.rest.length) (Nat.le_refl _) hend
  have hle : n ≤ roundBound g l.rest.length := by
    refine Nat.le_trans hn (Nat.mul_le_mul (Nat.add_le_add_left (by decide) _) ?_)
    refine Nat.succ_le_succ (Nat.mul_le_mul_right _ (Nat.add_le_add_left ?_ 2))
    show l.rest.length * (g.table.length * g.maxWidth) ≤ _
    rw [← Nat.mul_assoc]
    exact Nat.mul_le_mul_right _ (Nat.mul_le_mul_right _ (Nat.le_add_right _ 3))
  rw [final, Config.run_of_le hle hdone]
  exact hdone

/-- So the result of a parse is the result of the run that goes on until the machine is done. -/
theorem parse?_eq_some_iff_run {g : Grammar K} {l : Lexer K}
    {result : Except (List (ParseError K)) (List (Token K))} :
    parse? g l = some result ↔
      ∃ n, ((Config.start g l).run g n).done = true ∧
        ((Config.start g l).run g n).verdict = result := by
  rw [Config.parse?_eq_some_iff]
  refine ⟨fun h => ⟨_, h⟩, fun h => ?_⟩
  obtain ⟨n, hdone, hverdict⟩ := h
  have hfinal := done_final_iff.mpr ⟨n, hdone⟩
  have heq : final g l = (Config.start g l).run g n := by
    rcases Nat.le_total n (roundBound g l.rest.length) with hle | hle
    · exact Config.run_of_le hle hdone
    · exact (Config.run_of_le hle hfinal).symm
  exact ⟨hfinal, heq ▸ hverdict⟩

end Parser

end TemplateCheck
