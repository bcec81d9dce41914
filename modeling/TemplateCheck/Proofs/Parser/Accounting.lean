import TemplateCheck.Proofs.Lexer.Boundary
import TemplateCheck.Proofs.Parser.Ready
import TemplateCheck.Template.Parsing

/-!
# Every token is dealt with once

A token is taken from the lexer in one round and may be dealt with in a later one.  In between it is
in hand, and at most one token is.

* `Config.pulled`       the tokens that were taken from the lexer
* `Tally l ts c`        they are the first tokens of `l`, and `ts` are those no longer in hand
* `Expands c c'`        a round that deals with no token
* `Deals t c c'`        a round in which the token `t` meets the terminal on top or is refused
* `History g l ts c`    the rounds up to `c` dealt with the tokens `ts`, each in a round of its own
* `Tally.round`         every round is of one of these two kinds
* `tokens_accounted`    a run that ends has dealt with all tokens it took, a closing one apart

The tokens dealt with are a list and not a set: the empty tokens behind the last byte are alike, and
a grammar may ask for many of them.
-/

namespace TemplateCheck.Parser

variable {K : Type}

namespace Config

/-- the tokens taken from the lexer so far, in order -/
def pulled (c : Config K) : List (Token K) :=
  c.trace.reverse.filterMap fun
    | .pulled token => some token
    | _ => none

section
variable (c : Config K)

@[simp] theorem pulled_pull [TokenKind K] : c.pull.2.pulled = c.pulled ++ [c.pull.1] := by
  simp [pulled, pull]

@[simp] theorem pulled_replace (n : Nat) (t : Token K) (rhs : List (Symbol K)) :
    (c.replace n t rhs).pulled = c.pulled := by
  simp [pulled, replace]

@[simp] theorem pulled_accept (t : Token K) : (c.accept t).pulled = c.pulled := by
  simp [pulled, accept]

@[simp] theorem pulled_refuse (e : ParseError K) : (c.refuse e).pulled = c.pulled := by
  simp [pulled, refuse]

end

variable [TokenKind K]

/-! ## the tokens taken, and the one in hand -/

/-- The tokens taken from the lexer are the first ones of `l`: `ts` come first, and then the one in
hand.  What the machine remembers of them is so. -/
structure Tally (l : Lexer K) (ts : List (Token K)) (c : Config K) : Prop where
  taken : ∃ n, c.pulled = (l.take n).1 ∧ c.lexer = (l.take n).2
  pulled : c.pulled = ts ++ c.look.toList
  lastKind : c.lastKind = c.pulled.getLast?.map Token.kind
  failed : c.failed = !c.refusals.isEmpty

namespace Tally

variable {g : Grammar K} {l : Lexer K} {ts : List (Token K)} {t : Token K} {c : Config K}

theorem start (g : Grammar K) (l : Lexer K) : Tally l [] (start g l) :=
  ⟨⟨0, rfl, rfl⟩, rfl, rfl, rfl⟩

theorem pulled_of_look (h : Tally l ts c) (hlook : c.look = none) : c.pulled = ts := by
  rw [h.pulled, hlook, Option.toList_none, List.append_nil]

theorem lastKind_of_look (h : Tally l (ts ++ [t]) c) (hlook : c.look = none) :
    c.lastKind = some t.kind := by
  rw [h.lastKind, h.pulled_of_look hlook, List.getLast?_concat]
  rfl

theorem pull (h : Tally l ts c) (hlook : c.look = none) : Tally l (ts ++ [c.pull.1]) c.pull.2 := by
  obtain ⟨n, hpulled, hlexer⟩ := h.taken
  have hlook' : c.pull.2.look = none := hlook
  refine ⟨⟨n + 1, ?_, ?_⟩, ?_, ?_, ?_⟩
  · rw [pulled_pull, hpulled, Lexer.take_fst_succ, Config.pull, hlexer]
    rfl
  · rw [Lexer.take_snd_succ, ← hlexer]
    rfl
  · rw [pulled_pull, h.pulled_of_look hlook, hlook', Option.toList_none, List.append_nil]
  · rw [pulled_pull, List.getLast?_concat]
    rfl
  · rw [refusals_pull]
    exact h.failed

/-- The token in hand, or else the next one, is no longer in hand. -/
theorem fetch (h : Tally l ts c) : Tally l (ts ++ [c.fetch.1]) c.fetch.2 := by
  cases hlook : c.look with
  | none =>
    rw [fetch_of_look_eq_none hlook]
    exact h.pull hlook
  | some token =>
    have hpulled := h.pulled
    rw [hlook] at hpulled
    rw [fetch_of_look hlook]
    exact ⟨h.taken, hpulled.trans (List.append_nil _).symm, h.lastKind, h.failed⟩

/-- Where no token is taken from the lexer, only the one in hand can be another. -/
theorem keep {ts' : List (Token K)} {c' : Config K} (h : Tally l ts c)
    (hsame : c'.pulled = c.pulled ∧ c'.lexer = c.lexer ∧ c'.lastKind = c.lastKind)
    (hpulled : c.pulled = ts' ++ c'.look.toList) (hfailed : c'.failed = !c'.refusals.isEmpty) :
    Tally l ts' c' := by
  obtain ⟨hpulled', hlexer, hlast⟩ := hsame
  refine ⟨?_, hpulled'.trans hpulled, ?_, hfailed⟩
  · rw [hpulled', hlexer]
    exact h.taken
  · rw [hpulled', hlast]
    exact h.lastKind

theorem replace (h : Tally l (ts ++ [t]) c) (hlook : c.look = none) (n : Nat)
    (rhs : List (Symbol K)) : Tally l ts (c.replace n t rhs) := by
  refine h.keep ⟨pulled_replace c n t rhs, rfl, rfl⟩ (h.pulled_of_look hlook) ?_
  rw [refusals_replace]
  exact h.failed

theorem accept (h : Tally l ts c) (t : Token K) : Tally l ts (c.accept t) := by
  refine h.keep ⟨pulled_accept c t, rfl, rfl⟩ h.pulled ?_
  rw [refusals_accept]
  exact h.failed

theorem refuse (h : Tally l ts c) (e : ParseError K) : Tally l ts (c.refuse e) := by
  refine h.keep ⟨pulled_refuse c e, rfl, rfl⟩ h.pulled ?_
  rw [refusals_refuse]
  cases c.refusals <;> rfl

theorem skip (h : Tally l ts c) (hlook : c.look = none) : Tally l ts c.skip :=
  have hpull := h.pull hlook
  ⟨hpull.taken, hpull.pulled_of_look hlook, hpull.lastKind, hpull.failed⟩

end Tally

/-! ## what a round does with a token -/

/-- A right-hand side comes in place of the nonterminal on top, and no token is dealt with. -/
structure Expands (c c' : Config K) : Prop where
  items : ∃ n rhs below, c.stack.items = .nonterminal n :: below ∧ c'.stack.items = rhs ++ below
  met : c'.met = c.met
  refusals : c'.refusals = c.refusals

/-- The token is dealt with, in one of two ways. -/
inductive Deals (t : Token K) (c c' : Config K) : Prop where
  /-- it meets the terminal on top, which is taken away -/
  | meets (items : c.stack.items = .terminal t.kind :: c'.stack.items) (look : c'.look = none)
    (met : c'.met = c.met ++ [t]) (refusals : c'.refusals = c.refusals)
  /-- it is refused, and the stack stays -/
  | refuses {e : ParseError K} (found : e.found? = some t)
    (items : c'.stack.items = c.stack.items) (met : c'.met = c.met)
    (refusals : c'.refusals = c.refusals ++ [e])

section
variable {g : Grammar K} {l : Lexer K} {ts : List (Token K)} {c c' : Config K} (h : Tally l ts c)
include h

theorem Tally.expands {n : Nat} {below : List (Symbol K)} (rhs : List (Symbol K))
    (hs : c.stack.items = .nonterminal n :: below) :
    Expands c (c.fetch.2.replace n c.fetch.1 rhs) ∧
      Tally l ts (c.fetch.2.replace n c.fetch.1 rhs) := by
  refine ⟨⟨⟨n, rhs, below, hs, ?_⟩, ?_, ?_⟩, h.fetch.replace (look_fetch c) n rhs⟩
  · rw [items_replace, stack_fetch, hs, List.tail_cons]
  · rw [met_replace, met_fetch]
  · rw [refusals_replace, refusals_fetch]

theorem Tally.drops :
    Deals c.fetch.1 c (c.fetch.2.refuse (.noProduction c.fetch.1)) ∧
      Tally l (ts ++ [c.fetch.1]) (c.fetch.2.refuse (.noProduction c.fetch.1)) := by
  have hfound : (ParseError.noProduction c.fetch.1).found? = some c.fetch.1 := rfl
  refine ⟨.refuses hfound ?_ ?_ ?_, h.fetch.refuse _⟩
  · exact congrArg Stack.items (stack_fetch c)
  · rw [met_refuse, met_fetch]
  · rw [refusals_refuse, refusals_fetch]

theorem Tally.meets {below : List (Symbol K)}
    (hs : c.stack.items = .terminal c.fetch.1.kind :: below) :
    Deals c.fetch.1 c (c.fetch.2.accept c.fetch.1) ∧
      Tally l (ts ++ [c.fetch.1]) (c.fetch.2.accept c.fetch.1) := by
  refine ⟨.meets ?_ (look_fetch c) ?_ ?_, h.fetch.accept _⟩
  · rw [items_accept, stack_fetch, hs, List.tail_cons]
  · rw [met_accept, met_fetch]
  · rw [refusals_accept, refusals_fetch]

theorem Tally.refuses (kind : K) :
    Deals c.fetch.1 c (c.fetch.2.refuse (.unexpected c.fetch.1 kind)).skip ∧
      Tally l (ts ++ [c.fetch.1]) (c.fetch.2.refuse (.unexpected c.fetch.1 kind)).skip := by
  have hfound : (ParseError.unexpected c.fetch.1 kind).found? = some c.fetch.1 := rfl
  refine ⟨.refuses hfound ?_ ?_ ?_, (h.fetch.refuse _).skip (look_fetch c)⟩
  · exact congrArg Stack.items (stack_fetch c)
  · rw [met_skip, met_refuse, met_fetch]
  · rw [refusals_skip, refusals_refuse, refusals_fetch]

/-- **One round** deals with no token, or with the one in hand or else the next one. -/
theorem Tally.round (hround : Rounds g c c') :
    Expands c c' ∧ Tally l ts c' ∨
      Deals c.fetch.1 c c' ∧ Tally l (ts ++ [c.fetch.1]) c' := by
  cases hround with
  | @expands n below rhs items rule => exact Or.inl (h.expands rhs items)
  | drops items rule => exact Or.inr h.drops
  | meets items => exact Or.inr (h.meets items)
  | @refuses kind below items other => exact Or.inr (h.refuses kind)

end

/-! ## the account of a run -/

variable [DecidableEq K]

/-- The rounds from the start to `c` dealt with the tokens `ts`, in this order and each in a round of
its own. -/
inductive History (g : Grammar K) (l : Lexer K) : List (Token K) → Config K → Prop where
  | start : History g l [] (start g l)
  | expand {ts : List (Token K)} {c : Config K} : History g l ts c → c.done = false →
      Expands c (c.round g) → History g l ts (c.round g)
  | deal {ts : List (Token K)} {t : Token K} {c : Config K} : History g l ts c → c.done = false →
      Deals t c (c.round g) → History g l (ts ++ [t]) (c.round g)

omit [DecidableEq K] in
/-- The end of the input lies at the bottom of the stack, or it was met there just now. -/
def Grounded (c : Config K) : Prop :=
  (∃ above, c.stack.items = above ++ [.terminal TokenKind.endOfInput]) ∨
    c.stack.items = [] ∧ c.lastKind = some TokenKind.endOfInput

structure Accounted (g : Grammar K) (l : Lexer K) (ts : List (Token K)) (c : Config K) : Prop where
  history : History g l ts c
  tally : Tally l ts c
  grounded : c.Grounded

variable {g : Grammar K} {l : Lexer K} {ts : List (Token K)} {t : Token K} {c c' : Config K}

/-- What was met and what was refused is together what was dealt with. -/
theorem History.perm (h : History g l ts c) :
    (c.met ++ c.refusals.filterMap ParseError.found?).Perm ts := by
  induction h with
  | start => exact .refl _
  | expand _ _ hround ih =>
    rw [hround.met, hround.refusals]
    exact ih
  | @deal ts t c _ _ hround ih =>
    have hsnoc := ih.append_right [t]
    rw [List.append_assoc] at hsnoc
    cases hround with
    | meets _ _ met refusals =>
      rw [met, refusals, List.append_assoc]
      exact (List.perm_append_comm.append_left c.met).trans hsnoc
    | refuses found _ met refusals =>
      rw [met, refusals, List.filterMap_append, List.filterMap_cons_some found, List.filterMap_nil]
      exact hsnoc

omit [DecidableEq K] in
theorem Grounded.exists_above {s : Symbol K} {below : List (Symbol K)} (h : c.Grounded)
    (hs : c.stack.items = s :: below) :
    below = [] ∧ s = .terminal TokenKind.endOfInput ∨
      ∃ above, below = above ++ [.terminal TokenKind.endOfInput] := by
  rcases h with ⟨above, habove⟩ | ⟨hnil, -⟩
  · rcases List.cons_eq_append_iff.mp (hs.symm.trans habove) with ⟨-, hend⟩ | ⟨above', -, hbelow⟩
    · obtain ⟨hend, hbelow⟩ := List.cons.inj hend
      exact Or.inl ⟨hbelow.symm, hend.symm⟩
    · exact Or.inr ⟨above', hbelow⟩
  · rw [hnil] at hs
    cases hs

omit [DecidableEq K] in
theorem Grounded.expand (h : c.Grounded) (hround : Expands c c') : c'.Grounded := by
  obtain ⟨n, rhs, below, hs, hs'⟩ := hround.items
  rcases h.exists_above hs with ⟨-, hend⟩ | ⟨above, rfl⟩
  · cases hend
  · exact Or.inl ⟨rhs ++ above, hs'.trans (List.append_assoc _ _ _).symm⟩

omit [DecidableEq K] in
theorem Grounded.deal (h : c.Grounded) (hne : c.stack.items ≠ []) (hround : Deals t c c')
    (htally : Tally l (ts ++ [t]) c') : c'.Grounded := by
  cases hround with
  | meets items look _ _ =>
    rcases h.exists_above items with ⟨hnil, hend⟩ | habove
    · -- the end of the input is met, and its token was the last one
      refine Or.inr ⟨hnil, ?_⟩
      rw [htally.lastKind_of_look look, Symbol.terminal.inj hend]
    · exact Or.inl habove
  | refuses _ items _ _ =>
    rcases h with ⟨above, habove⟩ | ⟨hnil, -⟩
    · exact Or.inl ⟨above, items.trans habove⟩
    · exact absurd hnil hne

namespace Accounted

theorem start (g : Grammar K) (l : Lexer K) : Accounted g l [] (start g l) :=
  ⟨.start, .start g l, Or.inl ⟨[.nonterminal g.start], rfl⟩⟩

/-- **Every round keeps the account.** -/
theorem round (h : Accounted g l ts c) (hdone : c.done = false) :
    Accounted g l ts (c.round g) ∧ Expands c (c.round g) ∨
      Accounted g l (ts ++ [c.fetch.1]) (c.round g) ∧ Deals c.fetch.1 c (c.round g) := by
  have hne := items_ne_nil_of_done hdone
  rcases h.tally.round (rounds g hne) with ⟨hround, htally⟩ | ⟨hround, htally⟩
  · exact Or.inl ⟨⟨.expand h.history hdone hround, htally, h.grounded.expand hround⟩, hround⟩
  · refine Or.inr ⟨⟨.deal h.history hdone hround, htally, ?_⟩, hround⟩
    exact h.grounded.deal hne hround htally

theorem exists_final (g : Grammar K) (l : Lexer K) : ∃ ts, Accounted g l ts (final g l) := by
  refine run_induction (motive := fun c => ∃ ts, Accounted g l ts c) ⟨[], start g l⟩ ?_ _
  intro c h hdone
  obtain ⟨ts, h⟩ := h
  rcases h.round hdone with ⟨h', -⟩ | ⟨h', -⟩
  · exact ⟨ts, h'⟩
  · exact ⟨_, h'⟩

/-- A machine that is done has taken the end of the input, and nothing behind it. -/
theorem lastKind_of_done (h : Accounted g l ts c) (hdone : c.done = true) :
    c.lastKind = some TokenKind.endOfInput := by
  rw [Config.done, Bool.or_eq_true, Bool.and_eq_true, decide_eq_true_eq] at hdone
  rcases hdone with hempty | ⟨-, hlast⟩
  · have hnil : c.stack.items = [] := List.isEmpty_iff.mp hempty
    rcases h.grounded with ⟨above, habove⟩ | ⟨-, hlast⟩
    · exact absurd (habove.symm.trans hnil) (List.append_ne_nil_of_right_ne_nil _ (by simp))
    · exact hlast
  · exact hlast

end Accounted

end Config

open Config

/-- **Every token is dealt with once.**  A run that ends has taken the first tokens of the lexer, all
of them up to a closing one at least.  Those that are not in hand in the end were dealt with in the
order in which they were taken, each in a round of its own, where it met the terminal on top or was
refused; what is left in hand is a closing token. -/
theorem tokens_accounted [TokenKind K] [DecidableEq K] {g : Grammar K} {l : Lexer K}
    {result : Except (List (ParseError K)) (List (Token K))} (h : parse? g l = some result) :
    let c := final g l
    ∃ n ts, c.pulled = (l.take n).1 ∧ c.lexer = (l.take n).2 ∧ l.tokenize <+: c.pulled ∧
      c.pulled = ts ++ c.look.toList ∧ (∀ t ∈ c.look, t.kind = TokenKind.endOfInput) ∧
      History g l ts c ∧ (c.met ++ c.refusals.filterMap ParseError.found?).Perm ts := by
  intro c
  obtain ⟨hdone, -⟩ := parse?_eq_some_iff.mp h
  obtain ⟨ts, haccounted⟩ := Accounted.exists_final g l
  obtain ⟨n, hpulled, hlexer⟩ := haccounted.tally.taken
  -- the token taken last closes the input, and it is the one in hand if there is one
  have hlast : c.pulled.getLast?.map Token.kind = some TokenKind.endOfInput := by
    rw [← haccounted.lastKind_of_done hdone]
    exact haccounted.tally.lastKind.symm
  obtain ⟨last, hget, hkind⟩ := Option.map_eq_some_iff.mp hlast
  have hmem : last ∈ (l.take n).1 := hpulled ▸ List.mem_of_getLast? hget
  refine ⟨n, ts, hpulled, hlexer, ?_, haccounted.tally.pulled, fun t ht => ?_,
    haccounted.history, haccounted.history.perm⟩
  · have hprefix := Lexer.tokenize_prefix_take l hmem ((Token.isEndOfInput_iff last).mpr hkind)
    exact hpulled ▸ hprefix
  · have htally : c.pulled = ts ++ c.look.toList := haccounted.tally.pulled
    rw [Option.mem_def.mp ht, Option.toList_some] at htally
    rw [htally, List.getLast?_concat] at hget
    rw [Option.some.inj hget, hkind]

open Template in
/-- A tag is closed that was not opened: what follows is refused, the closing token is in hand. -/
theorem tokens_accounted_stray :
    let l := lexer "a\\@\x7db"
    let c := final grammar l
    parse? grammar l = some (.error [.unexpected ⟨.closeKey, "\\@\x7d", 1, 2⟩ .endOfInput,
      .unexpected ⟨.content, "b", 1, 5⟩ .endOfInput, .prematureEnd]) ∧
    ∃ n ts, c.pulled = (l.take n).1 ∧ c.lexer = (l.take n).2 ∧ l.tokenize <+: c.pulled ∧
      c.pulled = ts ++ c.look.toList ∧ (∀ t ∈ c.look, t.kind = TokenKind.endOfInput) ∧
      History grammar l ts c ∧ (c.met ++ c.refusals.filterMap ParseError.found?).Perm ts := by
  have hparse : parse? grammar (lexer "a\\@\x7db") = some (.error
      [.unexpected ⟨.closeKey, "\\@\x7d", 1, 2⟩ .endOfInput,
        .unexpected ⟨.content, "b", 1, 5⟩ .endOfInput, .prematureEnd]) := by rfl
  exact ⟨hparse, tokens_accounted hparse⟩

end TemplateCheck.Parser
