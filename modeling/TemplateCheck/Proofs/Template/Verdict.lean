import TemplateCheck.Proofs.Parser.Ready
import TemplateCheck.Proofs.Template.Balance
import TemplateCheck.Proofs.Template.Tokens
import TemplateCheck.Template.Parsing

/-!
# What a parse says of a template

* `below d`           the stack under the nonterminal between two tokens, with `d` tags open
* `misfits ts`        the errors of the unrecognized tokens among `ts`
* `listed d ts`       the errors of the tokens `ts` that are met with `d` tags open
* `complaints es t`   all errors of a template whose tokens have the errors `es` and whose closing
                      token is `t`
* `WellFormed ts`     every token is recognized, and the tags are balanced
* `Settles`           the machine comes to its end over the tokens that are left, and is right

Between two tokens the machine is `Ready` over `below d`, and it takes one token in at most two
rounds (`ready_token`).  A closing tag that is met with no tag open leaves only the end of the input
to be met, so it is refused, and with it every token after it (`settles_stray`).
-/

namespace TemplateCheck.Template
open TemplateCheck.Parser TemplateCheck.Parser.Config

/-- The stack under the nonterminal between two tokens, with `depth` tags open. -/
def below : Nat → List (Symbol Kind)
  | 0 => [.terminal .endOfInput]
  | depth + 1 => .terminal .closeKey :: .nonterminal 0 :: below depth

/-- the tokens that are recognized -/
def fitting (ts : List (Token Kind)) : List (Token Kind) :=
  ts.filter fun t => t.kind ≠ .unrecognized

def misfits (ts : List (Token Kind)) : List (ParseError Kind) :=
  (ts.filter fun t => t.kind = .unrecognized).map .noProduction

/-- Up to the first closing tag that is met at depth 0 the unrecognized tokens, and then all. -/
def listed (depth : Nat) (ts : List (Token Kind)) : List (ParseError Kind) :=
  misfits (ts.take (untilStray depth (ts.map Token.kind))) ++
    (ts.drop (untilStray depth (ts.map Token.kind))).map fun t => .unexpected t .endOfInput

def WellFormed (ts : List (Token Kind)) : Prop :=
  (∀ t ∈ ts, t.kind ≠ .unrecognized) ∧ Balanced (ts.map Token.kind)

/-- Without an error of a token, a tag is open when the closing token comes. -/
def complaints (es : List (ParseError Kind)) (last : Token Kind) : List (ParseError Kind) :=
  es ++ (if es = [] then [.unexpected last .closeKey] else []) ++ [.prematureEnd]

/-! ## errors of tokens -/

theorem misfits_eq_nil_iff (ts : List (Token Kind)) :
    misfits ts = [] ↔ ∀ t ∈ ts, t.kind ≠ .unrecognized := by
  rw [misfits, List.map_eq_nil_iff, List.filter_eq_nil_iff]
  simp only [decide_eq_true_eq]

theorem fitting_of_misfits_eq_nil {ts : List (Token Kind)} (h : misfits ts = []) :
    fitting ts = ts := by
  rw [fitting, List.filter_eq_self]
  intro t ht
  exact decide_eq_true ((misfits_eq_nil_iff ts).mp h t ht)

theorem fitting_cons (t : Token Kind) (ts : List (Token Kind)) :
    fitting (t :: ts) = fitting [t] ++ fitting ts :=
  List.filter_append [t] ts

theorem misfits_cons (t : Token Kind) (ts : List (Token Kind)) :
    misfits (t :: ts) = misfits [t] ++ misfits ts := by
  rw [misfits, misfits, misfits, ← List.map_append, ← List.filter_append]
  rfl

theorem listed_nil (depth : Nat) : listed depth [] = [] := rfl

theorem listed_stray {t : Token Kind} (ht : t.kind = .closeKey) (ts : List (Token Kind)) :
    listed 0 (t :: ts) = (t :: ts).map fun t => .unexpected t .endOfInput := by
  rw [listed, List.map_cons, ht, untilStray_stray, List.take_zero, List.drop_zero]
  rfl

theorem listed_cons {depth : Nat} {t : Token Kind} (h : ¬ (t.kind = .closeKey ∧ depth = 0))
    (ts : List (Token Kind)) :
    listed depth (t :: ts) = misfits [t] ++ listed (depthAfter depth t.kind) ts := by
  rw [listed, List.map_cons, untilStray_cons h, List.take_succ_cons, List.drop_succ_cons,
    misfits_cons, List.append_assoc]
  rfl

/-- Where the tags are closed, only unrecognized tokens are errors. -/
theorem listed_of_closes {depth : Nat} {ts : List (Token Kind)}
    (h : Closes depth (ts.map Token.kind)) : listed depth ts = misfits ts := by
  rw [listed, untilStray_of_closes h, List.length_map, List.take_length, List.drop_length]
  exact List.append_nil _

theorem listed_eq_nil_iff (ts : List (Token Kind)) :
    listed 0 ts = [] ∧ Closes 0 (ts.map Token.kind) ↔ WellFormed ts := by
  rw [WellFormed, balanced_iff_closes]
  refine and_congr_left fun h => ?_
  rw [listed_of_closes h, misfits_eq_nil_iff]

theorem wellFormed_concat {ts : List (Token Kind)} {last : Token Kind}
    (hlast : last.kind = .endOfInput) : WellFormed (ts ++ [last]) ↔ WellFormed ts := by
  have hcloses : Balanced ((ts ++ [last]).map Token.kind) ↔ Balanced (ts.map Token.kind) := by
    rw [List.map_append, List.map_singleton, hlast, balanced_iff_closes, balanced_iff_closes,
      closes_concat_endOfInput]
  have hrec : (∀ t ∈ ts ++ [last], t.kind ≠ .unrecognized) ↔ ∀ t ∈ ts, t.kind ≠ .unrecognized := by
    simp [or_imp, forall_and, hlast]
  rw [WellFormed, WellFormed, hcloses, hrec]

/-! ## one token -/

variable {c : Config Kind} {l : Lexer Kind} {depth : Nat} {ms : List (Token Kind)}
  {es : List (ParseError Kind)}

/-- **A token in two rounds.**  It is met or, if it is unrecognized, dropped. -/
theorem ready_token (h : c.Ready (.nonterminal 0 :: below depth) l ms es)
    (hend : l.next.1.kind ≠ .endOfInput) (hstray : ¬ (l.next.1.kind = .closeKey ∧ depth = 0)) :
    ∃ n ≤ 2, (c.run grammar n).Ready (.nonterminal 0 :: below (depthAfter depth l.next.1.kind))
      l.next.2 (ms ++ fitting [l.next.1]) (es ++ misfits [l.next.1]) := by
  by_cases hun : l.next.1.kind = .unrecognized
  · have hround : c.run grammar 1 = c.round grammar := by rw [run_succ h.done, run_zero]
    have hfit : fitting [l.next.1] = [] := by simp [fitting, hun]
    have hmis : misfits [l.next.1] = [.noProduction l.next.1] := by simp [misfits, hun]
    refine ⟨1, by decide, ?_⟩
    rw [hround, hfit, hmis, hun, List.append_nil]
    exact h.skip (by rw [hun]; rfl) hend
  · have hfit : fitting [l.next.1] = [l.next.1] := by simp [fitting, hun]
    have hmis : misfits [l.next.1] = [] := by simp [misfits, hun]
    refine ⟨2, Nat.le_refl 2, ?_⟩
    rw [hfit, hmis, List.append_nil]
    -- the right-hand side is the one that begins with the token, or the empty one
    cases hk : l.next.1.kind with
    | content => exact h.take (by rw [hk]; rfl) (by rw [hk]; rfl) hend
    | placeholderKey => exact h.take (by rw [hk]; rfl) (by rw [hk]; rfl) hend
    | openKey => exact h.take (by rw [hk]; rfl) (by rw [hk]; rfl) hend
    | closeKey =>
      cases depth with
      | zero => exact absurd ⟨hk, rfl⟩ hstray
      | succ depth => exact h.take (by rw [hk]; rfl) (by rw [hk]; rfl) hend
    | endOfInput => exact absurd hk hend
    | unrecognized => exact absurd hk hun

/-- Before a closing tag and at the end of the input a sequence of nodes is over. -/
theorem holds_below (h : c.Ready (.nonterminal 0 :: below depth) l ms es)
    (hk : l.next.1.kind = .closeKey ∨ l.next.1.kind = .endOfInput) :
    (c.round grammar).Holds (below depth) l ms es := by
  have hp : grammar.productionFor? 0 l.next.1.kind = some [] := by
    rcases hk with hk | hk
    · rw [hk]
      rfl
    · rw [hk]
      rfl
  exact h.expand hp

/-! ## runs -/

/-- The machine is at its end: if all is well, it has met the tokens `ms` and the closing token, and
else it has reported every error. -/
structure Settled (c : Config Kind) (ok : Prop) (last : Token Kind) (ms : List (Token Kind))
    (es : List (ParseError Kind)) : Prop where
  done : c.done = true
  accepted : ok → c.errors = [] ∧ c.met = ms ++ [last]
  rejected : ¬ ok → c.errors = complaints es last

/-- At most two rounds for each token that is left lead to the end. -/
def Settles (c : Config Kind) (depth : Nat) (ts : List (Token Kind)) (last : Token Kind)
    (ms : List (Token Kind)) (es : List (ParseError Kind)) : Prop :=
  ∃ n ≤ 2 * (ts.length + 1), Settled (c.run grammar n)
    (es ++ listed depth ts = [] ∧ Closes depth (ts.map Token.kind)) last (ms ++ fitting ts)
    (es ++ listed depth ts)

theorem settles_token {n : Nat} (hn : n ≤ 2) {t last : Token Kind} {ts : List (Token Kind)}
    (hstray : ¬ (t.kind = .closeKey ∧ depth = 0))
    (h : Settles (c.run grammar n) (depthAfter depth t.kind) ts last (ms ++ fitting [t])
      (es ++ misfits [t])) :
    Settles c depth (t :: ts) last ms es := by
  obtain ⟨m, hm, hsettled⟩ := h
  have hcloses : Closes depth ((t :: ts).map Token.kind) ↔
      Closes (depthAfter depth t.kind) (ts.map Token.kind) :=
    ⟨fun hc => hc.2, fun hc => ⟨hstray, hc⟩⟩
  refine ⟨n + m, ?_, ?_⟩
  · rw [List.length_cons]
    omega
  · rw [run_add, listed_cons hstray, ← List.append_assoc es, fitting_cons, hcloses,
      ← List.append_assoc ms]
    exact hsettled

/-- A stray closing tag is refused, and all that comes after it. -/
theorem settles_stray (h : c.Ready (.nonterminal 0 :: below 0) l ms es) {t last : Token Kind}
    {ts : List (Token Kind)} (ht : t.kind = .closeKey) (hl : l.tokenize = t :: (ts ++ [last])) :
    Settles c 0 (t :: ts) last ms es := by
  obtain ⟨rfl, hend, hrest⟩ := Lexer.next_of_tokenize_cons hl
  have hholds := holds_below h (Or.inl ht)
  have hgo : (c.round grammar).done = false := by
    rw [hholds.done, Bool.eq_false_iff.mpr hend, Bool.and_false]
  have hrefuse := hholds.refuse (g := grammar) (by rw [ht]; decide)
  obtain ⟨n, hn, hdone, l', hlast⟩ :=
    hrefuse.drain (g := grammar) (List.append_ne_nil_of_right_ne_nil es (by simp)) hrest
  have hrun : c.run grammar (n + 1 + 1) = ((c.round grammar).round grammar).run grammar n := by
    rw [run_succ h.done, run_succ hgo]
  have hne : es ++ listed 0 (l.next.1 :: ts) ≠ [] := by
    rw [listed_stray ht]
    exact List.append_ne_nil_of_right_ne_nil es (by simp)
  refine ⟨n + 1 + 1, ?_, ?_, fun hok => absurd hok.1 hne, fun _ => ?_⟩
  · rw [List.length_cons]
    omega
  · rw [hrun]
    exact hdone
  · rw [hrun, hlast.errors, complaints, if_neg hne, listed_stray ht, List.append_nil,
      ← List.append_cons]
    rfl

/-- Where no tag is open and no token was refused, the closing token is met. -/
theorem settles_last_accepted (h : c.Ready (.nonterminal 0 :: below 0) l ms [])
    (hend : l.next.1.kind = .endOfInput) : Settles c 0 [] l.next.1 ms [] := by
  have hholds := holds_below h (Or.inr hend)
  have hgo : (c.round grammar).done = false := by rw [hholds.done]; rfl
  have hrun : c.run grammar 2 = (c.round grammar).round grammar := by
    rw [run_succ h.done, run_succ hgo, run_zero]
  have hmeet := hholds.awaits.meet (g := grammar) hend
  have hempty : ((c.round grammar).round grammar).stack.isEmpty = true := by
    rw [Stack.isEmpty, hmeet.items]
    rfl
  refine ⟨2, by decide, ?_, fun _ => ⟨?_, ?_⟩, fun hok => absurd ⟨rfl, rfl⟩ hok⟩
  · rw [hrun]
    exact done_of_items_eq_nil hmeet.items
  · rw [hrun]
    exact (errors_eq_nil_iff _).mpr ⟨hempty, hmeet.refusals⟩
  · rw [hrun, hmeet.met]
    show ms ++ [l.next.1] = ms ++ [] ++ [l.next.1]
    rw [List.append_nil]

/-- Where a tag is open and no token was refused, the closing token is refused. -/
theorem settles_last_open (ha : l.automaton = automaton)
    (h : c.Ready (.nonterminal 0 :: below (depth + 1)) l ms [])
    (hend : l.next.1.kind = .endOfInput) : Settles c (depth + 1) [] l.next.1 ms [] := by
  have hholds := holds_below h (Or.inr hend)
  have hgo : (c.round grammar).done = false := by rw [hholds.done]; rfl
  have hrun : c.run grammar 2 = (c.round grammar).round grammar := by
    rw [run_succ h.done, run_succ hgo, run_zero]
  have hrefuse := hholds.refuse (g := grammar) (by rw [hend]; decide)
  -- the lexer stays at the end, so the token after the refused one closes the input as well
  have hagain : l.next.2.next.1.isEndOfInput = true := by
    have hnil := (kind_next_eq_endOfInput_iff ha).mp hend
    rw [Lexer.next_of_rest_eq_nil l hnil]
    exact (isEndOfInput_next_iff ha).mpr hnil
  refine ⟨2, by decide, ?_, fun hok => absurd hok.2 (Nat.succ_ne_zero depth), fun _ => ?_⟩
  · rw [hrun, hrefuse.done, hagain]
    rfl
  · rw [hrun, hrefuse.errors]
    rfl

/-- Where a token was refused, the machine stops as soon as it sees the closing token. -/
theorem settles_last_refused (h : c.Ready (.nonterminal 0 :: below depth) l ms es) (hes : es ≠ [])
    (hend : l.next.1.kind = .endOfInput) : Settles c depth [] l.next.1 ms es := by
  obtain ⟨s, stack, hs⟩ : ∃ s stack, below depth = s :: stack := by
    cases depth with
    | zero => exact ⟨_, _, rfl⟩
    | succ depth => exact ⟨_, _, rfl⟩
  have hholds := holds_below h (Or.inr hend)
  rw [hs] at hholds
  have hround : c.run grammar 1 = c.round grammar := by rw [run_succ h.done, run_zero]
  have heoi : l.next.1.isEndOfInput = true := (Token.isEndOfInput_iff _).mpr hend
  have hne : es ++ listed depth [] ≠ [] := by rwa [listed_nil, List.append_nil]
  refine ⟨1, by decide, ?_, fun hok => absurd hok.1 hne, fun _ => ?_⟩
  · rw [hround, hholds.done, heoi, List.isEmpty_eq_false_iff.mpr hes]
    rfl
  · rw [hround, hholds.errors, complaints, if_neg hne, listed_nil, List.append_nil,
      List.append_nil]

theorem settles {ts : List (Token Kind)} {last : Token Kind} (ha : l.automaton = automaton)
    (h : c.Ready (.nonterminal 0 :: below depth) l ms es) (hl : l.tokenize = ts ++ [last]) :
    Settles c depth ts last ms es := by
  induction ts generalizing c l depth ms es with
  | nil =>
    obtain ⟨rfl, heoi⟩ := Lexer.next_of_tokenize_singleton hl
    have hend : l.next.1.kind = .endOfInput := (Token.isEndOfInput_iff _).mp heoi
    by_cases hes : es = []
    · subst hes
      cases depth with
      | zero => exact settles_last_accepted h hend
      | succ depth => exact settles_last_open ha h hend
    · exact settles_last_refused h hes hend
  | cons t ts ih =>
    by_cases hstray : t.kind = .closeKey ∧ depth = 0
    · obtain ⟨ht, rfl⟩ := hstray
      exact settles_stray h ht hl
    · obtain ⟨rfl, heoi, hrest⟩ := Lexer.next_of_tokenize_cons hl
      have hend : l.next.1.kind ≠ .endOfInput := fun he => heoi ((Token.isEndOfInput_iff _).mpr he)
      obtain ⟨n, hn, hready⟩ := ready_token h hend hstray
      exact settles_token hn hstray (ih ((Lexer.automaton_next l).trans ha) hready hrest)

/-! ## whole templates -/

theorem le_roundBound (bytes : Nat) : 2 * (bytes + 1) ≤ roundBound grammar bytes := by
  have hwidth : grammar.maxWidth = 4 := rfl
  have hrows : grammar.table.length = 1 := rfl
  rw [roundBound, hwidth, hrows]
  calc 2 * (bytes + 1) ≤ (bytes + 3) * 2 := by omega
    _ ≤ (bytes + 3) * ((2 + (bytes + 3) * 1 * 4) * 25 + 1) :=
      Nat.mul_le_mul_left _ (by omega)

/-- **The machine comes to its end over every template.** -/
theorem settled_final {source : String} {ts : List (Token Kind)} {last : Token Kind}
    (htok : tokenize source = ts ++ [last]) :
    Settled (final source) (WellFormed ts) last (fitting ts) (listed 0 ts) := by
  have hstart : (start grammar (lexer source)).Ready (.nonterminal 0 :: below 0) (lexer source)
      [] [] := ready_start grammar (lexer source)
  obtain ⟨n, hn, hsettled⟩ := settles rfl hstart htok
  have hle : n ≤ roundBound grammar (lexer source).rest.length := by
    have hbound := le_roundBound (lexer source).rest.length
    have hlen := Lexer.length_tokenize_le (lexer source)
    rw [show (lexer source).tokenize = _ from htok, List.length_append,
      List.length_singleton] at hlen
    omega
  have hfinal : final source = (start grammar (lexer source)).run grammar n :=
    run_of_le hle hsettled.done
  rw [hfinal, ← listed_eq_nil_iff]
  exact hsettled

theorem parse?_eq (source : String) :
    Parser.parse? grammar (lexer source) = some (parse source) := by
  obtain ⟨ts, last, htok, -⟩ := exists_tokenize source
  exact if_pos (settled_final htok).done

theorem complaints_ne_nil (es : List (ParseError Kind)) (last : Token Kind) :
    complaints es last ≠ [] :=
  List.append_ne_nil_of_right_ne_nil _ (List.cons_ne_nil _ _)

section
variable {ok : Prop} {last : Token Kind}

theorem Settled.verdict_of_ok (h : Settled c ok last ms es) (hok : ok)
    (hlast : last.kind = .endOfInput) (hms : ∀ t ∈ ms, t.kind ≠ .endOfInput) :
    c.verdict = .ok ms := by
  obtain ⟨hnone, hmet⟩ := h.accepted hok
  refine verdict_of_met hnone hmet ((Token.isEndOfInput_iff _).mpr hlast) fun t ht hend => ?_
  exact hms t ht ((Token.isEndOfInput_iff _).mp hend)

theorem Settled.verdict_of_not (h : Settled c ok last ms es) (hok : ¬ ok) :
    c.verdict = .error (complaints es last) := by
  have hne : (complaints es last).isEmpty = false :=
    List.isEmpty_eq_false_iff.mpr (complaints_ne_nil es last)
  rw [verdict, h.rejected hok, hne]
  rfl

end

section
variable {source : String} {ts : List (Token Kind)} {last : Token Kind}
  (htok : tokenize source = ts ++ [last])
include htok

theorem parse_of_wellFormed (h : WellFormed ts) : parse source = .ok ts := by
  obtain ⟨hlast, hts⟩ := kind_of_tokenize htok
  have hfit : fitting ts = ts := fitting_of_misfits_eq_nil ((misfits_eq_nil_iff ts).mpr h.1)
  have hsettled := settled_final htok
  rw [hfit] at hsettled
  exact hsettled.verdict_of_ok h hlast hts

theorem parse_of_not_wellFormed (h : ¬ WellFormed ts) :
    parse source = .error (complaints (listed 0 ts) last) :=
  (settled_final htok).verdict_of_not h

theorem parse_eq_ok_iff_wellFormed (result : List (Token Kind)) :
    parse source = .ok result ↔ WellFormed ts ∧ result = ts := by
  by_cases h : WellFormed ts
  · rw [parse_of_wellFormed htok h, Except.ok.injEq]
    exact ⟨fun hr => ⟨h, hr.symm⟩, fun hr => hr.2.symm⟩
  · rw [parse_of_not_wellFormed htok h]
    exact ⟨nofun, fun hr => absurd hr.1 h⟩

theorem parse_eq_error_iff_not_wellFormed (es : List (ParseError Kind)) :
    parse source = .error es ↔ ¬ WellFormed ts ∧ es = complaints (listed 0 ts) last := by
  by_cases h : WellFormed ts
  · rw [parse_of_wellFormed htok h]
    exact ⟨nofun, fun hr => absurd h hr.1⟩
  · rw [parse_of_not_wellFormed htok h, Except.error.injEq]
    exact ⟨fun hr => ⟨h, hr.symm⟩, fun hr => hr.2.symm⟩

end

/-- **A template is accepted exactly if every token is recognized and the tags are balanced.**  The
result is then the token sequence without its closing token. -/
theorem parse_eq_ok_iff (source : String) :
    Parser.parse? grammar (lexer source) = some (parse source) ∧
      ∃ ts last, tokenize source = ts ++ [last] ∧ last.kind = .endOfInput ∧
        (∀ t ∈ ts, t.kind ≠ .endOfInput) ∧
        ∀ result, parse source = .ok result ↔
          ((∀ t ∈ tokenize source, t.kind ≠ .unrecognized) ∧
            Balanced ((tokenize source).map Token.kind)) ∧ result = ts := by
  obtain ⟨ts, last, htok, -⟩ := exists_tokenize source
  obtain ⟨hlast, hts⟩ := kind_of_tokenize htok
  refine ⟨parse?_eq source, ts, last, htok, hlast, hts, fun result => ?_⟩
  rw [parse_eq_ok_iff_wellFormed htok, htok, ← wellFormed_concat hlast]
  exact Iff.rfl

/-- **Every error of a template that is not accepted**, in order, and what each one shows. -/
theorem parse_eq_error_iff (source : String) :
    ∃ ts last, tokenize source = ts ++ [last] ∧ last.kind = .endOfInput ∧
      (∀ t ∈ ts, t.kind ≠ .endOfInput) ∧
      (∀ es, parse source = .error es ↔
        ¬ WellFormed (tokenize source) ∧ es = complaints (listed 0 ts) last) ∧
      ∀ e ∈ complaints (listed 0 ts) last,
        (∃ t, (e = .noProduction t ∨ ∃ k, e = .unexpected t k) ∧
          e.value? = some (String.ofList (t.text.toList.take 20))) ∨
        e = .prematureEnd ∧ e.value? = none := by
  obtain ⟨ts, last, htok, -⟩ := exists_tokenize source
  obtain ⟨hlast, hts⟩ := kind_of_tokenize htok
  refine ⟨ts, last, htok, hlast, hts, fun es => ?_, fun e _ => ?_⟩
  · rw [parse_eq_error_iff_not_wellFormed htok, htok, wellFormed_concat hlast]
  · rcases e.about with ⟨t, ht, -, hvalue⟩ | ⟨hend, -, hvalue⟩
    · exact Or.inl ⟨t, ht, hvalue⟩
    · exact Or.inr ⟨hend, hvalue⟩

end TemplateCheck.Template
