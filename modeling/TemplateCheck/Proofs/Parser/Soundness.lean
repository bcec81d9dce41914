import TemplateCheck.Proofs.Grammar.Derivation
import TemplateCheck.Proofs.Parser.Ready
import TemplateCheck.Template.Parsing

/-!
# What the machine accepts can be derived

* `Config.Sound g l₀ c`   the tokens that were met, and behind them the symbols on the stack, are
                          derived from the start symbol
* `Sound.round`           every round keeps that
* `parse?_sound`          so the tokens of a successful parse are a sentence, and they are all there
                          are before the end of the input

Nothing is asked of the table.  Where the end of the input is in no right-hand side, it is met at
the bottom of the stack or not at all.
-/

namespace TemplateCheck.Parser

variable {K : Type} [DecidableEq K] [TokenKind K]

namespace Config

/-- Either a token was refused, or those that were met so far begin what `l₀` yields and together
with the stack are derived from the start symbol; and if the stack is empty, they are all. -/
inductive Sound (g : Grammar K) (l₀ : Lexer K) (c : Config K) : Prop where
  | refused (refusals : c.refusals ≠ [])
  | underway {ss : List (Symbol K)} {l : Lexer K} {ms : List (Token K)}
    (awaits : c.Awaits (ss ++ [.terminal TokenKind.endOfInput]) l ms [])
    (tokens : l₀.tokenize = ms ++ l.tokenize)
    (endFree : .terminal TokenKind.endOfInput ∉ ss)
    (derives : g.rules.Derives [.nonterminal g.start] ((ms.map Token.kind).map .terminal ++ ss))
  | complete {k : Option K} {l : Lexer K} {ms : List (Token K)} {last : Token K}
    (idle : c.Idle k [] l (ms ++ [last]) [])
    (tokens : l₀.tokenize = ms ++ [last])
    (derives : g.rules.Derives [.nonterminal g.start] ((ms.map Token.kind).map .terminal))

variable {g : Grammar K} {l₀ l : Lexer K} {c : Config K} {ss : List (Symbol K)}
  {ms : List (Token K)}

theorem sound_start (g : Grammar K) (l₀ : Lexer K) : (start g l₀).Sound g l₀ := by
  have hawaits : (start g l₀).Awaits ([.nonterminal g.start] ++ [.terminal TokenKind.endOfInput])
      l₀ [] [] := (idle_start g l₀).awaits
  exact .underway hawaits rfl (by simp) .refl

theorem sound_of_refusal {es : List (ParseError K)} {e : ParseError K}
    (h : c.refusals = es ++ [e]) : c.Sound g l₀ := by
  refine .refused ?_
  rw [h]
  exact List.append_ne_nil_of_right_ne_nil es (List.cons_ne_nil e [])

section
variable (tokens : l₀.tokenize = ms ++ l.tokenize)
  (endFree : .terminal TokenKind.endOfInput ∉ ss)
include tokens

/-- The end of the input is all that is left to be met. -/
theorem sound_bottom (h : c.Awaits [.terminal TokenKind.endOfInput] l ms [])
    (derives : g.rules.Derives [.nonterminal g.start] ((ms.map Token.kind).map .terminal)) :
    (c.round g).Sound g l₀ := by
  by_cases hk : l.next.1.kind = TokenKind.endOfInput
  · refine .complete (h.meet hk) ?_ derives
    rw [tokens, Lexer.tokenize_of_isEndOfInput ((Token.isEndOfInput_iff _).mpr hk)]
  · exact sound_of_refusal (h.refuse hk).refusals

include endFree

theorem sound_terminal {k : K} (hk : k ≠ TokenKind.endOfInput)
    (h : c.Awaits (.terminal k :: (ss ++ [.terminal TokenKind.endOfInput])) l ms [])
    (derives : g.rules.Derives [.nonterminal g.start]
      ((ms.map Token.kind).map .terminal ++ .terminal k :: ss)) :
    (c.round g).Sound g l₀ := by
  by_cases hmeet : l.next.1.kind = k
  · have hend : ¬ l.next.1.isEndOfInput = true := by
      rw [Token.isEndOfInput_iff, hmeet]
      exact hk
    refine .underway (h.meet hmeet).awaits ?_ endFree ?_
    · rw [tokens, Lexer.tokenize_of_not_isEndOfInput hend, List.append_cons]
    · rw [List.map_append, List.map_append, List.map_singleton, hmeet, List.append_assoc]
      exact derives
  · exact sound_of_refusal (h.refuse hmeet).refusals

theorem sound_nonterminal (hg : g.EndFree) {n : Nat}
    (h : c.Awaits (.nonterminal n :: (ss ++ [.terminal TokenKind.endOfInput])) l ms [])
    (derives : g.rules.Derives [.nonterminal g.start]
      ((ms.map Token.kind).map .terminal ++ .nonterminal n :: ss)) :
    (c.round g).Sound g l₀ := by
  cases hp : g.productionFor? n l.next.1.kind with
  | none => exact sound_of_refusal (h.skip hp).refusals
  | some rhs =>
    have hawaits := (h.expand hp).awaits
    rw [← List.append_assoc] at hawaits
    refine .underway hawaits tokens ?_ (derives.replace (Grammar.rules_of_productionFor? hp))
    have hrhs := hg rhs (Grammar.mem_productions_of_productionFor? hp)
    exact fun hmem => (List.mem_append.mp hmem).elim hrhs endFree

end

/-- **One round.** -/
theorem Sound.round (hg : g.EndFree) (h : c.Sound g l₀) (hdone : c.done = false) :
    (c.round g).Sound g l₀ := by
  cases h with
  | refused refusals =>
    refine .refused fun hnil => refusals ?_
    have hprefix := refusals_round g c
    rw [hnil] at hprefix
    exact List.prefix_nil.mp hprefix
  | @underway ss l ms awaits tokens endFree derives =>
    match ss with
    | [] =>
      rw [List.append_nil] at derives
      exact sound_bottom tokens awaits derives
    | .terminal k :: ss =>
      have hk : k ≠ TokenKind.endOfInput := fun he => endFree (he ▸ List.mem_cons_self)
      exact sound_terminal tokens (fun hmem => endFree (List.mem_cons_of_mem _ hmem)) hk awaits
        derives
    | .nonterminal n :: ss =>
      exact sound_nonterminal tokens (fun hmem => endFree (List.mem_cons_of_mem _ hmem)) hg awaits
        derives
  | complete idle _ _ =>
    -- the machine stops on an empty stack
    rw [Config.done, Stack.isEmpty, idle.items] at hdone
    cases hdone

theorem sound_final (hg : g.EndFree) (l₀ : Lexer K) : (final g l₀).Sound g l₀ :=
  run_induction (sound_start g l₀) (fun _ h hdone => h.round hg hdone) _

end Config

/-- **The tokens of a successful parse are a sentence of the grammar**, with the rules that its
table stands for, and they are exactly the tokens before the first one that closes the input. -/
theorem parse?_sound {g : Grammar K} (hg : g.EndFree) {l : Lexer K} {ts : List (Token K)}
    (h : parse? g l = some (.ok ts)) :
    g.rules.Derives [.nonterminal g.start] ((ts.map Token.kind).map .terminal) ∧
      ∃ last, l.tokenize = ts ++ [last] ∧ last.kind = TokenKind.endOfInput ∧
        ∀ t ∈ ts, t.kind ≠ TokenKind.endOfInput := by
  obtain ⟨-, hverdict⟩ := Config.parse?_eq_some_iff.mp h
  have hnone := Config.errors_of_verdict hverdict
  obtain ⟨hempty, hrefusals⟩ := (Config.errors_eq_nil_iff _).mp hnone
  cases Config.sound_final hg l with
  | refused refusals => exact absurd hrefusals refusals
  | underway awaits _ _ _ =>
    have hstack := List.isEmpty_iff.mp hempty
    rw [awaits.items] at hstack
    exact absurd hstack (List.append_ne_nil_of_right_ne_nil _ (List.cons_ne_nil _ _))
  | @complete k l' ms last idle tokens derives =>
    obtain ⟨hlast, hms⟩ := Lexer.isEndOfInput_of_tokenize tokens
    have hok := Config.verdict_of_met hnone idle.met hlast hms
    obtain rfl : ms = ts := Except.ok.inj (hok.symm.trans hverdict)
    refine ⟨derives, last, tokens, (Token.isEndOfInput_iff _).mp hlast, fun t ht hk => ?_⟩
    exact hms t ht ((Token.isEndOfInput_iff _).mpr hk)

open Template in
theorem parse?_sound_nested :
    grammar.EndFree ∧
      parse? grammar (lexer "\\@a\x7bb\\@\x7d\n\\@k") = some (.ok
        [⟨.openKey, "\\@a\x7b", 1, 1⟩, ⟨.content, "b", 1, 5⟩, ⟨.closeKey, "\\@\x7d", 1, 6⟩,
          ⟨.content, "\n", 1, 9⟩, ⟨.placeholderKey, "\\@k", 2, 1⟩]) ∧
      grammar.rules.Derives [.nonterminal 0]
        [.terminal .openKey, .terminal .content, .terminal .closeKey, .terminal .content,
          .terminal .placeholderKey] := by
  have hg : grammar.EndFree := by decide
  have hparse : parse? grammar (lexer "\\@a\x7bb\\@\x7d\n\\@k") = some (.ok
      [⟨.openKey, "\\@a\x7b", 1, 1⟩, ⟨.content, "b", 1, 5⟩, ⟨.closeKey, "\\@\x7d", 1, 6⟩,
        ⟨.content, "\n", 1, 9⟩, ⟨.placeholderKey, "\\@k", 2, 1⟩]) := by rfl
  exact ⟨hg, hparse, (parse?_sound hg hparse).1⟩

end TemplateCheck.Parser
