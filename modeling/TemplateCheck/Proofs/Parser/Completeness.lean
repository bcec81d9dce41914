import TemplateCheck.Proofs.Parser.RoundBound
import TemplateCheck.Proofs.Template.Prediction

/-!
# What can be derived is accepted

* `productionFor?_of_yields`   before a token that goes on with a leftmost derivation, the table
                               names the right-hand side that the derivation uses
* `Awaits.run_yields`          so the machine follows the derivation, over all tokens of a word
* `parse?_complete`            and accepts every sentence whose grammar can be predicted

The number of rounds is the length of the derivation, and every run that ends is within the bound.
-/

namespace TemplateCheck.Parser

variable {K : Type} [TokenKind K] {g : Grammar K} {lhs : Nat → Nat}

/-- **The table knows the next rule.**  If a right-hand side and what is below it derive the kinds
that are left, it is the one for the first of these kinds, or for the end of the input if none is
left. -/
theorem productionFor?_of_yields (hg : g.Predicts lhs) {p : Nat} {rhs ss u : List (Symbol K)}
    {w : List K} {k : K} (hp : g.productions[p]? = some rhs)
    (hviable : (g.rulesOf lhs).Derives [.nonterminal g.start, .terminal TokenKind.endOfInput]
      (u ++ .nonterminal (lhs p) :: (ss ++ [.terminal TokenKind.endOfInput])))
    (hyields : (g.rulesOf lhs).Yields (rhs ++ ss) w)
    (hk : (w ++ [TokenKind.endOfInput]).head? = some k) :
    g.productionFor? (lhs p) k = some rhs := by
  obtain ⟨w₁, w₂, rfl, hrhs, hss⟩ := hyields.exists_append
  have hcell : g.cell? (lhs p) (g.terminalClass k) = some p := by
    refine hg p rhs hp k ?_
    cases w₁ with
    | cons k' w₁ =>
      obtain rfl : k' = k := Option.some.inj hk
      exact Or.inl ⟨w₁.map .terminal, hrhs.derives⟩
    | nil =>
      refine Or.inr ⟨hrhs.derives, ?_⟩
      -- what is below vanishes or begins with `k`, and `k` comes right behind the nonterminal
      obtain ⟨v, hv⟩ : ∃ v, w₂ ++ [TokenKind.endOfInput] = k :: v := List.head?_eq_some_iff.mp hk
      have hbelow := hss.derives.append_right [.terminal TokenKind.endOfInput]
      have hword : w₂.map Symbol.terminal ++ [.terminal TokenKind.endOfInput] =
          .terminal k :: v.map .terminal := by
        rw [← List.map_singleton, ← List.map_append, hv, List.map_cons]
      rw [hword] at hbelow
      exact ⟨u, v.map .terminal, hviable.trans ((hbelow.append_left [_]).append_left u)⟩
  rw [Grammar.productionFor?_of_cell? hcell, hp]

variable [DecidableEq K]

namespace Config

/-- **The machine follows a leftmost derivation.**  Before the end of the input it meets the tokens
of a word that the symbols on its stack derive. -/
theorem Awaits.run_yields (hg : g.Predicts lhs) {c : Config K} {ss : List (Symbol K)} {w : List K}
    {l : Lexer K} {ms ts : List (Token K)} {last : Token K}
    (hyields : (g.rulesOf lhs).Yields ss w)
    (h : c.Awaits (ss ++ [.terminal TokenKind.endOfInput]) l ms [])
    (hl : l.tokenize = ts ++ [last]) (hw : ts.map Token.kind = w)
    (hviable : (g.rulesOf lhs).Derives [.nonterminal g.start, .terminal TokenKind.endOfInput]
      ((ms.map Token.kind).map .terminal ++ (ss ++ [.terminal TokenKind.endOfInput]))) :
    ∃ n l', (c.run g n).Awaits [.terminal TokenKind.endOfInput] l' (ms ++ ts) [] ∧
      l'.tokenize = [last] := by
  induction hyields generalizing c l ms ts with
  | nil =>
    obtain rfl := List.map_eq_nil_iff.mp hw
    refine ⟨0, l, ?_, hl⟩
    rw [List.append_nil]
    exact h
  | @terminal k ss w _ ih =>
    obtain ⟨t, ts, rfl, hkind, htail⟩ := List.map_eq_cons_iff.mp hw
    obtain ⟨rfl, -, hrest⟩ := Lexer.next_of_tokenize_cons hl
    have hviable' : (g.rulesOf lhs).Derives
        [.nonterminal g.start, .terminal TokenKind.endOfInput]
        (((ms ++ [l.next.1]).map Token.kind).map .terminal ++
          (ss ++ [.terminal TokenKind.endOfInput])) := by
      rw [List.map_append, List.map_append, List.map_singleton, hkind, List.append_assoc]
      exact hviable
    obtain ⟨n, l', hawaits, hl'⟩ := ih (h.meet (g := g) hkind).awaits hrest htail hviable'
    rw [List.append_assoc] at hawaits
    refine ⟨n + 1, l', ?_, hl'⟩
    rw [run_succ h.done]
    exact hawaits
  | @nonterminal n rhs ss w rule rest ih =>
    have hstep := rule
    obtain ⟨p, rfl, hp⟩ := rule
    rw [List.cons_append] at h hviable
    have hhead : (w ++ [TokenKind.endOfInput]).head? = some l.next.1.kind := by
      cases ts with
      | nil =>
        obtain ⟨rfl, hend⟩ := Lexer.next_of_tokenize_singleton hl
        rw [← hw, (Token.isEndOfInput_iff _).mp hend]
        rfl
      | cons t ts =>
        obtain ⟨rfl, -, -⟩ := Lexer.next_of_tokenize_cons hl
        rw [← hw]
        rfl
    have hp' := productionFor?_of_yields hg hp hviable rest hhead
    have hawaits := (h.expand hp').awaits
    rw [← List.append_assoc] at hawaits
    have hviable' := hviable.replace hstep
    rw [← List.append_assoc rhs] at hviable'
    obtain ⟨m, l', hlast, hl'⟩ := ih hawaits hl hw hviable'
    refine ⟨m + 1, l', ?_, hl'⟩
    rw [run_succ h.done]
    exact hlast

end Config

/-- **Every sentence of a grammar that can be predicted is accepted.**  If the kinds of the tokens
before the first one that closes the input are derived from the start symbol, and the table has
every entry that looking one token ahead asks for, the machine comes to its end and answers with
these tokens. -/
theorem parse?_complete (hg : g.Predicts lhs) {l : Lexer K} {ts : List (Token K)} {last : Token K}
    (hl : l.tokenize = ts ++ [last])
    (hw : (g.rulesOf lhs).Derives [.nonterminal g.start] ((ts.map Token.kind).map .terminal)) :
    parse? g l = some (.ok ts) := by
  have hstart : (Config.start g l).Awaits ([.nonterminal g.start] ++
      [.terminal TokenKind.endOfInput]) l [] [] := (Config.idle_start g l).awaits
  obtain ⟨n, l', hawaits, hl'⟩ := hstart.run_yields hg hw.yields hl rfl .refl
  obtain ⟨hlast, hend⟩ := Lexer.next_of_tokenize_singleton hl'
  have hmeet := hawaits.meet (g := g) ((Token.isEndOfInput_iff _).mp (hlast ▸ hend))
  rw [hlast, List.nil_append] at hmeet
  have hrun : (Config.start g l).run g (n + 1) = ((Config.start g l).run g n).round g := by
    rw [Config.run_add, Config.run_succ hawaits.done, Config.run_zero]
  have hempty : (((Config.start g l).run g n).round g).stack.isEmpty = true :=
    List.isEmpty_iff.mpr hmeet.items
  have hnone := (Config.errors_eq_nil_iff _).mpr ⟨hempty, hmeet.refusals⟩
  refine parse?_eq_some_iff_run.mpr ⟨n + 1, ?_, ?_⟩
  · rw [hrun]
    exact Config.done_of_items_eq_nil hmeet.items
  · rw [hrun]
    exact Config.verdict_of_met hnone hmeet.met hend (Lexer.isEndOfInput_of_tokenize hl).2

open Template in
theorem parse?_complete_nested :
    let l := lexer "\\@a\x7bb\\@\x7d"
    let ts : List (Token Kind) :=
      [⟨.openKey, "\\@a\x7b", 1, 1⟩, ⟨.content, "b", 1, 5⟩, ⟨.closeKey, "\\@\x7d", 1, 6⟩]
    grammar.Predicts nonterminalOf ∧ l.tokenize = ts ++ [⟨.endOfInput, "", 1, 9⟩] ∧
      (grammar.rulesOf nonterminalOf).Derives [.nonterminal grammar.start]
        ((ts.map Token.kind).map .terminal) ∧
      parse? grammar l = some (.ok ts) := by
  intro l ts
  have hl : l.tokenize = ts ++ [⟨.endOfInput, "", 1, 9⟩] :=
    Lexer.tokenize_of_take (by rfl) rfl (by decide)
  have hempty : grammar.rulesOf nonterminalOf 0 [] := ⟨3, rfl, rfl⟩
  have hcontent : grammar.rulesOf nonterminalOf 0 [.terminal .content, .nonterminal 0] :=
    ⟨0, rfl, rfl⟩
  have htag : grammar.rulesOf nonterminalOf 0
      [.terminal .openKey, .nonterminal 0, .terminal .closeKey, .nonterminal 0] := ⟨2, rfl, rfl⟩
  have hyields : (grammar.rulesOf nonterminalOf).Yields [.nonterminal 0]
      [.openKey, .content, .closeKey] :=
    .nonterminal htag <| .terminal _ <| .nonterminal hcontent <| .terminal _ <|
      .nonterminal hempty <| .terminal _ <| .nonterminal hempty .nil
  exact ⟨grammar_predicts, hl, hyields.derives, parse?_complete grammar_predicts hl hyields.derives⟩

end TemplateCheck.Parser
