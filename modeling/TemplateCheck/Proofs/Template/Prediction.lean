import Mathlib.Data.List.Chain
import TemplateCheck.Proofs.Grammar.Derivation
import TemplateCheck.Template.Parsing

/-!
# The table of the template grammar

* `nonterminalOf`     the one nonterminal has all right-hand sides
* `Fits`              behind a nonterminal there is a closing tag or the end of the input
* `grammar_predicts`  the table has every entry that looking one token ahead asks for

Every right-hand side begins with a kind of its own or is empty, so only what can follow the
nonterminal has to be found out.  `Fits` holds of neighbours in everything that is derived.
-/

namespace TemplateCheck.Template

/-- the nonterminal of every right-hand side -/
def nonterminalOf (_production : Nat) : Nat := 0

/-- what can stand behind a symbol -/
def Fits : Symbol Kind → Symbol Kind → Prop
  | .terminal _, _ => True
  | .nonterminal _, s => s = .terminal .closeKey ∨ s = .terminal .endOfInput

theorem fits_terminal (k : Kind) (s : Symbol Kind) : Fits (.terminal k) s :=
  trivial

theorem not_fits_nonterminal (m n : Nat) : ¬ Fits (.nonterminal m) (.nonterminal n) :=
  fun h => h.elim nofun nofun

/-- Behind a right-hand side there can be whatever can be behind its nonterminal. -/
theorem isChain_rhs {n : Nat} {rhs v : List (Symbol Kind)}
    (rule : grammar.rulesOf nonterminalOf n rhs)
    (h : (Symbol.nonterminal n :: v).IsChain Fits) : (rhs ++ v).IsChain Fits := by
  obtain ⟨p, rfl, hp⟩ := rule
  have hmem : rhs ∈ grammar.productions := List.mem_of_getElem? hp
  have hclose : Fits (.nonterminal 0) (.terminal .closeKey) := Or.inl rfl
  simp only [grammar, List.mem_cons, List.not_mem_nil, or_false] at hmem
  rcases hmem with rfl | rfl | rfl | rfl
  · exact .cons_cons (fits_terminal _ _) h
  · exact .cons_cons (fits_terminal _ _) h
  · exact .cons_cons (fits_terminal _ _) (.cons_cons hclose (.cons_cons (fits_terminal _ _) h))
  · exact h.tail

theorem isChain_step {ss ss' : List (Symbol Kind)}
    (hstep : (grammar.rulesOf nonterminalOf).Step ss ss') (h : ss.IsChain Fits) :
    ss'.IsChain Fits := by
  cases hstep with
  | @replace u v n rhs rule =>
    obtain ⟨hu, hv, hseam⟩ := List.isChain_append.mp h
    refine List.isChain_append.mpr ⟨hu, isChain_rhs rule hv, fun x hx y _ => ?_⟩
    -- a nonterminal does not stand before the one that is replaced
    have hx' := hseam x hx (.nonterminal n) rfl
    cases x with
    | terminal k => exact fits_terminal k y
    | nonterminal m => exact absurd hx' (not_fits_nonterminal m n)

theorem isChain_derives {ss ss' : List (Symbol Kind)}
    (hd : (grammar.rulesOf nonterminalOf).Derives ss ss') (h : ss.IsChain Fits) :
    ss'.IsChain Fits := by
  induction hd with
  | refl => exact h
  | tail _ hstep ih => exact isChain_step hstep ih

theorem kind_of_follow {n : Nat} {k : Kind}
    (h : (grammar.rulesOf nonterminalOf).Follow grammar.start n k) :
    k = .closeKey ∨ k = .endOfInput := by
  obtain ⟨u, v, hd⟩ := h
  have hstart : [Symbol.nonterminal grammar.start, .terminal TokenKind.endOfInput].IsChain Fits :=
    .cons_cons (Or.inr rfl) (.singleton _)
  have hchain := (List.isChain_append.mp (isChain_derives hd hstart)).2.1
  rcases (List.isChain_cons_cons.mp hchain).1 with hk | hk
  · exact Or.inl (Symbol.terminal.inj hk)
  · exact Or.inr (Symbol.terminal.inj hk)

/-- **The template grammar can be parsed with one token of look-ahead.** -/
theorem grammar_predicts : grammar.Predicts nonterminalOf := by
  intro p rhs hp k hk
  -- the kind at the front of a right-hand side, and what it selects
  have hfront (a : Kind) (ss : List (Symbol Kind)) (hrhs : rhs = .terminal a :: ss)
      (hcell : grammar.cell? 0 (terminalClass a) = some p) :
      grammar.cell? 0 (terminalClass k) = some p := by
    rcases hk with ⟨rest, hfirst⟩ | ⟨hnull, -⟩
    · rw [hrhs] at hfirst
      obtain ⟨ss', hss', -⟩ := hfirst.exists_of_terminal
      obtain ⟨ha, -⟩ := List.cons.inj hss'
      rw [Symbol.terminal.inj ha]
      exact hcell
    · rw [hrhs] at hnull
      obtain ⟨ss', hss', -⟩ := Rules.Derives.exists_of_terminal hnull
      cases hss'
  match p, hp with
  | 0, hp => exact hfront .content _ (Option.some.inj hp).symm rfl
  | 1, hp => exact hfront .placeholderKey _ (Option.some.inj hp).symm rfl
  | 2, hp => exact hfront .openKey _ (Option.some.inj hp).symm rfl
  | 3, hp =>
    obtain rfl : [] = rhs := Option.some.inj hp
    rcases hk with ⟨rest, hfirst⟩ | ⟨-, hfollow⟩
    · cases Rules.Derives.eq_nil_of_nil hfirst
    · rcases kind_of_follow hfollow with rfl | rfl
      · rfl
      · rfl

end TemplateCheck.Template
