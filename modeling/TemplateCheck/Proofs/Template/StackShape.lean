import TemplateCheck.Proofs.Template.Verdict

/-!
# The stack of the template parser

* `foundation d`     what a parse with `d` tags open still has to meet once the innermost sequence of
                     nodes is over, from the bottom of the stack up
* `Crown symbols`    what may stand above it
* `metOf c k`        how many tokens of a kind have been met
* `Shaped c d`       the stack is a crown on the foundation for `d` open tags, and `d` is the number of
                     tags that were met and not closed since
* `Shaped.round`     every round keeps that shape, whether or not tokens have been refused before
* `stack_shape`      so it holds throughout a run

A token that is refused leaves the stack as it is, so the shape needs no case of its own for recovery.
-/

namespace TemplateCheck.Template
open TemplateCheck.Parser TemplateCheck.Parser.Config

/-! ## the parts of the stack -/

/-- The bottom of the stack with `depth` tags open, from the bottom up: the end of the input, and for
every open tag its closing tag over the rest of the sequence that the tag stands in. -/
def foundation (depth : Nat) : List (Symbol Kind) :=
  .terminal .endOfInput :: (List.replicate depth [.nonterminal 0, .terminal .closeKey]).flatten

/-- What stands above the foundation, from the bottom up. -/
inductive Crown : List (Symbol Kind) → Prop where
  /-- the innermost sequence is over -/
  | bare : Crown []
  /-- it goes on -/
  | sequence : Crown [.nonterminal 0]
  /-- it goes on with the token that is in hand -/
  | content : Crown [.nonterminal 0, .terminal .content]
  | placeholder : Crown [.nonterminal 0, .terminal .placeholderKey]
  | opening : Crown [.nonterminal 0, .terminal .closeKey, .nonterminal 0, .terminal .openKey]

theorem foundation_succ (depth : Nat) :
    foundation (depth + 1) = foundation depth ++ [.nonterminal 0, .terminal .closeKey] := by
  rw [foundation, foundation, List.replicate_succ', List.flatten_concat, List.cons_append]

/-- read from the top down the foundation is what is below the nonterminal between two tokens -/
theorem reverse_foundation (depth : Nat) : (foundation depth).reverse = below depth := by
  induction depth with
  | zero => rfl
  | succ depth ih =>
    rw [foundation_succ, List.reverse_append, ih]
    rfl

theorem length_foundation (depth : Nat) : (foundation depth).length = 2 * depth + 1 := by
  induction depth with
  | zero => rfl
  | succ depth ih =>
    rw [foundation_succ, List.length_append, ih]
    rfl

theorem Crown.length_le {crown : List (Symbol Kind)} (h : Crown crown) : crown.length ≤ 4 := by
  cases h <;> decide

/-- Every right-hand side is a crown, read from the top down. -/
theorem exists_crown_of_rule {k : Kind} {rhs : List (Symbol Kind)}
    (h : grammar.productionFor? 0 k = some rhs) : ∃ crown, Crown crown ∧ crown.reverse = rhs := by
  cases k with
  | content => exact ⟨_, .content, Option.some.inj h⟩
  | placeholderKey => exact ⟨_, .placeholder, Option.some.inj h⟩
  | openKey => exact ⟨_, .opening, Option.some.inj h⟩
  | closeKey => exact ⟨_, .bare, Option.some.inj h⟩
  | endOfInput => exact ⟨_, .bare, Option.some.inj h⟩
  | unrecognized => exact absurd h nofun

/-- Under a terminal on top is the rest of the innermost sequence, with one tag more or less open if
the terminal opens or closes one.  Under the end of the input is nothing. -/
theorem Crown.under_terminal {crown under : List (Symbol Kind)} (h : Crown crown) {k : Kind}
    {depth : Nat} (hitems : .terminal k :: under = crown.reverse ++ below depth) :
    k = .endOfInput ∧ depth = 0 ∧ under = [] ∨
      ¬ (k = .closeKey ∧ depth = 0) ∧ under = .nonterminal 0 :: below (depthAfter depth k) := by
  cases h with
  | bare =>
    cases depth with
    | zero =>
      obtain ⟨hk, hunder⟩ := List.cons.inj hitems
      exact Or.inl ⟨Symbol.terminal.inj hk, rfl, hunder⟩
    | succ depth =>
      obtain ⟨hk, hunder⟩ := List.cons.inj hitems
      obtain rfl := Symbol.terminal.inj hk
      exact Or.inr ⟨fun hstray => Nat.succ_ne_zero depth hstray.2, hunder⟩
  | sequence => exact absurd (List.cons.inj hitems).1 nofun
  | _ =>
    obtain ⟨hk, hunder⟩ := List.cons.inj hitems
    obtain rfl := Symbol.terminal.inj hk
    exact Or.inr ⟨fun hstray => absurd hstray.1 nofun, hunder⟩

/-! ## one round -/

def metOf (c : Config Kind) (k : Kind) : Nat :=
  (c.met.map Token.kind).count k

theorem metOf_of_met_eq {c c' : Config Kind} (h : c'.met = c.met) (k : Kind) :
    metOf c' k = metOf c k := by
  rw [metOf, metOf, h]

theorem metOf_accept (c : Config Kind) (k : Kind) :
    metOf (c.fetch.2.accept c.fetch.1) k = metOf c k + if c.fetch.1.kind = k then 1 else 0 := by
  rw [metOf, met_accept, met_fetch, List.map_append, List.count_append, List.map_singleton,
    List.count_singleton, metOf]
  simp only [beq_iff_eq]

/-- The stack is a crown on the foundation for the tags that are open.  It is empty only when no tag
is open and the end of the input has been met. -/
structure Shaped (c : Config Kind) (depth : Nat) : Prop where
  opened : metOf c .openKey = metOf c .closeKey + depth
  stack : (∃ crown, Crown crown ∧ c.stack.items = crown.reverse ++ below depth) ∨
    c.stack.items = [] ∧ depth = 0 ∧ 1 ≤ metOf c .endOfInput

variable {c c' : Config Kind} {depth : Nat}

theorem shaped_start (l : Lexer Kind) : Shaped (start grammar l) 0 :=
  ⟨rfl, Or.inl ⟨_, .sequence, rfl⟩⟩

/-- where no token is met, it is for the stack alone to keep its shape -/
theorem Shaped.of_met_eq (h : Shaped c depth) (hmet : c'.met = c.met)
    (hstack : ∃ crown, Crown crown ∧ c'.stack.items = crown.reverse ++ below depth) :
    Shaped c' depth := by
  refine ⟨?_, Or.inl hstack⟩
  rw [metOf_of_met_eq hmet, metOf_of_met_eq hmet]
  exact h.opened

/-- a round is for a stack that is not empty -/
theorem Shaped.exists_crown (h : Shaped c depth) {s : Symbol Kind} {under : List (Symbol Kind)}
    (items : c.stack.items = s :: under) :
    ∃ crown, Crown crown ∧ s :: under = crown.reverse ++ below depth := by
  rcases h.stack with ⟨crown, hcrown, hitems⟩ | ⟨hnil, -⟩
  · exact ⟨crown, hcrown, items.symm.trans hitems⟩
  · exact absurd (items.symm.trans hnil) (List.cons_ne_nil s under)

theorem Shaped.opened_accept (h : Shaped c depth)
    (hstray : ¬ (c.fetch.1.kind = .closeKey ∧ depth = 0)) :
    metOf (c.fetch.2.accept c.fetch.1) .openKey =
      metOf (c.fetch.2.accept c.fetch.1) .closeKey + depthAfter depth c.fetch.1.kind := by
  have hopened := h.opened
  rw [metOf_accept, metOf_accept]
  cases hk : c.fetch.1.kind with
  | openKey =>
    have hne : Kind.openKey ≠ .closeKey := by decide
    rw [if_pos rfl, if_neg hne, depthAfter]
    omega
  | closeKey =>
    have hpos : depth ≠ 0 := fun hzero => hstray ⟨hk, hzero⟩
    have hne : Kind.closeKey ≠ .openKey := by decide
    rw [if_neg hne, if_pos rfl, depthAfter]
    omega
  | _ => exact hopened

/-- **A token is met.**  A tag that is opened puts its closing tag on the foundation, and a tag that
is closed takes it away; after any token but the last the innermost sequence goes on. -/
theorem Shaped.meets (h : Shaped c depth) {under : List (Symbol Kind)}
    (items : c.stack.items = .terminal c.fetch.1.kind :: under) :
    Shaped (c.fetch.2.accept c.fetch.1) (depthAfter depth c.fetch.1.kind) := by
  have hstack : (c.fetch.2.accept c.fetch.1).stack.items = under := by
    rw [items_accept, stack_fetch, items, List.tail_cons]
  obtain ⟨crown, hcrown, hitems⟩ := h.exists_crown items
  rcases hcrown.under_terminal hitems with ⟨hk, rfl, rfl⟩ | ⟨hstray, hunder⟩
  · refine ⟨h.opened_accept fun hstray => ?_, Or.inr ⟨hstack, ?_, ?_⟩⟩
    · exact absurd (hk.symm.trans hstray.1) nofun
    · rw [hk]
      rfl
    · rw [metOf_accept, hk, if_pos rfl]
      exact Nat.le_add_left 1 _
  · exact ⟨h.opened_accept hstray, Or.inl ⟨_, .sequence, hstack.trans hunder⟩⟩

/-- **A right-hand side** becomes the crown. -/
theorem Shaped.expands (h : Shaped c depth) {n : Nat} {under rhs : List (Symbol Kind)}
    (items : c.stack.items = .nonterminal n :: under)
    (rule : grammar.productionFor? n c.fetch.1.kind = some rhs) :
    Shaped (c.fetch.2.replace n c.fetch.1 rhs) depth := by
  obtain ⟨crown, hcrown, hitems⟩ := h.exists_crown items
  cases hcrown with
  | sequence =>
    obtain ⟨hn, hunder⟩ := List.cons.inj hitems
    obtain rfl : n = 0 := Symbol.nonterminal.inj hn
    obtain ⟨crown, hcrown, rfl⟩ := exists_crown_of_rule rule
    refine h.of_met_eq ((met_replace _ _ _ _).trans (met_fetch c)) ⟨crown, hcrown, ?_⟩
    rw [items_replace, stack_fetch, items, List.tail_cons, hunder]
    rfl
  | bare => cases depth <;> exact absurd (List.cons.inj hitems).1 nofun
  | _ => exact absurd (List.cons.inj hitems).1 nofun

/-- **Every round keeps the shape of the stack.** -/
theorem Shaped.round (h : Shaped c depth) (hround : Rounds grammar c c') :
    ∃ depth', Shaped c' depth' := by
  cases hround with
  | expands items rule => exact ⟨depth, h.expands items rule⟩
  | drops items rule =>
    refine ⟨depth, h.of_met_eq ((met_refuse _ _).trans (met_fetch c)) ?_⟩
    show ∃ crown, Crown crown ∧ c.fetch.2.stack.items = _
    rw [stack_fetch, items]
    exact h.exists_crown items
  | meets items => exact ⟨_, h.meets items⟩
  | refuses items other =>
    refine ⟨depth, h.of_met_eq ((met_skip _).trans ((met_refuse _ _).trans (met_fetch c))) ?_⟩
    show ∃ crown, Crown crown ∧ c.fetch.2.stack.items = _
    rw [stack_fetch, items]
    exact h.exists_crown items

theorem exists_shaped_run (l : Lexer Kind) (n : Nat) :
    ∃ depth, Shaped ((start grammar l).run grammar n) depth := by
  refine run_induction (motive := fun c => ∃ depth, Shaped c depth) ⟨0, shaped_start l⟩ ?_ n
  rintro c ⟨depth, h⟩ hdone
  exact h.round (rounds grammar (items_ne_nil_of_done hdone))

/-! ## whole runs -/

/-- **The shape of the stack.**  At every point of a run, before and after errors, no more tags have
been closed than opened, and as long as the stack is not empty it consists of the foundation for the
tags that are open and of a crown.  It is empty only when all tags are closed and the closing token
has been met. -/
theorem stack_shape (source : String) (n : Nat) :
    let c : Config Kind := (Config.start grammar (lexer source)).run grammar n
    let opened := (c.met.map Token.kind).count .openKey
    let closed := (c.met.map Token.kind).count .closeKey
    closed ≤ opened ∧
    (c.stack.isEmpty = false → (∃ crown, Crown crown ∧
        c.stack = .ofList (foundation (opened - closed) ++ crown)) ∧
      c.stack.size ≤ 2 * (opened - closed) + 5) ∧
    (c.stack.isEmpty = true → opened = closed ∧ .endOfInput ∈ c.met.map Token.kind) := by
  intro c opened closed
  obtain ⟨depth, hopened, hstack⟩ := exists_shaped_run (lexer source) n
  have hdepth : opened - closed = depth := Nat.sub_eq_of_eq_add' hopened
  refine ⟨Nat.le.intro hopened.symm, fun hne => ?_, fun hempty => ?_⟩
  · rcases hstack with ⟨crown, hcrown, hitems⟩ | ⟨hnil, -, -⟩
    · have hof : c.stack = .ofList (foundation depth ++ crown) := by
        rw [Stack.ofList, List.reverse_append, reverse_foundation, ← hitems]
      rw [hdepth]
      refine ⟨⟨crown, hcrown, hof⟩, ?_⟩
      have hlength := hcrown.length_le
      rw [hof, Stack.size, Stack.items_ofList, List.length_reverse, List.length_append,
        length_foundation]
      omega
    · rw [Stack.isEmpty, hnil] at hne
      cases hne
  · rcases hstack with ⟨crown, -, hitems⟩ | ⟨-, hzero, hend⟩
    · rw [Stack.isEmpty, hitems, ← reverse_foundation] at hempty
      simp [foundation] at hempty
    · refine ⟨hopened.trans (by rw [hzero]; rfl), ?_⟩
      exact List.count_pos_iff.mp hend

end TemplateCheck.Template
