import TemplateCheck.Proofs.Grammar.WellFormed
import TemplateCheck.Proofs.Parser.Ready
import TemplateCheck.Template.Parsing

/-!
# Every nonterminal on the stack has a row

Where the tables of a grammar are well formed and the classes of the kinds are columns, no look-up of
the machine leaves the tables.

* `Config.InRange g c`    every nonterminal on the stack is one of the grammar
* `InRange.round`         every round keeps that
* `Adds g c e`            a round from `c` may write this event into the trace
* `exists_adds`           every event of a run was written by one of its rounds
* `stack_in_range`        the stack of a run has only nonterminals with a row, a token is refused for
                          want of a rule only where a cell is empty, and what is expanded has a name
-/

namespace TemplateCheck.Parser

variable {K : Type}

namespace Config

/-! ## the stack -/

def InRange (g : Grammar K) (c : Config K) : Prop :=
  ∀ n, .nonterminal n ∈ c.stack.items → n < g.nonterminals.length

variable {g : Grammar K} {columns n : Nat} {c c' : Config K} {l : Lexer K} {e : Event K}

/-- nonterminals that were on the stack already are in range -/
theorem InRange.of_subset (h : c.InRange g) (hsub : c'.stack.items ⊆ c.stack.items) :
    c'.InRange g :=
  fun n hn => h n (hsub hn)

variable [TokenKind K]

theorem inRange_start (hwell : g.WellFormed columns) (l : Lexer K) : (start g l).InRange g := by
  intro n hn
  rw [(idle_start g l).items] at hn
  rcases List.mem_cons.mp hn with heq | hend
  · obtain rfl := Symbol.nonterminal.inj heq
    exact hwell.start
  · cases List.mem_singleton.mp hend

/-- **Every round keeps the nonterminals on the stack in range.** -/
theorem InRange.round (hwell : g.WellFormed columns) (h : c.InRange g)
    (hround : Rounds g c c') : c'.InRange g := by
  have hsame : c.fetch.2.stack.items ⊆ c.stack.items := by
    rw [stack_fetch]
    exact List.Subset.refl _
  have htail : c.fetch.2.stack.items.tail ⊆ c.stack.items :=
    List.Subset.trans (List.tail_sublist _).subset hsame
  cases hround with
  | expands items rule =>
    intro m hm
    rw [items_replace] at hm
    rcases List.mem_append.mp hm with hrhs | hbelow
    · exact hwell.lt_of_mem rule hrhs
    · exact h m (htail hbelow)
  | drops items rule => exact h.of_subset hsame
  | meets items =>
    rw [← items_accept c.fetch.2 c.fetch.1] at htail
    exact h.of_subset htail
  | refuses items other => exact h.of_subset hsame

theorem inRange_run [DecidableEq K] (hwell : g.WellFormed columns) (l : Lexer K) (n : Nat) :
    ((start g l).run g n).InRange g := by
  refine run_induction (inRange_start hwell l) ?_ n
  intro c h hdone
  exact h.round hwell (rounds g (items_ne_nil_of_done hdone))

/-! ## the trace -/

/-- A round from `c` may write this event into the trace. -/
inductive Adds (g : Grammar K) (c : Config K) : Event K → Prop where
  | pulled (t : Token K) : Adds g c (.pulled t)
  | expanded {n : Nat} {below rhs : List (Symbol K)}
    (items : c.stack.items = .nonterminal n :: below)
    (rule : g.productionFor? n c.fetch.1.kind = some rhs) :
    Adds g c (.expanded n c.fetch.1.kind rhs.length)
  | dropped {n : Nat} {below : List (Symbol K)} (items : c.stack.items = .nonterminal n :: below)
    (rule : g.productionFor? n c.fetch.1.kind = none) :
    Adds g c (.refused (.noProduction c.fetch.1))
  | matched : Adds g c (.matched c.fetch.1)
  | refused (kind : K) : Adds g c (.refused (.unexpected c.fetch.1 kind))

theorem mem_trace_fetch (g : Grammar K) (h : e ∈ c.fetch.2.trace) : e ∈ c.trace ∨ Adds g c e := by
  cases hlook : c.look with
  | some t =>
    rw [fetch_of_look hlook] at h
    exact Or.inl h
  | none =>
    rw [fetch_of_look_eq_none hlook] at h
    rcases List.mem_cons.mp h with rfl | hold
    · exact Or.inr (.pulled _)
    · exact Or.inl hold

theorem Rounds.mem_trace (hround : Rounds g c c') (h : e ∈ c'.trace) :
    e ∈ c.trace ∨ Adds g c e := by
  cases hround with
  | expands items rule =>
    rcases List.mem_cons.mp h with rfl | hold
    · exact Or.inr (.expanded items rule)
    · exact mem_trace_fetch g hold
  | drops items rule =>
    rcases List.mem_cons.mp h with rfl | hold
    · exact Or.inr (.dropped items rule)
    · exact mem_trace_fetch g hold
  | meets items =>
    rcases List.mem_cons.mp h with rfl | hold
    · exact Or.inr .matched
    · exact mem_trace_fetch g hold
  | refuses items other =>
    -- the token after the refused one is taken in the same round
    rcases List.mem_cons.mp h with rfl | hold
    · exact Or.inr (.pulled _)
    · rcases List.mem_cons.mp hold with rfl | hold
      · exact Or.inr (.refused _)
      · exact mem_trace_fetch g hold

omit [TokenKind K] in
theorem mem_refusals_iff {error : ParseError K} :
    error ∈ c.refusals ↔ .refused error ∈ c.trace := by
  rw [refusals, List.mem_filterMap]
  constructor
  · rintro ⟨e, he, hfound⟩
    cases e with
    | refused found =>
      obtain rfl := Option.some.inj hfound
      exact List.mem_reverse.mp he
    | _ => cases hfound
  · intro h
    exact ⟨.refused error, List.mem_reverse.mpr h, rfl⟩

variable [DecidableEq K]

/-- **Every event of a run was written by one of its rounds.** -/
theorem exists_adds (h : e ∈ (c.run g n).trace) :
    e ∈ c.trace ∨ ∃ m < n, Adds g (c.run g m) e := by
  induction n generalizing c with
  | zero => exact Or.inl h
  | succ n ih =>
    cases hd : c.done with
    | true =>
      rw [run_of_done hd] at h
      exact Or.inl h
    | false =>
      rw [run_succ hd] at h
      rcases ih h with hround | ⟨m, hm, hadds⟩
      · refine ((rounds g (items_ne_nil_of_done hd)).mem_trace hround).imp_right fun hadds => ?_
        exact ⟨0, Nat.succ_pos n, hadds⟩
      · refine Or.inr ⟨m + 1, Nat.succ_lt_succ hm, ?_⟩
        rw [run_succ hd]
        exact hadds

theorem exists_adds_start (h : e ∈ ((start g l).run g n).trace) :
    ∃ m < n, Adds g ((start g l).run g m) e :=
  (exists_adds h).resolve_left List.not_mem_nil

end Config

open Config

variable [TokenKind K] [DecidableEq K]

/-- **What the check of a grammar is good for.**  In a run over a grammar with checked tables every
nonterminal that comes onto the stack has a row.  No rule is found for it only where a cell of this
row is empty, so every token that is refused for want of a rule was refused by such a cell; and a
nonterminal that is expanded has a name, so that it is never shown as an unknown one. -/
theorem stack_in_range {g : Grammar K} {columns : Nat} (hvalid : g.validate columns = .ok ())
    (hclass : ∀ k, g.terminalClass k < columns) (a : Automaton K) (source : String) (n : Nat) :
    let after := fun m => (Config.start g (.ofText a source)).run g m
    (∀ i, .nonterminal i ∈ (after n).stack.items → i < g.nonterminals.length ∧
      ∃ cells, g.table[i]? = some cells ∧
        ∀ k, g.productionFor? i k = none ↔ cells[g.terminalClass k]? = some none) ∧
    (∀ t, .noProduction t ∈ (after n).refusals → ∃ m < n, ∃ i below cells,
      (after m).stack.items = .nonterminal i :: below ∧ (after m).fetch.1 = t ∧
        g.table[i]? = some cells ∧ cells[g.terminalClass t.kind]? = some none) ∧
    (∀ i k width, .expanded i k width ∈ (after n).trace →
      g.nonterminals[i]? = some (g.symbolName (.nonterminal i))) := by
  intro after
  have hwell := Grammar.wellFormed_of_validate hvalid
  have hrange : ∀ m, (after m).InRange g := inRange_run hwell _
  refine ⟨fun i hi => ?_, fun t ht => ?_, fun i k width he => ?_⟩
  · obtain ⟨cells, hcells⟩ := hwell.exists_row (hrange n i hi)
    refine ⟨hrange n i hi, cells, hcells, fun k => ?_⟩
    exact hwell.productionFor?_eq_none_iff hcells (hclass k)
  · obtain ⟨m, hm, hadds⟩ := exists_adds_start (mem_refusals_iff.mp ht)
    cases hadds with
    | @dropped i below items rule =>
      have hi : i < g.nonterminals.length := hrange m i (items ▸ List.mem_cons_self)
      obtain ⟨cells, hcells⟩ := hwell.exists_row hi
      refine ⟨m, hm, i, below, cells, items, rfl, hcells, ?_⟩
      exact (hwell.productionFor?_eq_none_iff hcells (hclass _)).mp rule
  · obtain ⟨m, hm, hadds⟩ := exists_adds_start he
    cases hadds with
    | expanded items rule =>
      exact Grammar.getElem?_nonterminals (hrange m i (items ▸ List.mem_cons_self))

open Template in
/-- A single backslash fits nothing: in the row of the one nonterminal its cell is empty. -/
theorem stack_in_range_backslash :
    let after := fun m => (Config.start grammar (.ofText automaton "a\\x")).run grammar m
    let t : Token Kind := ⟨.unrecognized, "\\", 1, 2⟩
    grammar.validate terminalClasses = .ok () ∧
    (∀ k, grammar.terminalClass k < terminalClasses) ∧ (after 6).refusals = [.noProduction t] ∧
    ∃ m < 6, ∃ i below cells,
      (after m).stack.items = .nonterminal i :: below ∧ (after m).fetch.1 = t ∧
        grammar.table[i]? = some cells ∧ cells[grammar.terminalClass t.kind]? = some none := by
  intro after t
  have hvalid : grammar.validate terminalClasses = .ok () := by rfl
  have hclass : ∀ k, grammar.terminalClass k < terminalClasses := by
    intro k
    cases k <;> decide
  have hrefusals : (after 6).refusals = [.noProduction t] := by rfl
  obtain ⟨-, hcells, -⟩ := stack_in_range hvalid hclass automaton "a\\x" 6
  exact ⟨hvalid, hclass, hrefusals, hcells t (hrefusals ▸ List.mem_singleton_self _)⟩

end TemplateCheck.Parser
