import Mathlib.Order.WellFoundedSet
import TemplateCheck.Proofs.Parser.RoundBound
import TemplateCheck.Template.Parsing

/-!
# Grammars on which the machine comes to its end

The stack can grow without a token being dealt with, but only below what is on top.  Where no
nonterminal comes on top again below itself, this comes to a stop before every token.

* `Grammar.Erases`     before a token of one kind nothing is left of a nonterminal
* `Grammar.LeadsTo`    a nonterminal comes on top in place of another
* `Grammar.Acyclic`    before tokens of one kind none of them leads back to itself
* `stops_unfolding`    on such a grammar every stack comes to a stop before every token
* `exists_done`        so there is an end to the run, with one phase for each token that has bytes
* `parse?_terminates`  and every parse has a result

At the end of the bytes the tokens are alike, and the machine goes on after one of them was met.  A
right-hand side in which the end of the input is no symbol does not ask for them.
-/

namespace TemplateCheck

variable {K : Type}

namespace Grammar

/-- Before a token of kind `k` nothing is left of the nonterminal: nonterminals of which nothing is
left come in its place. -/
inductive Erases (g : Grammar K) (k : K) : Nat → Prop where
  | intro {n : Nat} {ms : List Nat} (production : g.productionFor? n k = some (ms.map .nonterminal))
      (erases : ∀ m ∈ ms, Erases g k m) : Erases g k n

/-- Before a token of kind `k`, `m` comes on top in place of `n`, when nothing is left of the
nonterminals before it. -/
def LeadsTo (g : Grammar K) (k : K) (n m : Nat) : Prop :=
  ∃ (ms : List Nat) (rest : List (Symbol K)),
    g.productionFor? n k = some (ms.map .nonterminal ++ .nonterminal m :: rest) ∧
      ∀ i ∈ ms, g.Erases k i

def Acyclic (g : Grammar K) : Prop :=
  ∀ k n, ¬ Relation.TransGen (g.LeadsTo k) n n

variable {g : Grammar K} {k : K} {n m : Nat}

theorem rank_lt_of_transGen {rank : Nat → Nat} (h : ∀ n m, g.LeadsTo k n m → rank m < rank n)
    (hm : Relation.TransGen (g.LeadsTo k) n m) : rank m < rank n := by
  induction hm with
  | single hlead => exact h _ _ hlead
  | tail _ hlead ih => exact Nat.lt_trans (h _ _ hlead) ih

theorem Acyclic.of_rank (rank : Nat → Nat)
    (h : ∀ k n m, g.LeadsTo k n m → rank m < rank n) : g.Acyclic :=
  fun k n hcycle => Nat.lt_irrefl (rank n) (rank_lt_of_transGen (h k) hcycle)

theorem LeadsTo.lt_length (h : g.LeadsTo k n m) : n < g.table.length := by
  obtain ⟨ms, rest, hp, -⟩ := h
  exact lt_length_of_productionFor? hp

/-- **Without a cycle every way ends.** -/
theorem Acyclic.acc_leadsTo (hg : g.Acyclic) (k : K) (n : Nat) :
    Acc (fun m n => g.LeadsTo k n m) n := by
  have : IsStrictOrder Nat fun m n => Relation.TransGen (g.LeadsTo k) n m :=
    { irrefl := hg k
      trans := fun _ _ _ hab hbc => hbc.trans hab }
  -- only nonterminals with a row lead anywhere, and they are finitely many
  have hrows := (Set.finite_lt_nat g.table.length).wellFoundedOn
    (r := fun m n => Relation.TransGen (g.LeadsTo k) n m)
  have hout (n : Nat) (hn : ¬ n < g.table.length) : Acc (fun m n => g.LeadsTo k n m) n :=
    ⟨n, fun m hlead => absurd hlead.lt_length hn⟩
  by_cases hn : n < g.table.length
  · refine hrows.induction hn fun n hn ih => ⟨n, fun m hlead => ?_⟩
    by_cases hm : m < g.table.length
    · exact ih m hm (.single hlead)
    · exact hout m hm
  · exact hout n hn

theorem exists_map_nonterminal {P : Nat → Prop} {ss : List (Symbol K)}
    (h : ∀ s ∈ ss, ∃ n, s = .nonterminal n ∧ P n) :
    ∃ ms : List Nat, ss = ms.map .nonterminal ∧ ∀ m ∈ ms, P m := by
  induction ss with
  | nil => exact ⟨[], rfl, fun m hm => absurd hm List.not_mem_nil⟩
  | cons s ss ih =>
    obtain ⟨⟨n, rfl, hn⟩, hss⟩ := List.forall_mem_cons.mp h
    obtain ⟨ms, rfl, hms⟩ := ih hss
    exact ⟨n :: ms, rfl, List.forall_mem_cons.mpr ⟨hn, hms⟩⟩

end Grammar

/-! ## a grammar without cycles -/

namespace Template

/-- Content, if there is any, and then a placeholder or a tag, in turn: `S → C T`, `C → CONTENT`,
`C →`, `T → PLACEHOLDER_KEY S`, `T → OPEN_KEY S CLOSE_KEY S`, `T →`. -/
def alternating : Grammar Kind where
  nonterminals := ["S", "C", "T"]
  start := 0
  productions :=
    [ [.nonterminal 1, .nonterminal 2],
      [.terminal .content],
      [.terminal .placeholderKey, .nonterminal 0],
      [.terminal .openKey, .nonterminal 0, .terminal .closeKey, .nonterminal 0],
      [] ]
  table :=
    [ [some 0, some 0, some 0, some 0, none, some 0],
      [some 1, some 4, some 4, some 4, none, some 4],
      [none, some 2, some 3, some 4, none, some 4] ]
  terminalClass := terminalClass

/-- Before a closing tag no content is left, and what comes behind it is on top. -/
theorem leadsTo_alternating : alternating.LeadsTo .closeKey 0 2 := by
  have hp : alternating.productionFor? 1 .closeKey = some (([] : List Nat).map .nonterminal) := rfl
  refine ⟨[1], [], rfl, fun i hi => ?_⟩
  obtain rfl := List.mem_singleton.mp hi
  exact .intro hp nofun

theorem alternating_productionFor?_zero {k : Kind} {rhs : List (Symbol Kind)}
    (h : alternating.productionFor? 0 k = some rhs) : rhs = [.nonterminal 1, .nonterminal 2] := by
  cases k <;> cases h <;> rfl

theorem alternating_head?_of_productionFor? {n : Nat} {k : Kind} {rhs : List (Symbol Kind)}
    (h : alternating.productionFor? (n + 1) k = some rhs) :
    ∀ s ∈ rhs.head?, ∃ kind, s = .terminal kind := by
  have hn : n + 1 < 3 := Grammar.lt_length_of_productionFor? h
  match n, h with
  | 0, h => cases k <;> cases h <;> simp
  | 1, h => cases k <;> cases h <;> simp

theorem acyclic_alternating : alternating.Acyclic := by
  refine .of_rank (fun n => if n = 0 then 1 else 0) fun k n m hlead => ?_
  obtain ⟨ms, rest, hp, -⟩ := hlead
  cases n with
  | zero =>
    have hmem : .nonterminal m ∈ [Symbol.nonterminal 1, .nonterminal 2] :=
      alternating_productionFor?_zero (k := k) hp ▸ List.mem_append_right _ List.mem_cons_self
    have hm : m ≠ 0 := by
      rintro rfl
      simp at hmem
    rw [if_neg hm]
    exact Nat.one_pos
  | succ n =>
    -- here the first symbol is no nonterminal
    have hhead := alternating_head?_of_productionFor? hp
    cases ms with
    | nil => simp at hhead
    | cons i ms => simp at hhead

end Template

namespace Parser

open Grammar

variable [DecidableEq K]

/-! ## stacks -/

section
variable {g : Grammar K} {k : K} {alike : Bool}

theorem acc_under_terminal (g : Grammar K) (k : K) (alike : Bool) (kind : K) :
    Acc (Under (g.unfolding? k alike)) (.terminal kind) := by
  refine ⟨_, fun s hs => ?_⟩
  obtain ⟨ys, zs, hterminal, -⟩ := hs
  obtain ⟨-, hnil⟩ := Option.ite_none_right_eq_some.mp hterminal
  exact absurd (Option.some.inj hnil).symm (List.append_ne_nil_of_right_ne_nil ys (by simp))

variable (hfree : alike = true → ∀ rhs ∈ g.productions, .terminal k ∉ rhs)
include hfree

/-- A symbol of a right-hand side of which nothing is left is a nonterminal that erases. -/
theorem exists_erases {d : Nat} {rhs : List (Symbol K)} {s : Symbol K} (hrhs : rhs ∈ g.productions)
    (hs : s ∈ rhs) (h : settle (g.unfolding? k alike) d s = some []) :
    ∃ n, s = .nonterminal n ∧ g.Erases k n := by
  induction d generalizing s rhs with
  | zero => cases h
  | succ d ih =>
    cases hx : g.unfolding? k alike s with
    | none =>
      rw [settle_of_none hx] at h
      cases h
    | some ss =>
      cases s with
      | terminal kind =>
        -- only the kind of all tokens to come can be met in this way
        obtain ⟨⟨halike, rfl⟩, -⟩ := Option.ite_none_right_eq_some.mp hx
        exact absurd hs (hfree halike rhs hrhs)
      | nonterminal n =>
        have hp : g.productionFor? n k = some ss := hx
        have hss := mem_productions_of_productionFor? hp
        rw [settle_of_some hx] at h
        obtain ⟨ms, rfl, hms⟩ :=
          exists_map_nonterminal fun s hs => ih hss hs (eq_nil_of_settleAll h s hs)
        exact ⟨n, rfl, .intro hp hms⟩

theorem leadsTo_of_under {n m : Nat}
    (h : Under (g.unfolding? k alike) (.nonterminal m) (.nonterminal n)) : g.LeadsTo k n m := by
  obtain ⟨ys, zs, hp, hys⟩ := h
  have hrhs := mem_productions_of_productionFor? hp
  obtain ⟨ms, rfl, hms⟩ := exists_map_nonterminal (P := g.Erases k) fun s hs =>
    (hys s hs).elim fun _ => exists_erases hfree hrhs (List.mem_append_left _ hs)
  exact ⟨ms, zs, hp, hms⟩

/-- **On a grammar without cycles every stack comes to a stop** before the tokens of one kind. -/
theorem stops_unfolding (hg : g.Acyclic) (s : List (Symbol K)) :
    Stops (g.unfolding? k alike) s := by
  refine stops_of_acc (fun _ _ => length_of_unfolding?) (fun x => ?_) s
  cases x with
  | terminal kind => exact acc_under_terminal g k alike kind
  | nonterminal n =>
    -- by the nonterminals that it leads to
    induction hg.acc_leadsTo k n with
    | intro n _ ih =>
      refine ⟨_, fun y hy => ?_⟩
      cases y with
      | terminal kind => exact acc_under_terminal g k alike kind
      | nonterminal m => exact ih m (leadsTo_of_under hfree hy)

end

variable [TokenKind K] {g : Grammar K} {l : Lexer K}

/-! ## runs -/

/-- **A run comes to its end**: each phase takes a token, until all bytes are taken. -/
theorem Config.exists_done (hfree : g.EndFree) (hg : g.Acyclic) {c : Config K}
    {s : List (Symbol K)} {ts : List (Token K)} {es : List (ParseError K)}
    (h : c.Awaits s l ts es) : ∃ n, (c.run g n).done = true := by
  -- on the bytes that are left
  induction hbytes : l.rest.length using Nat.strong_induction_on generalizing c s l ts es with
  | h bytes ih =>
    by_cases hnil : l.rest = []
    · obtain ⟨n, -, hdone⟩ := h.exists_end hnil fun _ => stops_unfolding (fun _ => hfree) hg s
      exact ⟨n, hdone⟩
    · obtain ⟨n, -, hphase⟩ := h.exists_phase fun _ _ =>
        stops_unfolding (fun hfalse => absurd hfalse Bool.false_ne_true) hg s
      rcases hphase with hdone | ⟨s', ts', es', hawaits, -⟩
      · exact ⟨n, hdone⟩
      · have hlt : l.next.2.rest.length < bytes := hbytes ▸ Lexer.length_rest_next_lt l hnil
        obtain ⟨m, hdone⟩ := ih _ hlt hawaits rfl
        exact ⟨n + m, by rw [run_add]; exact hdone⟩

/-- **Every parse has a result**, where the end of the input is in no right-hand side and no
nonterminal leads back to itself. -/
theorem parse?_terminates (hfree : g.EndFree) (hg : g.Acyclic) (l : Lexer K) :
    ∃ n, ((Config.start g l).run g n).done = true ∧
      parse? g l = some ((Config.start g l).run g n).verdict := by
  obtain ⟨n, hdone⟩ := Config.exists_done hfree hg (Config.idle_start g l).awaits
  exact ⟨n, hdone, parse?_eq_some_iff_run.mpr ⟨n, hdone, rfl⟩⟩

open Template in
/-- A closing tag that closes nothing, before which one nonterminal leads to another. -/
theorem parse?_terminates_alternating :
    let l := lexer "x\\@\x7d\\@k"
    alternating.EndFree ∧ alternating.Acyclic ∧ alternating.LeadsTo .closeKey 0 2 ∧
      ∃ n, ((Config.start alternating l).run alternating n).done = true ∧
        parse? alternating l = some ((Config.start alternating l).run alternating n).verdict := by
  have hfree : alternating.EndFree := by decide
  exact ⟨hfree, acyclic_alternating, leadsTo_alternating,
    parse?_terminates hfree acyclic_alternating _⟩

end Parser

end TemplateCheck
