import TemplateCheck.Grammar.Validity
import TemplateCheck.Proofs.Faults
import TemplateCheck.Proofs.Grammar.Derivation

/-!
# What the check of a grammar establishes

* `Grammar.WellFormed`         every number in the tables is the number of something
* `Grammar.faults_eq_nil_iff`  the check finds no fault in such tables, and in no others
* `WellFormed.productionFor?_eq_none_iff`  a rule is missing only where the table says so

The check is made for a number of columns and asks nothing of the classes of the kinds, which have to
be columns for the last of these.
-/

namespace TemplateCheck.Grammar

variable {K : Type}

structure WellFormed (g : Grammar K) (columns : Nat) : Prop where
  start : g.start < g.nonterminals.length
  rows : g.table.length = g.nonterminals.length
  width : ∀ (n : Nat) (cells : List (Option Nat)), g.table[n]? = some cells →
    cells.length = columns
  cell : ∀ (n : Nat) (cells : List (Option Nat)) (column p : Nat), g.table[n]? = some cells →
    cells[column]? = some (some p) → p < g.productions.length
  symbol : ∀ (p : Nat) (rhs : List (Symbol K)) (n : Nat), g.productions[p]? = some rhs →
    .nonterminal n ∈ rhs → n < g.nonterminals.length

variable {g : Grammar K} {columns : Nat}

/-! ## one cell, one row, one symbol -/

theorem cellFaults_eq_nil_iff {n column : Nat} {cell : Option Nat} :
    g.cellFaults n column cell = [] ↔ ∀ p, cell = some p → p < g.productions.length := by
  cases cell with
  | none => exact iff_of_true rfl nofun
  | some p =>
    rw [cellFaults, ite_nil_eq_nil_iff]
    constructor
    · intro hlt q hq
      obtain rfl := Option.some.inj hq
      exact hlt
    · intro h
      exact h p rfl

theorem rowFaults_eq_nil_iff {n : Nat} {cells : List (Option Nat)} :
    g.rowFaults columns n cells = [] ↔ cells.length = columns ∧
      ∀ column p : Nat, cells[column]? = some (some p) → p < g.productions.length := by
  rw [rowFaults, List.append_eq_nil_iff, ite_nil_eq_nil_iff, flatMap_zipIdx_eq_nil_iff]
  refine and_congr_right fun _ => ⟨fun h column p hp => ?_, fun h column cell hcell => ?_⟩
  · exact cellFaults_eq_nil_iff.mp (h column (some p) hp) p rfl
  · refine cellFaults_eq_nil_iff.mpr fun p hp => ?_
    subst hp
    exact h column p hcell

theorem symbolFaults_eq_nil_iff {p : Nat} {s : Symbol K} :
    g.symbolFaults p s = [] ↔ ∀ n, s = .nonterminal n → n < g.nonterminals.length := by
  cases s with
  | terminal k => exact iff_of_true rfl nofun
  | nonterminal n =>
    rw [symbolFaults, ite_nil_eq_nil_iff]
    constructor
    · intro hlt m hm
      obtain rfl := Symbol.nonterminal.inj hm
      exact hlt
    · intro h
      exact h n rfl

/-! ## the tables -/

/-- **The check finds no fault in well-formed tables, and in no others.** -/
theorem faults_eq_nil_iff : g.faults columns = [] ↔ g.WellFormed columns := by
  rw [faults, List.append_eq_nil_iff, List.append_eq_nil_iff, List.append_eq_nil_iff,
    ite_nil_eq_nil_iff, ite_nil_eq_nil_iff, flatMap_zipIdx_eq_nil_iff, flatMap_zipIdx_eq_nil_iff]
  constructor
  · rintro ⟨⟨⟨hstart, hrows⟩, hcells⟩, hsymbols⟩
    refine ⟨hstart, hrows, ?_, ?_, ?_⟩
    · intro n cells hn
      exact (rowFaults_eq_nil_iff.mp (hcells n cells hn)).1
    · intro n cells column p hn hp
      exact (rowFaults_eq_nil_iff.mp (hcells n cells hn)).2 column p hp
    · intro p rhs n hp hn
      have hnone := List.flatMap_eq_nil_iff.mp (hsymbols p rhs hp) (.nonterminal n) hn
      exact symbolFaults_eq_nil_iff.mp hnone n rfl
  · intro h
    refine ⟨⟨⟨h.start, h.rows⟩, fun n cells hn => ?_⟩, fun p rhs hp => ?_⟩
    · exact rowFaults_eq_nil_iff.mpr ⟨h.width n cells hn, fun column p => h.cell n cells column p hn⟩
    · refine List.flatMap_eq_nil_iff.mpr fun s hs => symbolFaults_eq_nil_iff.mpr fun n hn => ?_
      subst hn
      exact h.symbol p rhs n hp hs

theorem wellFormed_of_validate (h : g.validate columns = .ok ()) : g.WellFormed columns :=
  faults_eq_nil_iff.mp ((validate_eq_ok_iff g columns).mp h)

namespace WellFormed

variable (h : g.WellFormed columns) {n : Nat}
include h

theorem exists_row (hn : n < g.nonterminals.length) : ∃ cells, g.table[n]? = some cells :=
  ⟨_, List.getElem?_eq_getElem (h.rows ▸ hn)⟩

theorem lt_of_mem {k : K} {rhs : List (Symbol K)} {m : Nat}
    (hrhs : g.productionFor? n k = some rhs) (hm : .nonterminal m ∈ rhs) :
    m < g.nonterminals.length := by
  obtain ⟨p, -, hp⟩ := productionFor?_eq_some hrhs
  exact h.symbol p rhs m hp hm

/-- **A rule is missing only where the table says so.** -/
theorem productionFor?_eq_none_iff {cells : List (Option Nat)} {k : K}
    (hn : g.table[n]? = some cells) (hk : g.terminalClass k < columns) :
    g.productionFor? n k = none ↔ cells[g.terminalClass k]? = some none := by
  have hcolumn : g.terminalClass k < cells.length := h.width n cells hn ▸ hk
  obtain ⟨cell, hcell⟩ : ∃ cell, cells[g.terminalClass k]? = some cell :=
    ⟨_, List.getElem?_eq_getElem hcolumn⟩
  have hlook : g.cell? n (g.terminalClass k) = cell := by
    simp only [cell?, hn, hcell]
  rw [hcell, Option.some_inj]
  cases cell with
  | none => simp [productionFor?, hlook]
  | some p =>
    -- the production of the cell exists
    have hp : p < g.productions.length := h.cell n cells _ p hn hcell
    rw [productionFor?_of_cell? hlook, List.getElem?_eq_getElem hp]
    exact iff_of_false (Option.some_ne_none _) (Option.some_ne_none _)

end WellFormed

/-- a nonterminal of the grammar is shown by its name -/
theorem getElem?_nonterminals [TokenKind K] {n : Nat} (hn : n < g.nonterminals.length) :
    g.nonterminals[n]? = some (g.symbolName (.nonterminal n)) := by
  rw [symbolName, List.getElem?_eq_getElem hn]
  rfl

end TemplateCheck.Grammar
