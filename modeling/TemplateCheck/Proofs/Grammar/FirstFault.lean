import TemplateCheck.Proofs.Grammar.WellFormed

/-!
# The first fault of a grammar

The places in a grammar are `[0]` for the start symbol, `[1]` for the number of rows, `[2, n]` for
row `n` and `[2, n, c]` for cell `c` of that row, and `[3, p, i]` for symbol `i` of production `p`.

* `Grammar.Fault g columns p fault`      the fault stands at this place
* `Grammar.begins_faults`                the list of all faults begins with the first one
* `Grammar.validate_finds_first_fault`   which is the one that the check reports
-/

namespace TemplateCheck.Grammar

variable {K : Type}

/-- What is wrong with a grammar, and where. -/
inductive Fault (g : Grammar K) (columns : Nat) : Place → GrammarError → Prop where
  | start : ¬ g.start < g.nonterminals.length → Fault g columns [0] (.unknownStart g.start)
  | rows : g.table.length ≠ g.nonterminals.length →
    Fault g columns [1] (.rowCount g.table.length g.nonterminals.length)
  | width {n : Nat} {cells : List (Option Nat)} : g.table[n]? = some cells →
    cells.length ≠ columns → Fault g columns [2, n] (.rowWidth n cells.length columns)
  | cell {n column p : Nat} {cells : List (Option Nat)} : g.table[n]? = some cells →
    cells[column]? = some (some p) → ¬ p < g.productions.length →
    Fault g columns [2, n, column] (.unknownProduction n column p)
  | symbol {p i n : Nat} {rhs : List (Symbol K)} : g.productions[p]? = some rhs →
    rhs[i]? = some (.nonterminal n) → ¬ n < g.nonterminals.length →
    Fault g columns [3, p, i] (.unknownNonterminal p n)

variable {g : Grammar K} {columns : Nat}

theorem Fault.unique {p : Place} {fault other : GrammarError} (h : g.Fault columns p fault)
    (h' : g.Fault columns p other) : fault = other := by
  cases h with
  | start _ => cases h'; rfl
  | rows _ => cases h'; rfl
  | width hn _ =>
    cases h' with
    | width hn' _ => rw [Option.some.inj (hn.symm.trans hn')]
  | cell hn hp _ =>
    cases h' with
    | cell hn' hp' _ =>
      obtain rfl := Option.some.inj (hn.symm.trans hn')
      rw [Option.some.inj (Option.some.inj (hp.symm.trans hp'))]
  | symbol hp hi _ =>
    cases h' with
    | symbol hp' hi' _ =>
      obtain rfl := Option.some.inj (hp.symm.trans hp')
      rw [Symbol.nonterminal.inj (Option.some.inj (hi.symm.trans hi'))]

/-! ## the rows of the table -/

section
variable {n : Nat} {cells : List (Option Nat)} (hn : g.table[n]? = some cells)
include hn

theorem begins_cellFaults {column : Nat} {cell : Option Nat} (hcell : cells[column]? = some cell) :
    Begins (fun q => g.Fault columns (2 :: n :: column :: q)) (g.cellFaults n column cell) := by
  cases cell with
  | none =>
    intro q fault h
    cases h with
    | cell hn' hp _ =>
      obtain rfl := Option.some.inj (hn.symm.trans hn')
      cases hcell.symm.trans hp
  | some p =>
    refine Begins.ite fun q other => ⟨?_, ?_⟩
    · intro h
      cases h with
      | cell hn' hp hlt =>
        obtain rfl := Option.some.inj (hn.symm.trans hn')
        obtain rfl := Option.some.inj (Option.some.inj (hcell.symm.trans hp))
        exact ⟨rfl, hlt, rfl⟩
    · rintro ⟨rfl, hlt, rfl⟩
      exact .cell hn hcell hlt

theorem begins_rowFaults :
    Begins (fun q => g.Fault columns (2 :: n :: q)) (g.rowFaults columns n cells) := by
  refine Begins.node ?_ ?_ ?_
  · refine Begins.ite fun q other => and_congr_right ?_
    rintro rfl
    constructor
    · intro h
      cases h with
      | width hn' hwidth =>
        obtain rfl := Option.some.inj (hn.symm.trans hn')
        exact ⟨hwidth, rfl⟩
    · rintro ⟨hwidth, rfl⟩
      exact .width hn hwidth
  · intro column cell hcell
    exact begins_cellFaults hn hcell
  · intro column q fault h
    cases h with
    | cell hn' hp _ =>
      obtain rfl := Option.some.inj (hn.symm.trans hn')
      exact (List.getElem?_eq_some_iff.mp hp).1

end

/-! ## the right-hand sides -/

section
variable {p : Nat} {rhs : List (Symbol K)} (hp : g.productions[p]? = some rhs)
include hp

theorem begins_symbolFaults {i : Nat} {s : Symbol K} (hs : rhs[i]? = some s) :
    Begins (fun q => g.Fault columns (3 :: p :: i :: q)) (g.symbolFaults p s) := by
  cases s with
  | terminal k =>
    intro q fault h
    cases h with
    | symbol hp' hi _ =>
      obtain rfl := Option.some.inj (hp.symm.trans hp')
      cases hs.symm.trans hi
  | nonterminal n =>
    refine Begins.ite fun q other => ⟨?_, ?_⟩
    · intro h
      cases h with
      | symbol hp' hi hlt =>
        obtain rfl := Option.some.inj (hp.symm.trans hp')
        obtain rfl := Symbol.nonterminal.inj (Option.some.inj (hs.symm.trans hi))
        exact ⟨rfl, hlt, rfl⟩
    · rintro ⟨rfl, hlt, rfl⟩
      exact .symbol hp hs hlt

theorem begins_productionFaults :
    Begins (fun q => g.Fault columns (3 :: p :: q)) (rhs.flatMap (g.symbolFaults p)) := by
  rw [flatMap_eq_flatMap_zipIdx]
  refine Begins.parts ?_ ?_ ?_
  · intro fault h
    cases h
  · intro i s hs
    exact begins_symbolFaults hp hs
  · intro i q fault h
    cases h with
    | symbol hp' hi _ =>
      obtain rfl := Option.some.inj (hp.symm.trans hp')
      exact (List.getElem?_eq_some_iff.mp hi).1

end

/-! ## the tables -/

theorem begins_tableFaults : Begins (fun q => g.Fault columns (2 :: q))
    (g.table.zipIdx.flatMap fun (cells, n) => g.rowFaults columns n cells) := by
  refine Begins.parts ?_ ?_ ?_
  · intro fault h
    cases h
  · intro n cells hn
    exact begins_rowFaults hn
  · intro n q fault h
    cases h with
    | width hn _ => exact (List.getElem?_eq_some_iff.mp hn).1
    | cell hn _ _ => exact (List.getElem?_eq_some_iff.mp hn).1

theorem begins_ruleFaults : Begins (fun q => g.Fault columns (3 :: q))
    (g.productions.zipIdx.flatMap fun (rhs, p) => rhs.flatMap (g.symbolFaults p)) := by
  refine Begins.parts ?_ ?_ ?_
  · intro fault h
    cases h
  · intro p rhs hp
    exact begins_productionFaults hp
  · intro p q fault h
    cases h with
    | symbol hp _ _ => exact (List.getElem?_eq_some_iff.mp hp).1

/-- **The list of all faults begins with the first one.** -/
theorem begins_faults : Begins (g.Fault columns) (g.faults columns) := by
  have hparts : g.faults columns =
      [if g.start < g.nonterminals.length then [] else [.unknownStart g.start],
        if g.table.length = g.nonterminals.length then []
          else [.rowCount g.table.length g.nonterminals.length],
        g.table.zipIdx.flatMap fun (cells, n) => g.rowFaults columns n cells,
        g.productions.zipIdx.flatMap fun (rhs, p) => rhs.flatMap (g.symbolFaults p)].zipIdx.flatMap
          Prod.fst := by
    simp [faults, List.append_assoc]
  rw [hparts]
  refine Begins.parts ?_ ?_ ?_
  · intro fault h
    cases h
  · rintro (_ | _ | _ | _ | i) part hpart
    · obtain rfl := Option.some.inj hpart
      refine Begins.ite fun q other => ⟨?_, ?_⟩
      · intro h
        cases h with
        | start hstart => exact ⟨rfl, hstart, rfl⟩
      · rintro ⟨rfl, hstart, rfl⟩
        exact .start hstart
    · obtain rfl := Option.some.inj hpart
      refine Begins.ite fun q other => ⟨?_, ?_⟩
      · intro h
        cases h with
        | rows hrows => exact ⟨rfl, hrows, rfl⟩
      · rintro ⟨rfl, hrows, rfl⟩
        exact .rows hrows
    · obtain rfl := Option.some.inj hpart
      exact begins_tableFaults
    · obtain rfl := Option.some.inj hpart
      exact begins_ruleFaults
    · cases hpart
  · intro i q fault h
    show i < 4
    cases h <;> decide

/-- **The check of a grammar finds the first fault**, in the order of the start symbol, the number
of rows, the rows from top to bottom, each with its width before its cells, and the productions with
their symbols from left to right.  It finds nothing exactly if every number in the grammar is the
number of something and every row has the right width. -/
theorem validate_finds_first_fault (g : Grammar K) (columns : Nat) :
    (g.validate columns = .ok () ↔
      g.start < g.nonterminals.length ∧ g.table.length = g.nonterminals.length ∧
      (∀ cells ∈ g.table, cells.length = columns ∧
        ∀ p, some p ∈ cells → p < g.productions.length) ∧
      ∀ rhs ∈ g.productions, ∀ n, .nonterminal n ∈ rhs → n < g.nonterminals.length) ∧
    ∀ fault, g.validate columns = .error fault ↔ IsFirst (g.Fault columns) fault := by
  refine ⟨?_, ?_⟩
  · rw [validate_eq_ok_iff, faults_eq_nil_iff]
    constructor
    · intro h
      refine ⟨h.start, h.rows, fun cells hcells => ?_, fun rhs hrhs n hn => ?_⟩
      · obtain ⟨row, hrow⟩ := List.mem_iff_getElem?.mp hcells
        refine ⟨h.width row cells hrow, fun p hp => ?_⟩
        obtain ⟨column, hcolumn⟩ := List.mem_iff_getElem?.mp hp
        exact h.cell row cells column p hrow hcolumn
      · obtain ⟨p, hp⟩ := List.mem_iff_getElem?.mp hrhs
        exact h.symbol p rhs n hp hn
    · rintro ⟨hstart, hrows, htable, hrules⟩
      refine ⟨hstart, hrows, ?_, ?_, ?_⟩
      · intro n cells hn
        exact (htable cells (List.mem_of_getElem? hn)).1
      · intro n cells column p hn hp
        exact (htable cells (List.mem_of_getElem? hn)).2 p (List.mem_of_getElem? hp)
      · intro p rhs n hp hn
        exact hrules rhs (List.mem_of_getElem? hp) n hn
  · intro fault
    rw [validate_eq_error_iff]
    exact begins_faults.head?_eq_some_iff fun p fault other => Fault.unique

end TemplateCheck.Grammar
