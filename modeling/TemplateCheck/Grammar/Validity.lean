import TemplateCheck.Grammar

/-!
# Well-formed grammars

`Grammar.faults` lists what is wrong with the tables of a grammar whose kinds fall into a given
number of classes, in the order in which the checks are made, and `Grammar.validate` reports the
first fault.

The order is: the start symbol; the number of rows; then row by row its width, and its cells from
left to right; last the nonterminals of the right-hand sides.
-/

namespace TemplateCheck

/-- What can be wrong with the tables of a grammar. -/
inductive GrammarError where
  | unknownStart (start : Nat)
  | rowCount (found expected : Nat)
  | rowWidth (row found expected : Nat)
  | unknownProduction (row column production : Nat)
  | unknownNonterminal (production nonterminal : Nat)
  deriving DecidableEq, Repr

/-- the fault in words -/
def GrammarError.message : GrammarError → String
  | .unknownStart start => s!"start symbol {start} is not a nonterminal of the grammar"
  | .rowCount found expected =>
    s!"parse table has {found} rows, expected one per nonterminal ({expected})"
  | .rowWidth row found expected =>
    s!"parse table row {row} has {found} columns, expected {expected}"
  | .unknownProduction row column production =>
    s!"parse table row {row}, column {column} names missing production {production}"
  | .unknownNonterminal production nonterminal =>
    s!"production {production} refers to unknown nonterminal {nonterminal}"

namespace Grammar

variable {K : Type}

/-- the fault of one cell, if it has one -/
def cellFaults (g : Grammar K) (row column : Nat) : Option Nat → List GrammarError
  | none => []
  | some production =>
    if production < g.productions.length then []
    else [.unknownProduction row column production]

/-- the faults of one row, its width first -/
def rowFaults (g : Grammar K) (columns row : Nat) (cells : List (Option Nat)) :
    List GrammarError :=
  (if cells.length = columns then [] else [.rowWidth row cells.length columns]) ++
    cells.zipIdx.flatMap fun (cell, column) => g.cellFaults row column cell

/-- the fault of one symbol of a right-hand side, if it has one -/
def symbolFaults (g : Grammar K) (production : Nat) : Symbol K → List GrammarError
  | .terminal _ => []
  | .nonterminal n =>
    if n < g.nonterminals.length then [] else [.unknownNonterminal production n]

/-- Everything that is wrong with the tables, in the order of the checks. -/
def faults (g : Grammar K) (columns : Nat) : List GrammarError :=
  (if g.start < g.nonterminals.length then [] else [.unknownStart g.start]) ++
    (if g.table.length = g.nonterminals.length then []
      else [.rowCount g.table.length g.nonterminals.length]) ++
    (g.table.zipIdx.flatMap fun (cells, row) => g.rowFaults columns row cells) ++
    (g.productions.zipIdx.flatMap fun (rhs, production) => rhs.flatMap (g.symbolFaults production))

/-- The tables are well formed for kinds of `columns` classes, or the first fault. -/
def validate (g : Grammar K) (columns : Nat) : Except GrammarError Unit :=
  match g.faults columns with
  | [] => .ok ()
  | fault :: _ => .error fault

theorem validate_eq_ok_iff (g : Grammar K) (columns : Nat) :
    g.validate columns = .ok () ↔ g.faults columns = [] := by
  unfold validate; split <;> simp [*]

theorem validate_eq_error_iff (g : Grammar K) (columns : Nat) (fault : GrammarError) :
    g.validate columns = .error fault ↔ (g.faults columns).head? = some fault := by
  unfold validate; split <;> simp [*]

end Grammar

end TemplateCheck
