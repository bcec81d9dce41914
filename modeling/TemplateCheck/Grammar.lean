import TemplateCheck.Token

/-!
# Grammars with a parse table

A grammar lists the right-hand sides of its rules and says, for a nonterminal and the kind of the
next token, which of them to use.  As with automata nothing is asked of the tables: a cell that is
missing is as good as an empty one.

* `Symbol`                     a terminal or a nonterminal
* `Grammar.productionFor?`     the right-hand side to use
* `Grammar.symbolName`         a symbol in messages
-/

namespace TemplateCheck

/-- A symbol of a rule: a kind of tokens, or a nonterminal by its number. -/
inductive Symbol (K : Type) where
  | terminal (kind : K)
  | nonterminal (index : Nat)
  deriving DecidableEq, Repr

/-- A grammar and its parse table. -/
structure Grammar (K : Type) where
  /-- the names of the nonterminals -/
  nonterminals : List String
  /-- the nonterminal of a whole input -/
  start : Nat
  /-- the right-hand sides of the rules -/
  productions : List (List (Symbol K))
  /-- for a nonterminal and a class of kinds the number of a right-hand side -/
  table : List (List (Option Nat))
  /-- the column of a kind in the table -/
  terminalClass : K → Nat

namespace Grammar

variable {K : Type}

/-- the cell of the table at a row and a column, if it holds a number -/
def cell? (g : Grammar K) (row column : Nat) : Option Nat :=
  match g.table[row]? with
  | none => none
  | some cells =>
    match cells[column]? with
    | none => none
    | some cell => cell

def productionFor? (g : Grammar K) (nonterminal : Nat) (look : K) : Option (List (Symbol K)) :=
  match g.cell? nonterminal (g.terminalClass look) with
  | none => none
  | some production => g.productions[production]?

/-- A symbol in messages; a nonterminal without a name is a question mark. -/
def symbolName [TokenKind K] (g : Grammar K) : Symbol K → String
  | .terminal kind => TokenKind.name kind
  | .nonterminal index => (g.nonterminals[index]?).getD "?"

/-- the length of the longest right-hand side -/
def maxWidth (g : Grammar K) : Nat :=
  (g.productions.map List.length).foldl max 0

end Grammar

end TemplateCheck
