import TemplateCheck.Grammar
import TemplateCheck.Parser.Machine
import TemplateCheck.Template.Lexing

/-!
# The grammar of templates

One nonterminal `T` stands for a sequence of content, placeholders and tags:

* `T → CONTENT T`
* `T → PLACEHOLDER_KEY T`
* `T → OPEN_KEY T CLOSE_KEY T`
* `T →`

A sequence ends before a closing tag or the end of the input, so these two kinds select the empty
rule.
-/

namespace TemplateCheck.Template

/-- number of classes the kinds fall into: each is a class of its own -/
def terminalClasses : Nat := 6

/-- the class of a kind -/
def terminalClass : Kind → Nat
  | .content => 0
  | .placeholderKey => 1
  | .openKey => 2
  | .closeKey => 3
  | .unrecognized => 4
  | .endOfInput => 5

/-- The grammar of templates. -/
def grammar : Grammar Kind where
  nonterminals := ["T"]
  start := 0
  productions :=
    [ [.terminal .content, .nonterminal 0],
      [.terminal .placeholderKey, .nonterminal 0],
      [.terminal .openKey, .nonterminal 0, .terminal .closeKey, .nonterminal 0],
      [] ]
  table := [[some 0, some 1, some 2, some 3, none, some 3]]
  terminalClass := terminalClass

/-- the machine at the end of its run over a template -/
def final (source : String) : Parser.Config Kind :=
  Parser.final grammar (lexer source)

/-- The tokens of a well-formed template, the last one left out, or else every error. -/
def parse (source : String) : Except (List (ParseError Kind)) (List (Token Kind)) :=
  (final source).verdict

end TemplateCheck.Template
