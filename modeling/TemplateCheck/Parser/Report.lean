import TemplateCheck.Log
import TemplateCheck.Parser.Machine

/-!
# What a parse writes to the log

Every token that a lexer cuts from the input is a record, and so is every expansion and every
refusal; the last record of a parse counts what came out of it.  The token at the end of the input
covers no bytes and is no record.
-/

namespace TemplateCheck

/-- the record of a token that was cut from the input -/
def Token.record? {K : Type} [TokenKind K] (t : Token K) : Option Log.Record :=
  if t.text = "" then none
  else some ⟨.trace, "stencil_lexer::scanner", "lexed " ++ t.display⟩

namespace Parser

variable {K : Type}

/-- the part of the program that speaks in the records of a parse -/
def logTarget : String := "stencil_parser::parser"

/-- the record of an event -/
def Event.record? [TokenKind K] (g : Grammar K) : Event K → Option Log.Record
  | .pulled token => token.record?
  | .expanded nonterminal look width =>
    let name := g.symbolName (.nonterminal nonterminal)
    let kind := TokenKind.name look
    some ⟨.trace, logTarget, s!"expand {name} on {kind} with {width} symbol(s)"⟩
  | .matched _ => none
  | .refused error => some ⟨.debug, logTarget, error.message⟩

/-- the record that closes a parse -/
def closingRecord (verdict : Except (List (ParseError K)) (List (Token K))) : Log.Record :=
  match verdict with
  | .ok tokens => ⟨.debug, logTarget, s!"parse succeeded with {tokens.length} token(s)"⟩
  | .error errors => ⟨.debug, logTarget, s!"parse failed with {errors.length} error(s)"⟩

/-- A parse that came to its end. -/
structure Report (K : Type) where
  verdict : Except (List (ParseError K)) (List (Token K))
  log : List Log.Record

/-- result and log of a machine -/
def Config.report [DecidableEq K] [TokenKind K] (g : Grammar K) (c : Config K) : Report K :=
  { verdict := c.verdict
    log := c.trace.reverse.filterMap (Event.record? g) ++ [closingRecord c.verdict] }

end Parser

end TemplateCheck
