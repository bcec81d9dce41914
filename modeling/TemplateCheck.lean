import TemplateCheck.Automaton
import TemplateCheck.Automaton.Validity
import TemplateCheck.Command.File
import TemplateCheck.Command.Outcome
import TemplateCheck.Command.Request
import TemplateCheck.Console
import TemplateCheck.Cursor
import TemplateCheck.Grammar
import TemplateCheck.Grammar.Validity
import TemplateCheck.Lexer
import TemplateCheck.Log
import TemplateCheck.Main
import TemplateCheck.Parser.Error
import TemplateCheck.Parser.Machine
import TemplateCheck.Parser.Report
import TemplateCheck.Position
import TemplateCheck.Proofs.Lexer.Cut
import TemplateCheck.Proofs.Text.Utf8
import TemplateCheck.Stack
import TemplateCheck.Template.Escape
import TemplateCheck.Template.Forest
import TemplateCheck.Template.Key
import TemplateCheck.Template.Kind
import TemplateCheck.Template.Lexing
import TemplateCheck.Template.Outline
import TemplateCheck.Template.Parsing
import TemplateCheck.Text.Utf8
import TemplateCheck.Token
import TemplateCheck.Proofs.Template.Lexeme
import TemplateCheck.Proofs.Template.Tokens
import TemplateCheck.Proofs.Parser.Ready
import TemplateCheck.Proofs.Template.Balance
import TemplateCheck.Proofs.Template.Verdict
import TemplateCheck.Proofs.Template.Spelling
import TemplateCheck.Proofs.Template.RoundTrip
import TemplateCheck.Proofs.Grammar.Derivation
import TemplateCheck.Proofs.Parser.Soundness
import TemplateCheck.Proofs.Parser.Unfolding
import TemplateCheck.Proofs.Parser.RoundBound
import TemplateCheck.Proofs.Template.Prediction
import TemplateCheck.Proofs.Parser.Completeness
import TemplateCheck.Proofs.Cursor.Place
import TemplateCheck.Proofs.Lexer.Boundary
import TemplateCheck.Proofs.Template.Lossless
import TemplateCheck.Proofs.Parser.Accounting
import TemplateCheck.Proofs.Parser.Failure
import TemplateCheck.Proofs.Parser.Termination
import TemplateCheck.Proofs.Cursor.Shift
import TemplateCheck.Proofs.Template.Placement
import TemplateCheck.Proofs.Template.Escaping
import TemplateCheck.Proofs.Template.Concatenation
import TemplateCheck.Proofs.Faults
import TemplateCheck.Proofs.Automaton.WellFormed
import TemplateCheck.Proofs.Automaton.Visits
import TemplateCheck.Proofs.Grammar.WellFormed
import TemplateCheck.Proofs.Parser.Range
import TemplateCheck.Proofs.Template.Outlining
import TemplateCheck.Proofs.Grammar.FirstFault
import TemplateCheck.Proofs.Automaton.FirstFault
import TemplateCheck.Proofs.Lexer.Restart
import TemplateCheck.Proofs.Text.Fragment
import TemplateCheck.Proofs.Text.Broken
import TemplateCheck.Proofs.Lexer.Fragments
import TemplateCheck.Proofs.Lexer.Lookahead
import TemplateCheck.Proofs.Template.Segments
import TemplateCheck.Proofs.Template.Standalone
import TemplateCheck.Proofs.Cursor.Walk
import TemplateCheck.Proofs.Template.StackShape
import TemplateCheck.Proofs.Template.Scanning
import TemplateCheck.Proofs.Text.Decode
import TemplateCheck.Proofs.Command.Batch
