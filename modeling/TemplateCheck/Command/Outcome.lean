import TemplateCheck.Command.File
import TemplateCheck.Command.Request
import TemplateCheck.Parser.Report
import TemplateCheck.Template.Escape
import TemplateCheck.Template.Outline
import TemplateCheck.Template.Parsing

/-!
# Outcomes

What the command line answers: the exit code and what is written.

* `Message`      something that is written: output, a plain line for the user, or a log record
* `Job.run`      the messages of a job, and whether it went well
* `Outcome`      exit code, output and error output
* `Host`         the libraries that the command line is built on: a reader of arguments and a logger
* `respond`      the outcome of an argument list

Files are looked up by a function from paths, so that a run is a function of what the paths lead
to.  Nothing is said here of how arguments are read and records are written: a host can be any.
-/

namespace TemplateCheck.Command

open Template (Kind)

inductive Message where
  | output (line : String)
  | notice (line : String)
  | log (record : Log.Record)
  deriving DecidableEq, Repr

/-- The messages of some work, and what came of it. -/
structure Work (α : Type) where
  messages : List Message
  result : α

/-- a record of the command line itself -/
def record (level : Log.Level) (message : String) : Message :=
  .log ⟨level, "stencil", message⟩

/-- the text of a file, or a notice why there is none -/
def readTemplate (files : String → File) (path : String) : Work (Option String) :=
  match (files path).text with
  | .ok source => ⟨[], some source⟩
  | .error e => ⟨[.notice (e.message path)], none⟩

/-- the notice of a template with errors -/
def failureNotice (path : String) (errors : List (ParseError Kind)) : List Message :=
  [ record .error s!"{path}: {errors.length} syntax error(s)",
    .notice (path ++ ":\n" ++ ParseError.failureText errors) ]

/-- parses a text that was found under a path -/
def parseSource (path source : String) : Work (Option (List (Token Kind))) :=
  let report := (Template.final source).report Template.grammar
  let log := report.log.map Message.log
  match report.verdict with
  | .ok tokens => ⟨log, some tokens⟩
  | .error errors => ⟨log ++ failureNotice path errors, none⟩

/-- The tokens of a well-formed template under a path; otherwise the messages say what is
wrong. -/
def parseFile (files : String → File) (path : String) : Work (Option (List (Token Kind))) :=
  let source := readTemplate files path
  match source.result with
  | none => ⟨source.messages, none⟩
  | some text =>
    let parsed := parseSource path text
    ⟨source.messages ++ parsed.messages, parsed.result⟩

/-- checks one file -/
def checkFile (files : String → File) (path : String) : Work Bool :=
  let parsed := parseFile files path
  match parsed.result with
  | none => ⟨parsed.messages, false⟩
  | some tokens =>
    ⟨parsed.messages ++
      [record .info s!"{path}: {tokens.length} token(s)", .notice s!"OK: {path}"], true⟩

/-- Checks every file, whatever came of the ones before. -/
def checkFiles (files : String → File) (paths : List String) : Work Bool :=
  let works := paths.map (checkFile files)
  ⟨works.flatMap Work.messages, works.all Work.result⟩

/-- a token as it is printed -/
def tokenLine (unescape : Bool) (t : Token Kind) : String :=
  if unescape && t.kind = .content then
    { t with text := Template.unescape t.text : Token Kind }.display
  else t.display

/-- prints the tokens of a file -/
def printTokens (files : String → File) (path : String) (unescape : Bool) : Work Bool :=
  let source := readTemplate files path
  match source.result with
  | none => ⟨source.messages, false⟩
  | some text =>
    let tokens := Template.tokenize text
    ⟨source.messages ++ (tokens.filterMap Token.record?).map Message.log ++
      tokens.map fun t => .output (tokenLine unescape t), true⟩

/-- lists the keys of a file, those of placeholders first -/
def listKeys (files : String → File) (path : String) : Work Bool :=
  let parsed := parseFile files path
  match parsed.result with
  | none => ⟨parsed.messages, false⟩
  | some tokens =>
    let outline := Template.Outline.ofTokens tokens
    ⟨parsed.messages ++
      (outline.placeholders.map fun key => .output s!"placeholder {key}") ++
      (outline.tags.map fun key => .output s!"tag {key}") ++
      [record .info s!"{path}: tag nesting depth {outline.maxDepth}"], true⟩

def Job.run (files : String → File) : Job → Work Bool
  | .check paths => checkFiles files paths
  | .tokens path unescape => printTokens files path unescape
  | .keys path => listKeys files path

structure Outcome where
  code : Nat
  stdout : String
  stderr : String
  deriving DecidableEq, Repr

/-- what a message adds to the output -/
def Message.toStdout : Message → String
  | .output line => line ++ "\n"
  | .notice _ => ""
  | .log _ => ""

/-- what a message adds to the error output -/
def Message.toStderr (logger : Log.Logger) : Message → String
  | .output _ => ""
  | .notice line => line ++ "\n"
  | .log record => if logger.shows record then logger.line record else ""

/-- the outcome of some work -/
def Work.outcome (logger : Log.Logger) (w : Work Bool) : Outcome where
  code := if w.result then 0 else 1
  stdout := String.join (w.messages.map Message.toStdout)
  stderr := String.join (w.messages.map (Message.toStderr logger))

/-- the least grave level that is to be shown: a level more for each time it is asked for -/
def levelOf : Nat → Log.Level
  | 0 => .warn
  | 1 => .info
  | 2 => .debug
  | _ => .trace

/-- What the command line is built on. -/
structure Host where
  /-- the request of an argument list, or the outcome of one that makes no request -/
  read : List String → Except Outcome Request
  /-- the logger that is set up for a level; it may follow other wishes than this one -/
  logger : Log.Level → Log.Logger

/-- The outcome of an argument list. -/
def respond (host : Host) (files : String → File) (args : List String) : Outcome :=
  match host.read args with
  | .error outcome => outcome
  | .ok r => (r.job.run files).outcome (host.logger (levelOf r.verbosity))

end TemplateCheck.Command
