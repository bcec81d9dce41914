import TemplateCheck.Command.Outcome

/-!
# The console

A host as the program is run on one: how its arguments are read and its log records written.

* `Level.name`, `Filter`, `line`   what is shown of the log, and how
* `logger`                         the logger of a level and a filter from the environment
* `Word`, `Tail`, `readFrom`       the forms of arguments and what they ask for
* `host`                           both together

Options may stand before and after the name of the job.  How much is logged is said by repeating an
option; if it stands on both sides of the name, the side after it counts.
-/

namespace TemplateCheck.Console
open Command (Job Request Outcome Host)
open Log (Level Record Logger)

/-! ## the log -/

/-- the name of a level -/
def levelName : Level → String
  | .error => "ERROR"
  | .warn => "WARN"
  | .info => "INFO"
  | .debug => "DEBUG"
  | .trace => "TRACE"

/-- the place of a level, the gravest first -/
def rank : Level → Nat
  | .error => 1
  | .warn => 2
  | .info => 3
  | .debug => 4
  | .trace => 5

/-- The least grave level that is shown; `none` shows nothing. -/
structure Filter where
  level? : Option Level
  deriving DecidableEq, Repr

/-- the filter lets records of a level through -/
def Filter.allows (f : Filter) (level : Level) : Bool :=
  match f.level? with
  | none => false
  | some least => rank level ≤ rank least

/-- the filter of a level's name -/
def Filter.ofName? : String → Option Filter
  | "off" => some ⟨none⟩
  | "error" => some ⟨some .error⟩
  | "warn" => some ⟨some .warn⟩
  | "info" => some ⟨some .info⟩
  | "debug" => some ⟨some .debug⟩
  | "trace" => some ⟨some .trace⟩
  | _ => none

/-- The names of levels are filled up with blanks to this length. -/
def nameWidth : Nat := 5

/-- the name of a level, filled up with blanks -/
def padded (level : Level) : String :=
  levelName level ++ String.ofList (List.replicate (nameWidth - (levelName level).length) ' ')

/-- the text with four blanks after every newline -/
def indented (text : String) : String :=
  String.ofList (text.toList.flatMap fun c => if c = '\n' then "\n    ".toList else [c])

/-- A record as it is written, behind a mark of the time if there is one. -/
def line (time : Option String) (r : Record) : String :=
  let mark := time.elim "" (· ++ " ")
  "[" ++ mark ++ padded r.level ++ " " ++ r.target ++ "] " ++ indented r.message ++ "\n"

/-- The logger of a level.  A filter from the environment comes in place of the level. -/
def logger (environment : Option Filter) (time : Option String) (level : Level) : Logger where
  shows r := (environment.getD ⟨some level⟩).allows r.level
  line := line time

/-! ## the arguments -/

/-- The form of one argument. -/
inductive Word where
  /-- two hyphens: no options after this -/
  | endOfOptions
  /-- an option by its name -/
  | long (name : String)
  /-- options by their letters -/
  | letters (cs : List Char)
  /-- no option; a single hyphen is none either -/
  | plain (text : String)
  deriving DecidableEq, Repr

/-- the form of an argument -/
def Word.ofString (s : String) : Word :=
  match s.toList with
  | ['-', '-'] => .endOfOptions
  | '-' :: '-' :: cs => .long (String.ofList cs)
  | '-' :: c :: cs => .letters (c :: cs)
  | _ => .plain s

/-- What stands after the name of a job. -/
structure Tail where
  paths : List String := []
  verbosity : Nat := 0
  /-- how often resolved escapes are asked for -/
  unescape : Nat := 0
  deriving DecidableEq, Repr

/-- reads what stands after the name of a job -/
def Tail.ofArgs? : List String → Option Tail
  | [] => some {}
  | arg :: rest =>
    match Word.ofString arg with
    | .endOfOptions => some { paths := rest }
    | .long "verbose" => (ofArgs? rest).map fun t => { t with verbosity := t.verbosity + 1 }
    | .long "unescape" => (ofArgs? rest).map fun t => { t with unescape := t.unescape + 1 }
    | .long _ => none
    | .letters cs =>
      if cs.all (· = 'v') then
        (ofArgs? rest).map fun t => { t with verbosity := t.verbosity + cs.length }
      else none
    | .plain path => (ofArgs? rest).map fun t => { t with paths := path :: t.paths }

/-- the names of the jobs -/
inductive JobName where
  | check
  | tokens
  | keys
  deriving DecidableEq, Repr

/-- the job of a name -/
def JobName.ofString? : String → Option JobName
  | "check" => some .check
  | "tokens" => some .tokens
  | "keys" => some .keys
  | _ => none

/-- The job of a name and what stands after it.  Only files can be checked several at once, and
only tokens be printed with resolved escapes, which must not be asked for twice. -/
def Tail.job? (t : Tail) : JobName → Option Job
  | .check =>
    match t.paths, t.unescape with
    | path :: paths, 0 => some (.check (path :: paths))
    | _, _ => none
  | .tokens =>
    match t.paths, t.unescape with
    | [path], 0 => some (.tokens path false)
    | [path], 1 => some (.tokens path true)
    | _, _ => none
  | .keys =>
    match t.paths, t.unescape with
    | [path], 0 => some (.keys path)
    | _, _ => none

/-- the outcome of arguments that mean nothing -/
def misuse : Outcome := ⟨2, "", ""⟩

/-- the outcome of the question for the version -/
def version : Outcome := ⟨0, "stencil 0.1.0\n", ""⟩

/-- The meaning of a name and what stands after it; `before` is the verbosity asked for in front
of the name. -/
def readJob (before : Nat) (name : JobName) (args : List String) : Except Outcome Request :=
  match Tail.ofArgs? args with
  | none => .error misuse
  | some tail =>
    match tail.job? name with
    | none => .error misuse
    | some job => .ok ⟨if tail.verbosity = 0 then before else tail.verbosity, job⟩

/-- What a group of option letters in front of the name of a job means. -/
inductive Group where
  /-- so much more is to be logged -/
  | verbose (n : Nat)
  | version
  | unknown
  deriving DecidableEq, Repr

/-- reads a group of option letters; the first letter that decides counts -/
def Group.ofLetters : List Char → Group
  | [] => .verbose 0
  | c :: cs =>
    if c = 'V' then .version
    else if c = 'v' then
      match ofLetters cs with
      | .verbose n => .verbose (n + 1)
      | group => group
    else .unknown

/-- reads arguments from the first one on, so much verbosity having been asked for -/
def readFrom (before : Nat) : List String → Except Outcome Request
  | [] => .error misuse
  | arg :: rest =>
    match Word.ofString arg with
    | .endOfOptions => .error misuse
    | .long "verbose" => readFrom (before + 1) rest
    | .long "version" => .error version
    | .long _ => .error misuse
    | .letters cs =>
      match Group.ofLetters cs with
      | .verbose n => readFrom (before + n) rest
      | .version => .error version
      | .unknown => .error misuse
    | .plain text =>
      match JobName.ofString? text with
      | none => .error misuse
      | some name => readJob before name rest

/-- The console with a filter from the environment, at some time. -/
def host (environment : Option Filter) (time : Option String) : Host where
  read := readFrom 0
  logger := logger environment time

end TemplateCheck.Console
