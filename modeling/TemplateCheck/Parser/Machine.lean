import TemplateCheck.Grammar
import TemplateCheck.Lexer
import TemplateCheck.Parser.Error
import TemplateCheck.Stack

/-!
# The parsing machine

A stack of symbols is matched against the tokens of a lexer.  A nonterminal on top is replaced by
the right-hand side that the parse table names for the next token; a terminal on top has to be the
kind of the next token.  A token that does not fit is reported and dropped, and the machine goes on
with the same stack, so that one run finds every error.

* `Event`          what a round can do: take a token, expand, match, refuse
* `Config`         stack, lexer, the token in hand, and the trace of events
* `Config.round`   one round
* `Config.done`    the machine has come to its end
* `Config.run`     a bounded number of rounds
* `roundBound`     a number of rounds that suffices for every run that ends
-/

namespace TemplateCheck.Parser

inductive Event (K : Type) where
  /-- a token was taken from the lexer -/
  | pulled (token : Token K)
  /-- a nonterminal was replaced by so many symbols -/
  | expanded (nonterminal : Nat) (look : K) (width : Nat)
  /-- a token met its terminal -/
  | matched (token : Token K)
  /-- a token did not fit -/
  | refused (error : ParseError K)
  deriving DecidableEq, Repr

structure Config (K : Type) where
  /-- the symbols still to be met -/
  stack : Stack (Symbol K)
  lexer : Lexer K
  /-- a token that was taken from the lexer and is still to be met -/
  look : Option (Token K)
  /-- the kind of the token last taken from the lexer -/
  lastKind : Option K
  /-- some token has been refused -/
  failed : Bool
  /-- what happened so far, newest first -/
  trace : List (Event K)

namespace Config

variable {K : Type}

/-- The machine before its first round: the start symbol, and below it the end of the input. -/
def start [TokenKind K] (g : Grammar K) (lexer : Lexer K) : Config K where
  stack := .ofList [.terminal TokenKind.endOfInput, .nonterminal g.start]
  lexer := lexer
  look := none
  lastKind := none
  failed := false
  trace := []

/-- takes a token from the lexer -/
def pull [TokenKind K] (c : Config K) : Token K × Config K :=
  let step := c.lexer.next
  (step.1,
    { c with
      lexer := step.2
      lastKind := some step.1.kind
      trace := .pulled step.1 :: c.trace })

/-- takes the token in hand or, if there is none, one from the lexer -/
def fetch [TokenKind K] (c : Config K) : Token K × Config K :=
  match c.look with
  | some token => (token, { c with look := none })
  | none => c.pull

/-- notes an error -/
def refuse (c : Config K) (error : ParseError K) : Config K :=
  { c with failed := true, trace := .refused error :: c.trace }

/-- puts a right-hand side in place of the nonterminal on top, and the token back in hand -/
def replace (c : Config K) (nonterminal : Nat) (token : Token K) (rhs : List (Symbol K)) :
    Config K :=
  { c with
    stack := c.stack.replaceTop rhs
    look := some token
    trace := .expanded nonterminal token.kind rhs.length :: c.trace }

/-- takes the terminal on top away, which the token has met -/
def accept (c : Config K) (token : Token K) : Config K :=
  { c with stack := c.stack.dropTop, trace := .matched token :: c.trace }

/-- takes the token after a refused one in hand -/
def skip [TokenKind K] (c : Config K) : Config K :=
  let step := c.pull
  { step.2 with look := some step.1 }

/-- A round with a nonterminal on top.  A token that no rule begins with is dropped. -/
def expand [TokenKind K] (g : Grammar K) (nonterminal : Nat) (c : Config K) : Config K :=
  let fetched := c.fetch
  match g.productionFor? nonterminal fetched.1.kind with
  | some rhs => fetched.2.replace nonterminal fetched.1 rhs
  | none => fetched.2.refuse (.noProduction fetched.1)

/-- A round with a terminal on top.  A token of another kind is dropped, and the one after it is
taken at once. -/
def meet [DecidableEq K] [TokenKind K] (expected : K) (c : Config K) : Config K :=
  let fetched := c.fetch
  if fetched.1.kind = expected then fetched.2.accept fetched.1
  else (fetched.2.refuse (.unexpected fetched.1 expected)).skip

/-- One round: the top of the stack against the next token. -/
def round [DecidableEq K] [TokenKind K] (g : Grammar K) (c : Config K) : Config K :=
  match c.stack.top? with
  | none => c
  | some (.nonterminal n) => c.expand g n
  | some (.terminal kind) => c.meet kind

/-- The machine stops when every symbol has been met or, once a token has been refused, when the
end of the input has been taken. -/
def done [DecidableEq K] [TokenKind K] (c : Config K) : Bool :=
  c.stack.isEmpty || (c.failed && c.lastKind = some TokenKind.endOfInput)

def run [DecidableEq K] [TokenKind K] (g : Grammar K) : Nat → Config K → Config K
  | 0, c => c
  | n + 1, c => if c.done then c else run g n (c.round g)

/-- the errors reported so far, in order -/
def refusals (c : Config K) : List (ParseError K) :=
  c.trace.reverse.filterMap fun
    | .refused error => some error
    | _ => none

/-- the tokens that met a terminal so far, in order -/
def met (c : Config K) : List (Token K) :=
  c.trace.reverse.filterMap fun
    | .matched token => some token
    | _ => none

/-- all errors: symbols left on the stack are one more -/
def errors (c : Config K) : List (ParseError K) :=
  if c.stack.isEmpty then c.refusals else c.refusals ++ [.prematureEnd]

/-- The result: the tokens that were met, the end of the input left out, or else every error. -/
def verdict [DecidableEq K] [TokenKind K] (c : Config K) :
    Except (List (ParseError K)) (List (Token K)) :=
  if c.errors.isEmpty then .ok (c.met.filter fun t => !t.isEndOfInput)
  else .error c.errors

/-! ## rounds and runs -/

@[simp] theorem items_replace (c : Config K) (n : Nat) (t : Token K) (rhs : List (Symbol K)) :
    (c.replace n t rhs).stack.items = rhs ++ c.stack.items.tail :=
  Stack.items_replaceTop c.stack rhs

@[simp] theorem items_accept (c : Config K) (t : Token K) :
    (c.accept t).stack.items = c.stack.items.tail :=
  Stack.items_dropTop c.stack

theorem fetch_of_look [TokenKind K] {c : Config K} {token : Token K} (h : c.look = some token) :
    c.fetch = (token, { c with look := none }) := by
  simp [fetch, h]

theorem fetch_of_look_eq_none [TokenKind K] {c : Config K} (h : c.look = none) :
    c.fetch = c.pull := by
  simp [fetch, h]

theorem expand_of_some [TokenKind K] {g : Grammar K} {n : Nat} {c : Config K}
    {rhs : List (Symbol K)} (h : g.productionFor? n c.fetch.1.kind = some rhs) :
    c.expand g n = c.fetch.2.replace n c.fetch.1 rhs := by
  simp [expand, h]

theorem expand_of_none [TokenKind K] {g : Grammar K} {n : Nat} {c : Config K}
    (h : g.productionFor? n c.fetch.1.kind = none) :
    c.expand g n = c.fetch.2.refuse (.noProduction c.fetch.1) := by
  simp [expand, h]

theorem meet_of_eq [DecidableEq K] [TokenKind K] {expected : K} {c : Config K}
    (h : c.fetch.1.kind = expected) : c.meet expected = c.fetch.2.accept c.fetch.1 := by
  simp [meet, h]

theorem meet_of_ne [DecidableEq K] [TokenKind K] {expected : K} {c : Config K}
    (h : c.fetch.1.kind ≠ expected) :
    c.meet expected = (c.fetch.2.refuse (.unexpected c.fetch.1 expected)).skip := by
  simp [meet, h]

theorem round_nonterminal [DecidableEq K] [TokenKind K] {g : Grammar K} {c : Config K} {n : Nat}
    (h : c.stack.top? = some (.nonterminal n)) : c.round g = c.expand g n := by
  simp [round, h]

theorem round_terminal [DecidableEq K] [TokenKind K] {g : Grammar K} {c : Config K} {kind : K}
    (h : c.stack.top? = some (.terminal kind)) : c.round g = c.meet kind := by
  simp [round, h]

@[simp] theorem run_zero [DecidableEq K] [TokenKind K] (g : Grammar K) (c : Config K) :
    c.run g 0 = c := rfl

theorem run_of_done [DecidableEq K] [TokenKind K] {g : Grammar K} {c : Config K}
    (h : c.done = true) (n : Nat) : c.run g n = c := by
  cases n with
  | zero => rfl
  | succ n => simp [run, h]

theorem run_succ [DecidableEq K] [TokenKind K] {g : Grammar K} {c : Config K}
    (h : c.done = false) (n : Nat) : c.run g (n + 1) = (c.round g).run g n := by
  simp [run, h]

theorem run_add [DecidableEq K] [TokenKind K] (g : Grammar K) (c : Config K) (m n : Nat) :
    c.run g (m + n) = (c.run g m).run g n := by
  induction m generalizing c with
  | zero => rw [Nat.zero_add, run_zero]
  | succ m ih =>
    cases h : c.done with
    | true => rw [run_of_done h, run_of_done h, run_of_done h]
    | false => rw [Nat.succ_add, run_succ h, run_succ h, ih]

/-- a machine that came to its end gives the same result with more rounds -/
theorem run_of_le [DecidableEq K] [TokenKind K] {g : Grammar K} {c : Config K} {m n : Nat}
    (hle : m ≤ n) (h : (c.run g m).done = true) : c.run g n = c.run g m := by
  obtain ⟨k, rfl⟩ := Nat.exists_eq_add_of_le hle
  rw [run_add, run_of_done h]

theorem errors_eq_nil_iff (c : Config K) :
    c.errors = [] ↔ c.stack.isEmpty = true ∧ c.refusals = [] := by
  unfold errors
  split <;> simp [*]

end Config

variable {K : Type}

/-- A number of rounds that suffices for every run that ends, over an input of so many bytes.

Each token that is taken from bytes has at least one of them, so a run has at most `bytes + 1`
phases of rounds before a token of one kind.  In a phase of a run that ends no nonterminal comes
up again below itself, since it would be expanded in the same way for ever; so what grows out of one
symbol of the stack is a tree of nodes with at most `maxWidth` children, nonterminals at most one
per row on each path, and a phase leaves at most one level of siblings per row behind. -/
def roundBound (g : Grammar K) (bytes : Nat) : Nat :=
  let phases := bytes + 3
  let height := 2 + phases * g.table.length * g.maxWidth
  phases * (height * Nat.pow (g.maxWidth + 1) (g.table.length + 1) + 1)

/-- The machine after as many rounds as its input can ask for. -/
def final [DecidableEq K] [TokenKind K] (g : Grammar K) (lexer : Lexer K) : Config K :=
  (Config.start g lexer).run g (roundBound g lexer.rest.length)

/-- The tokens that fit the grammar, or every error; no answer if the machine does not come to an
end. -/
def parse? [DecidableEq K] [TokenKind K] (g : Grammar K) (lexer : Lexer K) :
    Option (Except (List (ParseError K)) (List (Token K))) :=
  let c := final g lexer
  if c.done then some c.verdict else none

end TemplateCheck.Parser
