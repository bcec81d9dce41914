import TemplateCheck.Automaton
import TemplateCheck.Cursor
import TemplateCheck.Text.Utf8

/-!
# Lexers

A lexer is an automaton and a cursor.  Every call cuts one token off the bytes that are left, and
every call succeeds: where the automaton finds no token, the bytes it read, or one byte if it read
none, are an unrecognized token.

* `Lexer.next`       the next token, and the lexer after it
* `Lexer.take`       a number of tokens, also past the end of the input
* `Lexer.tokenize`   the tokens up to the first one that closes the sequence
-/

namespace TemplateCheck

/-- A reader of tokens. -/
structure Lexer (K : Type) where
  automaton : Automaton K
  /-- where the next token begins -/
  cursor : Cursor

namespace Lexer

variable {K : Type}

/-- a lexer at the beginning of a text -/
def ofText (automaton : Automaton K) (source : String) : Lexer K :=
  ⟨automaton, .ofBytes (Utf8.encode source)⟩

/-- the bytes that are left -/
def rest (l : Lexer K) : List UInt8 :=
  l.cursor.after

/-- The token of the next `length` bytes. -/
def tokenOf (l : Lexer K) (kind : K) (length : Nat) : Token K :=
  { kind
    text := Utf8.decodeLossy (l.rest.take length)
    line := l.cursor.pos.line
    column := l.cursor.pos.column }

/-- the lexer with its cursor elsewhere -/
def moveTo (l : Lexer K) (cursor : Cursor) : Lexer K :=
  { l with cursor }

/-- The next token and the lexer after it.  At the end of the input this is a token without text,
and the lexer stays as it is. -/
def next [TokenKind K] (l : Lexer K) : Token K × Lexer K :=
  if l.cursor.atEnd then (l.tokenOf TokenKind.endOfInput 0, l)
  else
    match l.automaton.run Automaton.startState 0 l.rest with
    | (n, .accept kind) => (l.tokenOf kind n, l.moveTo (l.cursor.advanceBy n))
    | (n, .pushback kind) => (l.tokenOf kind (n - 1), l.moveTo (l.cursor.advanceBy n).retreat)
    | (n, .stuck) =>
      let length := max n 1
      (l.tokenOf TokenKind.unrecognized length, l.moveTo (l.cursor.advanceBy length))

theorem next_of_rest_eq_nil [TokenKind K] (l : Lexer K) (h : l.rest = []) :
    l.next = (l.tokenOf TokenKind.endOfInput 0, l) := by
  have hc : l.cursor.atEnd = true := (Cursor.atEnd_iff _).2 h
  simp [next, hc]

/-- A call on a lexer with bytes left reads at least one of them. -/
theorem length_rest_next_lt [TokenKind K] (l : Lexer K) (h : l.rest ≠ []) :
    l.next.2.rest.length < l.rest.length := by
  have hc : l.cursor.atEnd = false := by
    simpa [Cursor.atEnd, rest] using h
  have hpos : 0 < l.rest.length := List.length_pos_iff.2 h
  have hle := Automaton.run_le l.automaton Automaton.startState 0 l.rest
  have hadv (n : Nat) : (l.cursor.advanceBy n).after.length = l.rest.length - n := by
    simp [rest]
  unfold next
  rw [hc]
  simp only [Bool.false_eq_true, if_false]
  split
  · next n kind hrun =>
    have h1 : 1 ≤ (l.automaton.run Automaton.startState 0 l.rest).1 :=
      Automaton.one_le_run_of_accept l.automaton (congrArg Prod.snd hrun)
    rw [hrun] at h1
    show (l.cursor.advanceBy n).after.length < _
    rw [hadv]
    omega
  · next n kind hrun =>
    have h2 : 2 ≤ (l.automaton.run Automaton.startState 0 l.rest).1 :=
      Automaton.two_le_run_of_pushback l.automaton (congrArg Prod.snd hrun)
    rw [hrun] at h2 hle
    show (l.cursor.advanceBy n).retreat.after.length < _
    have hr := Cursor.length_after_retreat_le (l.cursor.advanceBy n)
    rw [hadv] at hr
    simp only at h2 hle
    omega
  · next n hrun =>
    show (l.cursor.advanceBy (max n 1)).after.length < _
    rw [hadv]
    omega

theorem rest_ne_nil_of_next [DecidableEq K] [TokenKind K] (l : Lexer K)
    (h : ¬ l.next.1.isEndOfInput = true) : l.rest ≠ [] := by
  intro hnil
  apply h
  simp [next_of_rest_eq_nil l hnil, tokenOf]

def take [TokenKind K] (l : Lexer K) : Nat → List (Token K) × Lexer K
  | 0 => ([], l)
  | n + 1 =>
    let (token, l') := l.next
    let (tokens, l'') := l'.take n
    (token :: tokens, l'')

/-- The tokens of `found`, newest first, and after them those up to the first one that closes the
sequence. -/
def collect [DecidableEq K] [TokenKind K] (l : Lexer K) (found : List (Token K)) :
    List (Token K) :=
  let step := l.next
  if step.1.isEndOfInput then (step.1 :: found).reverse
  else step.2.collect (step.1 :: found)
termination_by l.rest.length
decreasing_by
  next h => exact length_rest_next_lt l (rest_ne_nil_of_next l h)

/-- The tokens up to the first one that closes the sequence, that one included. -/
def tokenize [DecidableEq K] [TokenKind K] (l : Lexer K) : List (Token K) :=
  l.collect []

section
variable [TokenKind K]

@[simp] theorem take_zero (l : Lexer K) : l.take 0 = ([], l) := rfl

theorem take_succ (l : Lexer K) (n : Nat) :
    l.take (n + 1) = (l.next.1 :: (l.next.2.take n).1, (l.next.2.take n).2) := rfl

theorem collect_of_isEndOfInput [DecidableEq K] (l : Lexer K) (found : List (Token K))
    (h : l.next.1.isEndOfInput = true) : l.collect found = found.reverse ++ [l.next.1] := by
  rw [collect]
  simp [h]

theorem collect_of_not_isEndOfInput [DecidableEq K] (l : Lexer K) (found : List (Token K))
    (h : ¬ l.next.1.isEndOfInput = true) :
    l.collect found = l.next.2.collect (l.next.1 :: found) := by
  rw [collect]
  simp [h]

theorem collect_eq_append [DecidableEq K] (l : Lexer K) (found : List (Token K)) :
    l.collect found = found.reverse ++ l.tokenize := by
  by_cases h : l.next.1.isEndOfInput = true
  · rw [tokenize, collect_of_isEndOfInput l found h, collect_of_isEndOfInput l [] h]
    rfl
  · have hlt := length_rest_next_lt l (rest_ne_nil_of_next l h)
    rw [tokenize, collect_of_not_isEndOfInput l found h, collect_of_not_isEndOfInput l [] h,
      collect_eq_append l.next.2 (l.next.1 :: found), collect_eq_append l.next.2 [l.next.1]]
    simp
termination_by l.rest.length

/-- One token at a time: a token that closes the sequence is the last. -/
theorem tokenize_eq [DecidableEq K] (l : Lexer K) :
    l.tokenize =
      if l.next.1.isEndOfInput then [l.next.1] else l.next.1 :: l.next.2.tokenize := by
  by_cases h : l.next.1.isEndOfInput = true
  · rw [if_pos h, tokenize, collect_of_isEndOfInput l [] h]
    rfl
  · rw [if_neg h, tokenize, collect_of_not_isEndOfInput l [] h, collect_eq_append]
    rfl

end

end Lexer

end TemplateCheck
