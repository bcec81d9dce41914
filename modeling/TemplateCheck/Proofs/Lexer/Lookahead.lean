import TemplateCheck.Proofs.Lexer.Boundary
import TemplateCheck.Template.Lexing

/-!
# How far a lexer looks ahead

A run looks at the byte that it does not read.  Where it then gives a byte back, it has looked at two
bytes behind the token; it never looks further.

* `Automaton.run_append`     a run that ends within some bytes does not depend on those behind them
* `Automaton.cut_append`     nor does a token that ends two bytes before them
* `Lexer.Reads.next_alike`   two lexers at one place in sources that begin alike answer alike
* `Lexer.tokenize_prefix`    tokens are settled two bytes behind their end
-/

namespace TemplateCheck

variable {K : Type}

namespace Automaton

variable [TokenKind K] (a : Automaton K)

/-- A run that ends before the last of some bytes has not looked behind them. -/
theorem run_append {state read : Nat} {xs rest : List UInt8}
    (h : (a.run state read (xs ++ rest)).1 < read + xs.length) (rest' : List UInt8) :
    a.run state read (xs ++ rest') = a.run state read (xs ++ rest) := by
  induction xs generalizing state read with
  | nil => exact absurd (a.le_run state read rest) (Nat.not_le.mpr h)
  | cons b xs ih =>
    rw [List.cons_append] at h ⊢
    rw [List.cons_append]
    cases hmove : a.move state read (some b) with
    | go next =>
      rw [a.run_cons_go hmove, List.length_cons, Nat.add_comm xs.length, ← Nat.add_assoc] at h
      rw [a.run_cons_go hmove, a.run_cons_go hmove]
      exact ih h
    | halt how => rw [a.run_cons_halt hmove, a.run_cons_halt hmove]

/-- **One token.**  Two bytes behind it, nothing has an influence on it. -/
theorem cut_append {xs rest : List UInt8} (h : (a.cut (xs ++ rest)).2 + 2 ≤ xs.length)
    (rest' : List UInt8) : a.cut (xs ++ rest') = a.cut (xs ++ rest) := by
  have hread := a.run_le_cut (xs ++ rest)
  have hrun : a.run startState 0 (xs ++ rest') = a.run startState 0 (xs ++ rest) :=
    a.run_append (by omega) rest'
  rw [cut, cut, hrun]

theorem take_cut_append {xs rest : List UInt8} (h : (a.cut (xs ++ rest)).2 + 2 ≤ xs.length)
    (rest' : List UInt8) : (xs ++ rest').take (a.cut (xs ++ rest')).2 =
      (xs ++ rest).take (a.cut (xs ++ rest)).2 := by
  have hle : (a.cut (xs ++ rest)).2 ≤ xs.length := Nat.le_of_add_right_le h
  rw [a.cut_append h, List.take_append_of_le_length hle, List.take_append_of_le_length hle]

end Automaton

namespace Lexer

/-! ## two lexers -/

section
variable {l l' : Lexer K} {xs rest rest' : List UInt8} (h : l.Reads (xs ++ rest))
  (h' : l'.Reads (xs ++ rest')) (hoffset : l'.cursor.pos.offset = l.cursor.pos.offset)
include h

/-- What is left of the bytes that two sources begin with. -/
theorem Reads.rest_eq_append (hle : l.cursor.pos.offset ≤ xs.length) :
    l.rest = xs.drop l.cursor.pos.offset ++ rest := by
  rw [h.rest, List.drop_append_of_le_length hle]

include h' hoffset

theorem Reads.pos_alike (hle : l.cursor.pos.offset ≤ xs.length) :
    l'.cursor.pos = l.cursor.pos := by
  rw [h'.pos, h.pos, hoffset, Position.place, Position.place, List.take_append_of_le_length hle,
    List.take_append_of_le_length hle]

/-- **One call.** -/
theorem Reads.next_alike [TokenKind K] (ha : l'.automaton = l.automaton)
    (hle : l.next.2.cursor.pos.offset + 2 ≤ xs.length) :
    l'.next.1 = l.next.1 ∧ l'.next.2.cursor.pos.offset = l.next.2.cursor.pos.offset := by
  have hlength : (xs ++ rest).length = xs.length + rest.length := List.length_append
  have hlength' : (xs ++ rest').length = xs.length + rest'.length := List.length_append
  have hne : l.rest ≠ [] := by
    intro hnil
    rw [next_snd_of_rest_eq_nil hnil, h.rest_eq_nil_iff.mp hnil] at hle
    omega
  have hnext := h.offset_next hne
  have hne' : l'.rest ≠ [] := by
    intro hnil
    have hend := h'.rest_eq_nil_iff.mp hnil
    omega
  have hrest := h.rest_eq_append (by omega)
  have hrest' := h'.rest_eq_append (by omega)
  rw [hoffset] at hrest'
  -- the token ends two bytes before the end of what the sources share
  have hwithin : (l.automaton.cut l.rest).2 + 2 ≤ (xs.drop l.cursor.pos.offset).length := by
    rw [List.length_drop]
    omega
  rw [hrest] at hwithin
  have hcut : l'.automaton.cut l'.rest = l.automaton.cut l.rest := by
    rw [ha, hrest', hrest]
    exact l.automaton.cut_append hwithin rest'
  have htake : l'.rest.take (l'.automaton.cut l'.rest).2 =
      l.rest.take (l.automaton.cut l.rest).2 := by
    rw [ha, hrest', hrest]
    exact l.automaton.take_cut_append hwithin rest'
  refine ⟨?_, ?_⟩
  · rw [(next_eq_cut l' hne').1, (next_eq_cut l hne).1, tokenOf, tokenOf, htake, hcut,
      h.pos_alike h' hoffset (by omega)]
  · rw [h'.offset_next hne', hnext, hcut, hoffset]

end

variable [TokenKind K]

/-- **Any number of calls.** -/
theorem Reads.take_alike {l l' : Lexer K} {xs rest rest' : List UInt8} (h : l.Reads (xs ++ rest))
    (h' : l'.Reads (xs ++ rest')) (hoffset : l'.cursor.pos.offset = l.cursor.pos.offset)
    (ha : l'.automaton = l.automaton) {n : Nat} (hle : l.boundary n + 2 ≤ xs.length) :
    (l'.take n).1 = (l.take n).1 ∧ l'.boundary n = l.boundary n := by
  induction n with
  | zero => exact ⟨rfl, hoffset⟩
  | succ n ih =>
    have hmono := h.boundary_le_succ n
    obtain ⟨htokens, hboundary⟩ := ih (by omega)
    have hautomaton : (l'.take n).2.automaton = (l.take n).2.automaton := by
      rw [automaton_take, automaton_take, ha]
    rw [boundary, take_snd_succ] at hle
    obtain ⟨htoken, hnext⟩ := (h.take n).next_alike (h'.take n) hboundary hautomaton hle
    refine ⟨?_, ?_⟩
    · rw [take_fst_succ, take_fst_succ, htokens, token, token, htoken]
    · rw [boundary, boundary, take_snd_succ, take_snd_succ, hnext]

/-- The first tokens of lexers that answer alike: one of them closes both sequences. -/
theorem tokenize_take_congr [DecidableEq K] {l l' : Lexer K} {i : Nat}
    (h : (l'.take i).1 = (l.take i).1) : l'.tokenize.take i = l.tokenize.take i := by
  induction i generalizing l l' with
  | zero => rfl
  | succ i ih =>
    rw [take_succ, take_succ] at h
    obtain ⟨htoken, hrest⟩ := List.cons.inj h
    by_cases hend : l.next.1.isEndOfInput = true
    · rw [tokenize_of_isEndOfInput hend, tokenize_of_isEndOfInput (htoken ▸ hend), htoken]
    · rw [tokenize_of_not_isEndOfInput hend, tokenize_of_not_isEndOfInput (htoken ▸ hend), htoken,
        List.take_succ_cons, List.take_succ_cons, ih hrest]

/-- **Tokens are settled two bytes behind their end.**  If two sources are the same up to there, the
tokens that end before are the same, in kind, text and place, and so are the places where they
begin and end. -/
theorem tokenize_prefix [DecidableEq K] (a : Automaton K) (source source' : String) (i : Nat) :
    let l := ofText a source
    let l' := ofText a source'
    let seen := l.boundary i + 2
    seen ≤ (Utf8.encode source).length → seen ≤ (Utf8.encode source').length →
      (Utf8.encode source').take seen = (Utf8.encode source).take seen →
      l'.tokenize.take i = l.tokenize.take i ∧ ∀ n ≤ i, l'.boundary n = l.boundary n := by
  intro l l' seen hle hle' hseen
  have h : l.Reads ((Utf8.encode source).take seen ++ (Utf8.encode source).drop seen) := by
    rw [List.take_append_drop]
    exact reads_ofText a source
  have h' : l'.Reads ((Utf8.encode source).take seen ++ (Utf8.encode source').drop seen) := by
    rw [← hseen, List.take_append_drop]
    exact reads_ofText a source'
  have halike (n : Nat) (hn : n ≤ i) :
      (l'.take n).1 = (l.take n).1 ∧ l'.boundary n = l.boundary n := by
    refine h.take_alike h' rfl rfl ?_
    rw [List.length_take_of_le hle]
    exact Nat.add_le_add_right (h.boundary_mono hn) 2
  exact ⟨tokenize_take_congr (halike i (Nat.le_refl i)).1, fun n hn => (halike n hn).2⟩

/-- The content is followed by a key in one source and by a broken sigil in the other. -/
theorem tokenize_prefix_key :
    let l := ofText Template.automaton "\\@k é\\@t\x7b"
    let l' := ofText Template.automaton "\\@k é\\@!"
    l.boundary 2 + 2 ≤ (Utf8.encode "\\@k é\\@t\x7b").length ∧
      l.boundary 2 + 2 ≤ (Utf8.encode "\\@k é\\@!").length ∧
      (Utf8.encode "\\@k é\\@!").take (l.boundary 2 + 2) =
        (Utf8.encode "\\@k é\\@t\x7b").take (l.boundary 2 + 2) ∧
      l'.tokenize.take 2 = l.tokenize.take 2 ∧ l'.boundary 2 = l.boundary 2 := by
  intro l l'
  have hle : l.boundary 2 + 2 ≤ (Utf8.encode "\\@k é\\@t\x7b").length := by decide
  have hle' : l.boundary 2 + 2 ≤ (Utf8.encode "\\@k é\\@!").length := by decide
  have hseen : (Utf8.encode "\\@k é\\@!").take (l.boundary 2 + 2) =
      (Utf8.encode "\\@k é\\@t\x7b").take (l.boundary 2 + 2) := by rfl
  obtain ⟨htokens, hboundary⟩ := tokenize_prefix Template.automaton _ _ 2 hle hle' hseen
  exact ⟨hle, hle', hseen, htokens, hboundary 2 (Nat.le_refl 2)⟩

-- one byte behind the token is not enough: the backslash may have a partner
example : (Utf8.encode "é\\\\").take 3 = (Utf8.encode "é\\@").take 3 ∧
    ((Template.lexer "é\\@").take 1).1 = [⟨.content, "é", 1, 1⟩] ∧
    ((Template.lexer "é\\\\").take 1).1 = [⟨.content, "é\\\\", 1, 1⟩] := by decide

end Lexer

end TemplateCheck
