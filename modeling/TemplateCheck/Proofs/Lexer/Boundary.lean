import TemplateCheck.Proofs.Cursor.Place
import TemplateCheck.Proofs.Lexer.Cut

/-!
# Where tokens begin and end

Tokens are numbered by the call that answers with them, from zero.  Token `n` is the bytes from
boundary `n` to boundary `n + 1`, whatever the automaton does: its tables may have any shape.

* `Lexer.Reads l bs`      the lexer stands at an exact position in these bytes
* `Lexer.token l n`       the answer of call `n`
* `Lexer.boundary l n`    the offset at which token `n` begins
* `Lexer.Reads.boundary_lt`  while bytes are left, a call takes at least one
* `Lexer.Reads.take_add`  when no bytes are left, calls leave the lexer as it is
* `Lexer.tokens_cover`    the tokens of a text are consecutive blocks of its bytes and then empty
* `Lexer.token_position`  line and column of every token, counted in the bytes before it
-/

namespace TemplateCheck

namespace Lexer

variable {K : Type}

/-! ## where a lexer stands -/

/-- The lexer stands at an exact position in these bytes. -/
structure Reads (l : Lexer K) (bs : List UInt8) : Prop where
  bytes : l.cursor.bytes = bs
  exact : l.cursor.Exact

theorem reads_ofText (a : Automaton K) (source : String) :
    (ofText a source).Reads (Utf8.encode source) :=
  ⟨Cursor.bytes_ofBytes _, Cursor.exact_ofBytes _⟩

namespace Reads

variable {l : Lexer K} {bs : List UInt8} (h : l.Reads bs)
include h

theorem pos : l.cursor.pos = Position.place bs l.cursor.pos.offset := by
  rw [h.exact.offset, ← h.bytes]
  exact h.exact.pos

theorem rest : l.rest = bs.drop l.cursor.pos.offset := by
  rw [h.exact.offset, ← h.bytes]
  exact Cursor.after_eq_drop _

theorem length : bs.length = l.cursor.pos.offset + l.rest.length := by
  rw [h.exact.offset, ← h.bytes]
  exact Cursor.length_bytes _

theorem offset_le : l.cursor.pos.offset ≤ bs.length := by
  rw [h.length]
  exact Nat.le_add_right _ _

theorem rest_eq_nil_iff : l.rest = [] ↔ l.cursor.pos.offset = bs.length := by
  have hlength := h.length
  rw [← List.length_eq_zero_iff]
  omega

/-- Between two places are the bytes that are left at the first and not at the second. -/
theorem pos_eq_after {l' : Lexer K} (h' : l'.Reads bs) {xs : List UInt8}
    (hxs : l.rest = xs ++ l'.rest) : l'.cursor.pos = l.cursor.pos.after xs := by
  have hbs : bs = (bs.take l.cursor.pos.offset ++ xs) ++ l'.rest := by
    rw [List.append_assoc, ← hxs, h.rest, List.take_append_drop]
  have hoffset : l'.cursor.pos.offset = (bs.take l.cursor.pos.offset ++ xs).length := by
    have hlength := h'.length
    rw [congrArg List.length hbs, List.length_append] at hlength
    exact (Nat.add_right_cancel hlength).symm
  have htake : bs.take l'.cursor.pos.offset = bs.take l.cursor.pos.offset ++ xs := by
    refine (congrArg (List.take l'.cursor.pos.offset) hbs).trans ?_
    rw [hoffset, List.take_left]
  rw [h'.pos, Position.place, htake, Position.after_append]
  exact congrArg (Position.after · xs) h.pos.symm

end Reads

variable [TokenKind K]

/-! ## one call -/

section
variable (l : Lexer K)

/-- a call reads some bytes, and may give one back -/
theorem exists_cursor_next : ∃ n, l.next.2.cursor = l.cursor.advanceBy n ∨
    l.next.2.cursor = (l.cursor.advanceBy n).retreat := by
  unfold next
  split
  · exact ⟨0, .inl rfl⟩
  · split
    · next n kind _ => exact ⟨n, .inl rfl⟩
    · next n kind _ => exact ⟨n, .inr rfl⟩
    · next n _ => exact ⟨max n 1, .inl rfl⟩

theorem place_next :
    l.next.1.line = l.cursor.pos.line ∧ l.next.1.column = l.cursor.pos.column := by
  unfold next
  split
  · exact ⟨rfl, rfl⟩
  · split <;> exact ⟨rfl, rfl⟩

end

namespace Reads

variable {l : Lexer K} {bs : List UInt8} (h : l.Reads bs)
include h

theorem next : l.next.2.Reads bs := by
  obtain ⟨n, hn | hn⟩ := l.exists_cursor_next
  · refine ⟨?_, ?_⟩
    · rw [hn, Cursor.bytes_advanceBy, h.bytes]
    · rw [hn]
      exact h.exact.advanceBy n
  · refine ⟨?_, ?_⟩
    · rw [hn, Cursor.bytes_retreat, Cursor.bytes_advanceBy, h.bytes]
    · rw [hn]
      exact (h.exact.advanceBy n).retreat

/-- A call takes its token off the bytes that are left. -/
theorem offset_next (hne : l.rest ≠ []) :
    l.next.2.cursor.pos.offset = l.cursor.pos.offset + (l.automaton.cut l.rest).2 := by
  -- the bytes before and after are the same bytes, and the token is no longer than what was left
  have hlength := h.length
  have hnext := h.next.length
  have hle := l.automaton.cut_le hne
  rw [(next_eq_cut l hne).2, List.length_drop] at hnext
  omega

/-- the text of an answer is the bytes between two offsets -/
theorem text_next : l.next.1.text =
    Utf8.decodeLossy (bs.extract l.cursor.pos.offset l.next.2.cursor.pos.offset) := by
  rw [List.extract_eq_take_drop, ← h.rest]
  by_cases hnil : l.rest = []
  · rw [next_of_rest_eq_nil l hnil, Nat.sub_self]
    rfl
  · rw [h.offset_next hnil, (next_eq_cut l hnil).1, Nat.add_sub_cancel_left]
    rfl

end Reads

/-! ## any number of calls -/

/-- The answer of call `n`. -/
def token (l : Lexer K) (n : Nat) : Token K :=
  (l.take n).2.next.1

/-- The offset at which token `n` begins. -/
def boundary (l : Lexer K) (n : Nat) : Nat :=
  (l.take n).2.cursor.pos.offset

section
variable (l : Lexer K)

theorem take_snd_succ (n : Nat) : (l.take (n + 1)).2 = (l.take n).2.next.2 := by
  induction n generalizing l with
  | zero => rfl
  | succ n ih =>
    rw [take_succ, ih]
    rfl

theorem automaton_take (n : Nat) : (l.take n).2.automaton = l.automaton := by
  induction n with
  | zero => rfl
  | succ n ih => rw [take_snd_succ, automaton_next, ih]

theorem take_fst (n : Nat) : (l.take n).1 = (List.range n).map l.token := by
  induction n generalizing l with
  | zero => rfl
  | succ n ih =>
    rw [take_succ, ih, List.range_succ_eq_map, List.map_cons, List.map_map]
    rfl

theorem take_fst_succ (n : Nat) : (l.take (n + 1)).1 = (l.take n).1 ++ [l.token n] := by
  rw [take_fst, take_fst, List.range_succ, List.map_append, List.map_singleton]

/-- calls that give a closing token give all tokens before it -/
theorem tokenize_prefix_take [DecidableEq K] {n : Nat} {t : Token K} (ht : t ∈ (l.take n).1)
    (hend : t.isEndOfInput = true) : l.tokenize <+: (l.take n).1 := by
  induction n generalizing l with
  | zero => exact absurd ht List.not_mem_nil
  | succ n ih =>
    rw [take_succ] at ht ⊢
    by_cases hl : l.next.1.isEndOfInput = true
    · rw [tokenize_of_isEndOfInput hl]
      exact List.cons_prefix_cons.mpr ⟨rfl, List.nil_prefix⟩
    · rw [tokenize_of_not_isEndOfInput hl]
      have hmem : t ∈ (l.next.2.take n).1 :=
        (List.mem_cons.mp ht).resolve_left fun he => hl (he ▸ hend)
      exact List.cons_prefix_cons.mpr ⟨rfl, ih l.next.2 hmem⟩

theorem tokenize_eq_take [DecidableEq K] : l.tokenize = (l.take l.tokenize.length).1 := by
  induction l using tokenize_induction with
  | last l h =>
    rw [tokenize_of_isEndOfInput h]
    rfl
  | more l h ih =>
    rw [tokenize_of_not_isEndOfInput h, List.length_cons, take_succ, ← ih]

theorem tokenize_eq_map [DecidableEq K] :
    l.tokenize = (List.range l.tokenize.length).map l.token :=
  (tokenize_eq_take l).trans (take_fst l _)

theorem exists_tokenize_eq_append [DecidableEq K] : ∃ ts last, l.tokenize = ts ++ [last] ∧
    last.isEndOfInput = true ∧ ∀ t ∈ ts, ¬ t.isEndOfInput = true := by
  have h := (List.dropLast_concat_getLast (tokenize_ne_nil l)).symm
  exact ⟨_, _, h, isEndOfInput_of_tokenize h⟩

end

namespace Reads

variable {l : Lexer K} {bs : List UInt8} {n : Nat} (h : l.Reads bs)
include h

theorem take (n : Nat) : (l.take n).2.Reads bs := by
  induction n with
  | zero => exact h
  | succ n ih =>
    rw [take_snd_succ]
    exact ih.next

theorem boundary_le (n : Nat) : l.boundary n ≤ bs.length :=
  (h.take n).offset_le

theorem rest_take (n : Nat) : (l.take n).2.rest = bs.drop (l.boundary n) :=
  (h.take n).rest

/-- **Progress.**  While bytes are left, a call takes at least one. -/
theorem boundary_lt (hn : l.boundary n < bs.length) : l.boundary n < l.boundary (n + 1) := by
  have hne : (l.take n).2.rest ≠ [] := fun hnil =>
    Nat.ne_of_lt hn ((h.take n).rest_eq_nil_iff.mp hnil)
  rw [boundary, boundary, take_snd_succ, (h.take n).offset_next hne]
  exact Nat.lt_add_of_pos_right (Automaton.one_le_cut _ _)

theorem boundary_le_succ (n : Nat) : l.boundary n ≤ l.boundary (n + 1) := by
  rcases Nat.lt_or_eq_of_le (h.boundary_le n) with hlt | hend
  · exact Nat.le_of_lt (h.boundary_lt hlt)
  · rw [boundary, boundary, take_snd_succ,
      next_snd_of_rest_eq_nil ((h.take n).rest_eq_nil_iff.mpr hend)]

theorem boundary_mono {m n : Nat} (hle : m ≤ n) : l.boundary m ≤ l.boundary n := by
  induction hle with
  | refl => exact Nat.le_refl _
  | step _ ih => exact Nat.le_trans ih (h.boundary_le_succ _)

theorem text_token (n : Nat) : (l.token n).text =
    Utf8.decodeLossy (bs.extract (l.boundary n) (l.boundary (n + 1))) := by
  rw [token, boundary, boundary, take_snd_succ]
  exact (h.take n).text_next

/-- **The end.**  When no bytes are left, calls leave the lexer as it is. -/
theorem take_add (hn : l.boundary n = bs.length) (m : Nat) :
    (l.take (n + m)).2 = (l.take n).2 := by
  have hnil : (l.take n).2.rest = [] := (h.take n).rest_eq_nil_iff.mpr hn
  induction m with
  | zero => rfl
  | succ m ih => rw [← Nat.add_assoc, take_snd_succ, ih, next_snd_of_rest_eq_nil hnil]

theorem place_token (n : Nat) :
    (l.token n).line = (Position.place bs (l.boundary n)).line ∧
      (l.token n).column = (Position.place bs (l.boundary n)).column := by
  have hplace := (l.take n).2.place_next
  rw [(h.take n).pos] at hplace
  exact hplace

/-- when no bytes are left, every answer is the same empty token -/
theorem token_add (hn : l.boundary n = bs.length) (m : Nat) :
    l.token (n + m) = ⟨TokenKind.endOfInput, "", (Position.place bs bs.length).line,
      (Position.place bs bs.length).column⟩ := by
  have hnil : (l.take n).2.rest = [] := (h.take n).rest_eq_nil_iff.mpr hn
  have hpos : (l.take n).2.cursor.pos = Position.place bs bs.length := by
    rw [(h.take n).pos]
    exact congrArg _ hn
  rw [token, h.take_add hn, next_of_rest_eq_nil _ hnil, ← hpos]
  rfl

theorem kind_getLast_take (hn : l.boundary n = bs.length) {m : Nat} (hlt : n < m) :
    (l.take m).1.getLast?.map Token.kind = some TokenKind.endOfInput := by
  obtain ⟨m, rfl⟩ := Nat.exists_eq_add_of_lt hlt
  rw [take_fst_succ, List.getLast?_concat, h.token_add hn]
  rfl

/-- A token that has bytes stands before all tokens after it. -/
theorem place_token_lt {m n : Nat} (hlt : m < n) (hm : l.boundary m < bs.length) :
    toLex ((l.token m).line, (l.token m).column) <
      toLex ((l.token n).line, (l.token n).column) := by
  obtain ⟨hline, hcolumn⟩ := h.place_token m
  obtain ⟨hline', hcolumn'⟩ := h.place_token n
  rw [hline, hcolumn, hline', hcolumn']
  refine Position.place_lt ?_ (h.boundary_le n)
  exact Nat.lt_of_lt_of_le (h.boundary_lt hm) (h.boundary_mono hlt)

end Reads

/-! ## the tokens of a text -/

/-- **The tokens of a text cover its bytes.**  While bytes are left, every call takes a block of at
least one byte that begins where the token before ended.  From then on every call gives the same
empty token and leaves the lexer as it is.  So there are at most as many tokens as bytes, and the
one that closes the sequence. -/
theorem tokens_cover [DecidableEq K] (a : Automaton K) (source : String) :
    let l := ofText a source
    let bs := Utf8.encode source
    let final := Position.place bs bs.length
    l.boundary 0 = 0 ∧
    (∀ n, l.boundary n ≤ bs.length ∧ (l.take n).2.rest = bs.drop (l.boundary n) ∧
      (l.take n).1 = (List.range n).map l.token ∧
      (l.token n).text = Utf8.decodeLossy (bs.extract (l.boundary n) (l.boundary (n + 1)))) ∧
    (∀ n, l.boundary n < bs.length → l.boundary n < l.boundary (n + 1)) ∧
    (∀ n, l.boundary n = bs.length → ∀ m, (l.take (n + m)).2 = (l.take n).2 ∧
      l.token (n + m) = ⟨TokenKind.endOfInput, "", final.line, final.column⟩) ∧
    l.tokenize = (List.range l.tokenize.length).map l.token ∧
    l.tokenize.length ≤ bs.length + 1 ∧
    ∃ ts last, l.tokenize = ts ++ [last] ∧ last.isEndOfInput = true ∧
      ∀ t ∈ ts, ¬ t.isEndOfInput = true := by
  intro l bs final
  have h : l.Reads bs := reads_ofText a source
  have hall : l.tokenize = (List.range l.tokenize.length).map l.token := by
    rw [← take_fst]
    exact tokenize_eq_take l
  exact ⟨rfl,
    fun n => ⟨h.boundary_le n, h.rest_take n, take_fst l n, h.text_token n⟩,
    fun _ hn => h.boundary_lt hn,
    fun _ hn m => ⟨h.take_add hn m, h.token_add hn m⟩,
    hall, length_tokenize_le l, exists_tokenize_eq_append l⟩

/-- **Exact positions.**  The line of a token counts the newlines before its first byte, and its
column the bytes between the last of them and that byte, both from one. -/
theorem token_position (a : Automaton K) (source : String) (n : Nat) :
    let l := ofText a source
    let bs := Utf8.encode source
    let read := bs.take (l.boundary n)
    l.boundary n ≤ bs.length ∧ (l.take n).2.rest = bs.drop (l.boundary n) ∧
    (l.token n).text = Utf8.decodeLossy (bs.extract (l.boundary n) (l.boundary (n + 1))) ∧
    (l.token n).line = 1 + read.count newline ∧
    (l.token n).column = 1 + (read.reverse.takeWhile fun b => b ≠ newline).length := by
  intro l bs read
  have h : l.Reads bs := reads_ofText a source
  obtain ⟨hline, hcolumn⟩ := h.place_token n
  refine ⟨h.boundary_le n, h.rest_take n, h.text_token n, ?_, ?_⟩
  · rw [hline, Position.place, Position.line_after]
    rfl
  · rw [hcolumn, Position.place, Position.column_after]

end Lexer

end TemplateCheck
