import TemplateCheck.Proofs.Lexer.Boundary
import TemplateCheck.Proofs.Template.Tokens

/-!
# The texts of the tokens are the template

The automaton reads bytes and knows nothing of characters, but it cuts next to ASCII bytes and at the
end of the bytes only (`Lexeme.seam`).

* `next_of_encode`     a call takes some characters off the characters that are left
* `exists_split`       so any number of calls leaves a text behind it and a text before it
* `span`               the bytes of a token
* `tokens_lossless`    tokens begin between two characters, and their texts are the whole template
-/

namespace TemplateCheck.Template
open Utf8 (encode)

/-- **One call** on a lexer that has a text before it takes the beginning of that text. -/
theorem next_of_encode {l : Lexer Kind} (ha : l.automaton = automaton) {s : String}
    (hl : l.rest = encode s) :
    ∃ s₁ s₂, s = s₁ ++ s₂ ∧ l.next.1.text = s₁ ∧ l.next.2.rest = encode s₂ := by
  by_cases hnil : l.rest = []
  · refine ⟨"", s, String.empty_append.symm, ?_, ?_⟩
    · rw [Lexer.next_of_rest_eq_nil l hnil]
      rfl
    · rw [Lexer.next_snd_of_rest_eq_nil hnil]
      exact hl
  · obtain ⟨kind, xs, rest, hxs, hx⟩ := exists_lexeme hnil
    obtain ⟨-, htext, hrest⟩ := next_of_lexeme ha hx hxs
    obtain ⟨s₁, s₂, rfl, rfl, rfl⟩ := Utf8.exists_append_of_seam (hl.symm.trans hxs) hx.seam
    exact ⟨s₁, s₂, rfl, htext.trans (Utf8.decodeLossy_encode s₁), hrest⟩

theorem exists_split (source : String) (n : Nat) :
    ∃ s₁ s₂, source = s₁ ++ s₂ ∧ ((lexer source).take n).2.rest = encode s₂ := by
  induction n with
  | zero => exact ⟨"", source, String.empty_append.symm, rfl⟩
  | succ n ih =>
    obtain ⟨s₁, s₂, hsource, hrest⟩ := ih
    obtain ⟨s₂, s₃, rfl, -, hnext⟩ := next_of_encode (Lexer.automaton_take _ n) hrest
    refine ⟨s₁ ++ s₂, s₃, ?_, ?_⟩
    · rw [hsource, String.append_assoc]
    · rw [Lexer.take_snd_succ]
      exact hnext

theorem boundary_of_split {source s₁ s₂ : String} {n : Nat} (hsource : source = s₁ ++ s₂)
    (hrest : ((lexer source).take n).2.rest = encode s₂) :
    (lexer source).boundary n = (encode s₁).length := by
  have hlength := ((Lexer.reads_ofText automaton source).take n).length
  rw [hsource, Utf8.encode_append, List.length_append, ← hsource] at hlength
  have hrest' : ((Lexer.ofText automaton source).take n).2.rest.length = (encode s₂).length :=
    congrArg List.length hrest
  rw [hrest'] at hlength
  exact (Nat.add_right_cancel hlength).symm

theorem isValid_boundary (source : String) (n : Nat) :
    String.Pos.Raw.IsValid source ⟨(lexer source).boundary n⟩ := by
  obtain ⟨s₁, s₂, hsource, hrest⟩ := exists_split source n
  refine String.Pos.Raw.isValid_iff_exists_append.mpr ⟨s₁, s₂, hsource, ?_⟩
  rw [boundary_of_split hsource hrest, Utf8.length_encode]
  rfl

/-- the bytes from the beginning of a token to the beginning of the next -/
def span (source : String) (n : Nat) : List UInt8 :=
  (encode source).extract ((lexer source).boundary n) ((lexer source).boundary (n + 1))

/-- they are those of its text -/
theorem span_eq (source : String) (n : Nat) :
    span source n = encode ((lexer source).token n).text := by
  obtain ⟨s₁, s, hsource, hrest⟩ := exists_split source n
  obtain ⟨s₂, s₃, rfl, htext, hnext⟩ := next_of_encode (Lexer.automaton_take _ n) hrest
  rw [← Lexer.take_snd_succ] at hnext
  have hsource' : source = (s₁ ++ s₂) ++ s₃ := by rw [hsource, String.append_assoc]
  have hbytes : encode source = encode s₁ ++ (encode s₂ ++ encode s₃) := by
    rw [hsource, Utf8.encode_append, Utf8.encode_append]
  have hbegin : (lexer source).boundary n = (encode s₁).length := boundary_of_split hsource hrest
  have hend : (lexer source).boundary (n + 1) = (encode s₁).length + (encode s₂).length := by
    rw [boundary_of_split hsource' hnext, Utf8.encode_append, List.length_append]
  rw [span, hbegin, hend, hbytes, List.extract_eq_take_drop, List.drop_left, Nat.add_sub_cancel_left,
    List.take_left, Lexer.token, htext]

theorem join_tokenize (source : String) :
    String.join ((tokenize source).map Token.text) = source := by
  obtain ⟨ts, last, htok, -, hempty, hlex⟩ := exists_tokenize source
  refine Utf8.encode_injective ?_
  have hbytes := hlex.flatMap_eq
  rw [List.flatMap_map] at hbytes
  rw [Utf8.encode_join, htok, List.map_append, List.flatMap_append, List.flatMap_map, hbytes,
    List.map_singleton, List.flatMap_singleton, hempty, Utf8.encode_empty, List.append_nil]

/-- **Nothing of a template is lost.**  Every token begins between two characters of the template,
the bytes up to the next one hold no broken character and are those of its text, and the texts of
all tokens are the template. -/
theorem tokens_lossless (source : String) :
    (∀ n, String.Pos.Raw.IsValid source ⟨(lexer source).boundary n⟩ ∧
      span source n = encode ((lexer source).token n).text ∧
      Utf8.decode? (span source n) = some ((lexer source).token n).text) ∧
    String.join ((tokenize source).map Token.text) = source := by
  refine ⟨fun n => ⟨isValid_boundary source n, span_eq source n, ?_⟩, join_tokenize source⟩
  rw [span_eq, Utf8.decode?_encode]

-- characters of two and of three bytes, cut next to a key on either side
example : ((lexer "é\\@k→").take 4).1.map Token.text = ["é", "\\@k", "→", ""] := by rfl

end TemplateCheck.Template
