import TemplateCheck.Proofs.Cursor.Shift
import TemplateCheck.Proofs.Template.Lossless

/-!
# Tokens of a template in their places

* `placed_of_tokenize`   the tokens of a text stand one behind the other, and the closing one where
                         the text ends
* `tokenize_of_placed`   so lexemes in their places are all tokens
-/

namespace TemplateCheck.Template
open Utf8 (encode)

theorem placed_of_reads {l : Lexer Kind} {bs : List UInt8} {s : String}
    (ha : l.automaton = automaton) (h : l.Reads bs) (hs : l.rest = encode s) :
    Placed l.cursor.pos l.tokenize := by
  induction l using Lexer.tokenize_induction generalizing s with
  | last l hend =>
    obtain ⟨hline, hcolumn⟩ := l.place_next
    rw [Lexer.tokenize_of_isEndOfInput hend]
    exact ⟨hline, hcolumn, placed_nil _⟩
  | more l hend ih =>
    obtain ⟨hline, hcolumn⟩ := l.place_next
    obtain ⟨s₁, s₂, rfl, htext, hrest⟩ := next_of_encode ha hs
    have hxs : l.rest = encode s₁ ++ l.next.2.rest := by
      rw [hs, hrest, Utf8.encode_append]
    rw [Lexer.tokenize_of_not_isEndOfInput hend, placed_cons_iff, htext,
      ← h.pos_eq_after h.next hxs]
    exact ⟨hline, hcolumn, ih ((Lexer.automaton_next l).trans ha) h.next hrest⟩

theorem placed_tokenize (source : String) : Placed .start (tokenize source) :=
  placed_of_reads rfl (Lexer.reads_ofText automaton source) rfl

theorem placed_of_tokenize {source : String} {ts : List (Token Kind)} {last : Token Kind}
    (htok : tokenize source = ts ++ [last]) :
    Placed .start ts ∧ Placed (.after .start (encode source)) [last] := by
  have hplaced := placed_tokenize source
  have hbytes := (lexemes_of_tokenize htok).flatMap_eq
  rw [List.flatMap_map] at hbytes
  rw [htok, placed_append_iff, hbytes] at hplaced
  exact hplaced

/-- **Lexemes in their places are the tokens.** -/
theorem tokenize_of_placed {source : String} {ts : List (Token Kind)} (h : Placed .start ts)
    (hlex : Lexemes (encode source) (ts.map fun t => (t.kind, encode t.text))) :
    ∃ last, tokenize source = ts ++ [last] := by
  obtain ⟨us, last, htok, -, -, hlex'⟩ := exists_tokenize source
  have hplaced := (placed_of_tokenize htok).1
  obtain rfl : us = ts := hplaced.ext h (hlex'.unique hlex)
  exact ⟨last, htok⟩

end TemplateCheck.Template
