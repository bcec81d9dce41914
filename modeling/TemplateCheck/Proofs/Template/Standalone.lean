import TemplateCheck.Proofs.Template.Placement

/-!
# A token as a template of its own

What ends a lexeme is the byte behind it, or the end of the input.  Where a byte ends it, the end of
the input would have done so too, and would have made it a lexeme of the same kind.

* `Lexeme.alone`                a lexeme stays one of its kind if nothing follows
* `tokenize_text_of_mem`        so the text of a token is that token, apart from its place
-/

namespace TemplateCheck.Template
open Utf8 (encode)

/-- **A lexeme alone.**  Only a backslash that neither is doubled nor begins a sigil changes its
shape: with nothing behind it, it is a dangling one. -/
theorem Lexeme.alone {kind : Kind} {xs rest : List UInt8} (h : Lexeme kind xs rest) :
    Lexeme kind xs [] := by
  have hnone {p : UInt8 → Prop} : ∀ b ∈ ([] : List UInt8).head?, p b := by simp
  cases h with
  | content hne hp _ => exact .content hne hp (Or.inl rfl)
  | placeholderKey hn _ => exact .placeholderKey hn hnone
  | openKey hn => exact .openKey hn
  | closeKey => exact .closeKey
  | dangling hp => exact .dangling hp
  | lone _ _ => exact .dangling .nil
  | bareSigil _ => exact .bareSigil hnone
  | brokenKey hkey hclose hback hxs _ => exact .brokenKey hkey hclose hback hxs hnone

/-- A text that is a lexeme is one token, at the beginning. -/
theorem tokenize_of_lexeme {kind : Kind} {text : String} (h : Lexeme kind (encode text) []) :
    let stop := Position.start.after (encode text)
    tokenize text = [⟨kind, text, 1, 1⟩, ⟨.endOfInput, "", stop.line, stop.column⟩] := by
  intro stop
  have hplaced : Placed .start [(⟨kind, text, 1, 1⟩ : Token Kind)] := ⟨rfl, rfl, placed_nil _⟩
  have hlex : Lexemes (encode text) [(kind, encode text)] := by
    have hone := Lexemes.cons h .nil
    rwa [List.append_nil] at hone
  obtain ⟨last, htok⟩ := tokenize_of_placed hplaced hlex
  obtain ⟨-, hline, hcolumn, -⟩ := placed_of_tokenize htok
  obtain ⟨ts, last', htok', hkind, hempty, -⟩ := exists_tokenize text
  obtain ⟨-, hlast⟩ := List.append_inj' (htok.symm.trans htok') rfl
  obtain rfl : last = last' := List.singleton_inj.mp hlast
  obtain ⟨kind', text', line, column⟩ := last
  obtain rfl : kind' = .endOfInput := hkind
  obtain rfl : text' = "" := hempty
  obtain rfl : line = stop.line := hline
  obtain rfl : column = stop.column := hcolumn
  exact htok

/-- **A token is a template of its own.**  The text of a token of any kind, also of one that fits
nothing, is cut into that token, at the beginning, and the closing one. -/
theorem tokenize_text_of_mem {source : String} {t : Token Kind} (ht : t ∈ tokenize source)
    (hkind : t.kind ≠ .endOfInput) :
    let stop := Position.start.after (encode t.text)
    tokenize t.text =
      [⟨t.kind, t.text, 1, 1⟩, ⟨.endOfInput, "", stop.line, stop.column⟩] := by
  obtain ⟨ts, last, htok, hlast, -, hlex⟩ := exists_tokenize source
  have hmem : t ∈ ts := by
    rw [htok] at ht
    rcases List.mem_append.mp ht with hts | hend
    · exact hts
    · exact absurd (List.mem_singleton.mp hend ▸ hlast) hkind
  obtain ⟨rest, hx⟩ := hlex.lexeme_of_mem _ (List.mem_map_of_mem hmem)
  exact tokenize_of_lexeme hx.alone

/-- A backslash that the byte behind it makes a token. -/
theorem tokenize_text_of_mem_backslash :
    let t : Token Kind := ⟨.unrecognized, "\\", 2, 3⟩
    let stop := Position.start.after (encode "\\")
    t ∈ tokenize "\n\\\\\\é\\@k" ∧ t.kind ≠ .endOfInput ∧ stop = ⟨1, 1, 2⟩ ∧
      tokenize "\\" = [⟨.unrecognized, "\\", 1, 1⟩, ⟨.endOfInput, "", stop.line, stop.column⟩] := by
  intro t stop
  have htok : tokenize "\n\\\\\\é\\@k" = [⟨.content, "\n\\\\", 1, 1⟩, t, ⟨.content, "é", 2, 4⟩,
      ⟨.placeholderKey, "\\@k", 2, 6⟩] ++ [⟨.endOfInput, "", 2, 9⟩] :=
    Lexer.tokenize_of_take rfl rfl (by decide)
  have ht : t ∈ tokenize "\n\\\\\\é\\@k" := by
    rw [htok]
    decide
  have hkind : t.kind ≠ .endOfInput := by decide
  have hstop : Position.start.after (encode "\\") = ⟨1, 1, 2⟩ := by rfl
  exact ⟨ht, hkind, hstop, tokenize_text_of_mem ht hkind⟩

end TemplateCheck.Template
