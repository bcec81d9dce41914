import TemplateCheck.Proofs.Template.Placement
import TemplateCheck.Proofs.Template.Spelling
import TemplateCheck.Proofs.Template.Verdict
import TemplateCheck.Template.Escape

/-!
# Escaped texts are content

* `isPaired_escapeChars`       what is written has its backslashes in pairs
* `escapeChars_unescapeChars`  where they are in pairs, writing undoes reading
* `parse_of_isContent`         such a text is one token of content
* `parse_escape`               so every text can be written as content, and read back
-/

namespace TemplateCheck.Template
open Utf8 (encode)

/-! ## pairs of backslashes -/

theorem isPaired_cons_of_ne {c : Char} (cs : List Char) (h : c ≠ '\\') :
    isPaired (c :: cs) = isPaired cs := by
  cases cs <;> simp [isPaired, h]

theorem isPaired_escapeChars (cs : List Char) : isPaired (escapeChars cs) = true := by
  induction cs with
  | nil => rfl
  | cons c cs ih =>
    by_cases hc : c = '\\'
    · rw [escapeChars, if_pos hc]
      exact ih
    · rw [escapeChars, if_neg hc, isPaired_cons_of_ne _ hc]
      exact ih

theorem escapeChars_ne_nil {cs : List Char} (h : cs ≠ []) : escapeChars cs ≠ [] := by
  obtain ⟨c, cs, rfl⟩ := List.exists_cons_of_ne_nil h
  rw [escapeChars]
  split <;> exact List.cons_ne_nil _ _

/-- Where no backslash is without a partner, writing undoes reading. -/
theorem escapeChars_unescapeChars {cs : List Char} (h : isPaired cs = true) :
    escapeChars (unescapeChars cs) = cs := by
  induction cs using isPaired.induct with
  | case1 => rfl
  | case2 cs ih =>
    rw [unescapeChars_pair, escapeChars, if_pos rfl, ih h]
  | case3 c cs hpair ih =>
    have hc : c ≠ '\\' ∧ isPaired cs = true := by
      rw [isPaired] at h
      · simpa using h
      · exact hpair
    rw [unescapeChars_cons_of_ne cs hc.1, escapeChars, if_neg hc.1, ih hc.2]

theorem isContent_escape {s : String} (h : s ≠ "") : isContent (escape s).toList = true := by
  have hne : s.toList ≠ [] := fun hnil => h (String.toList_eq_nil_iff.mp hnil)
  rw [escape, String.toList_ofList, isContent, isPaired_escapeChars, Bool.and_true,
    Bool.not_eq_true', List.isEmpty_eq_false_iff]
  exact escapeChars_ne_nil hne

theorem unescape_escape (s : String) : unescape (escape s) = s := by
  rw [unescape, escape, String.toList_ofList, unescapeChars_escapeChars, String.ofList_toList]

theorem escape_unescape {s : String} (h : isPaired s.toList = true) : escape (unescape s) = s := by
  rw [escape, unescape, String.toList_ofList, escapeChars_unescapeChars h, String.ofList_toList]

/-! ## tokens of content -/

/-- A text that may be content is content as a whole. -/
theorem parse_of_isContent {s : String} (h : isContent s.toList = true) :
    parse s = .ok [⟨.content, s, 1, 1⟩] := by
  obtain ⟨hne, hpaired⟩ := (isContent_iff _).mp h
  have hlex : Lexemes (encode s) [(.content, encode s)] := by
    have hcons := Lexemes.cons (.content hne hpaired (Or.inl rfl)) .nil
    rw [List.append_nil] at hcons
    exact hcons
  have hplaced : Placed .start [(⟨.content, s, 1, 1⟩ : Token Kind)] := ⟨rfl, rfl, placed_nil _⟩
  obtain ⟨last, htok⟩ := tokenize_of_placed hplaced hlex
  refine parse_of_wellFormed htok ⟨?_, ?_⟩
  · intro t ht
    rw [List.mem_singleton.mp ht]
    exact nofun
  · show Balanced [.content]
    decide

theorem isPaired_of_mem_tokenize {source : String} {t : Token Kind} (ht : t ∈ tokenize source)
    (hk : t.kind = .content) : isPaired t.text.toList = true := by
  obtain ⟨ts, last, htok, hlast, -, hlex⟩ := exists_tokenize source
  rw [htok] at ht
  rcases List.mem_append.mp ht with ht | ht
  · obtain ⟨rest, hx⟩ := hlex.lexeme_of_mem _ (List.mem_map_of_mem ht)
    rw [hk, lexeme_content_iff] at hx
    exact (isPaired_iff _).mpr hx.2.1
  · rw [List.mem_singleton.mp ht, hlast] at hk
    cases hk

/-- **Every text can be written as content and read back.**  With its backslashes written twice it
is one token of content, and of a token of content nothing is lost when its text is read. -/
theorem parse_escape :
    (∀ s : String, s ≠ "" →
      parse (escape s) = .ok [⟨.content, escape s, 1, 1⟩] ∧ unescape (escape s) = s) ∧
    ∀ source, ∀ t ∈ tokenize source, t.kind = .content → escape (unescape t.text) = t.text := by
  refine ⟨?_, ?_⟩
  · intro s hs
    exact ⟨parse_of_isContent (isContent_escape hs), unescape_escape s⟩
  · intro source t ht hk
    exact escape_unescape (isPaired_of_mem_tokenize ht hk)

/-- A backslash before a sigil, and one at the end. -/
theorem parse_escape_sigil :
    let s := "\\@k\x7b\\"
    let t : Token Kind := ⟨.content, "é\\\\", 1, 4⟩
    s ≠ "" ∧ escape s = "\\\\@k\x7b\\\\" ∧
      parse (escape s) = .ok [⟨.content, escape s, 1, 1⟩] ∧ unescape (escape s) = s ∧
      t ∈ tokenize "\\@ké\\\\\\@\x7d" ∧ t.kind = .content ∧ escape (unescape t.text) = t.text := by
  intro s t
  have hs : s ≠ "" := by decide
  have htok : tokenize "\\@ké\\\\\\@\x7d" = [⟨.placeholderKey, "\\@k", 1, 1⟩, t,
      ⟨.closeKey, "\\@\x7d", 1, 8⟩] ++ [⟨.endOfInput, "", 1, 11⟩] :=
    Lexer.tokenize_of_take rfl rfl (by decide)
  have hmem : t ∈ tokenize "\\@ké\\\\\\@\x7d" := by
    rw [htok]
    exact List.mem_cons_of_mem _ List.mem_cons_self
  obtain ⟨hparse, hback⟩ := parse_escape.1 s hs
  exact ⟨hs, by decide, hparse, hback, hmem, rfl, parse_escape.2 _ t hmem rfl⟩

end TemplateCheck.Template
