import Mathlib.Logic.ExistsUnique
import TemplateCheck.Proofs.Template.Lexeme

/-!
# Tokens and lexemes

* `next_of_lexeme`          a template lexer answers with the lexeme at the front of its bytes
* `kind_next_eq_endOfInput_iff`  the closing kind stands for the end of the bytes and nothing else
* `tokenize_of_lexemes`     all its tokens are the lexemes of its bytes, and the closing token
* `tokenize_factorisation`  the tokens of a text are the one way to cut its bytes into lexemes
-/

namespace TemplateCheck.Template

section
variable {l : Lexer Kind} (ha : l.automaton = automaton)
include ha

theorem next_of_lexeme {kind : Kind} {xs rest : List UInt8} (hx : Lexeme kind xs rest)
    (hl : l.rest = xs ++ rest) :
    l.next.1.kind = kind ∧ l.next.1.text = Utf8.decodeLossy xs ∧ l.next.2.rest = rest := by
  have hne : l.rest ≠ [] := by
    rw [hl]
    exact List.append_ne_nil_of_left_ne_nil hx.ne_nil rest
  have hcut : l.automaton.cut l.rest = (kind, xs.length) := by
    rw [ha, hl, cut_of_lexeme hx]
  obtain ⟨htoken, hrest⟩ := Lexer.next_eq_cut l hne
  rw [htoken, hrest, hcut]
  refine ⟨rfl, ?_, ?_⟩
  · show Utf8.decodeLossy (l.rest.take xs.length) = _
    rw [hl, List.take_left]
  · show l.rest.drop xs.length = _
    rw [hl, List.drop_left]

theorem kind_next_eq_endOfInput_iff : l.next.1.kind = .endOfInput ↔ l.rest = [] := by
  refine ⟨?_, ?_⟩
  · intro hkind
    by_cases hne : l.rest = []
    · exact hne
    · obtain ⟨kind, xs, rest, hl, hx⟩ := exists_lexeme hne
      obtain ⟨hk, -, -⟩ := next_of_lexeme ha hx hl
      exact absurd (hk.symm.trans hkind) hx.kind_ne_endOfInput
  · intro hnil
    rw [Lexer.next_of_rest_eq_nil l hnil]
    rfl

theorem isEndOfInput_next_iff : l.next.1.isEndOfInput = true ↔ l.rest = [] := by
  rw [Token.isEndOfInput_iff]
  exact kind_next_eq_endOfInput_iff ha

end

/-- **The tokens of a template lexer** are the lexemes of its bytes, and a closing token without
text. -/
theorem tokenize_of_lexemes {l : Lexer Kind} (ha : l.automaton = automaton)
    {ps : List (Kind × List UInt8)} (hp : Lexemes l.rest ps) :
    ∃ ts last, l.tokenize = ts ++ [last] ∧ last.kind = .endOfInput ∧ last.text = "" ∧
      ts.map (fun t => (t.kind, t.text)) = ps.map fun p => (p.1, Utf8.decodeLossy p.2) := by
  generalize hl : l.rest = bs at hp
  induction hp generalizing l with
  | nil =>
    have hend := (isEndOfInput_next_iff ha).mpr hl
    refine ⟨[], l.next.1, ?_, (Token.isEndOfInput_iff _).mp hend, ?_, rfl⟩
    · rw [Lexer.tokenize_of_isEndOfInput hend]
      rfl
    · rw [Lexer.next_of_rest_eq_nil l hl]
      rfl
  | @cons kind xs rest ps hx _ ih =>
    have hend : ¬ l.next.1.isEndOfInput = true := by
      rw [isEndOfInput_next_iff ha, hl]
      exact List.append_ne_nil_of_left_ne_nil hx.ne_nil rest
    obtain ⟨hkind, htext, hrest⟩ := next_of_lexeme ha hx hl
    obtain ⟨ts, last, htok, hlast, hempty, hmap⟩ := ih ((Lexer.automaton_next l).trans ha) hrest
    refine ⟨l.next.1 :: ts, last, ?_, hlast, hempty, ?_⟩
    · rw [Lexer.tokenize_of_not_isEndOfInput hend, htok]
      rfl
    · rw [List.map_cons, List.map_cons, hmap, hkind, htext]

/-- The lexemes of a text, as bytes and as texts. -/
theorem exists_tokenize (source : String) :
    ∃ ts last, tokenize source = ts ++ [last] ∧ last.kind = .endOfInput ∧ last.text = "" ∧
      Lexemes (Utf8.encode source) (ts.map fun t => (t.kind, Utf8.encode t.text)) := by
  obtain ⟨ps, hps⟩ := exists_lexemes (Utf8.encode source)
  obtain ⟨ts, last, htok, hlast, hempty, hmap⟩ :=
    tokenize_of_lexemes (l := lexer source) rfl hps
  have hback : (ts.map fun t => (t.kind, Utf8.encode t.text)) = ps := by
    have h := congrArg (List.map fun p : Kind × String => (p.1, Utf8.encode p.2)) hmap
    rw [List.map_map, List.map_map] at h
    refine h.trans ((List.map_congr_left fun p hp => ?_).trans (List.map_id ps))
    obtain ⟨t, ht⟩ := hps.exists_encode rfl p hp
    show (p.1, Utf8.encode (Utf8.decodeLossy p.2)) = p
    rw [ht, Utf8.decodeLossy_encode, ← ht]
  exact ⟨ts, last, htok, hlast, hempty, hback ▸ hps⟩

section
variable {source : String} {ts : List (Token Kind)} {last : Token Kind}
  (htok : tokenize source = ts ++ [last])
include htok

theorem lexemes_of_tokenize :
    Lexemes (Utf8.encode source) (ts.map fun t => (t.kind, Utf8.encode t.text)) := by
  obtain ⟨ts', last', htok', -, -, hlex⟩ := exists_tokenize source
  obtain ⟨rfl, -⟩ := List.append_inj' (htok.symm.trans htok') rfl
  exact hlex

theorem kind_of_tokenize : last.kind = .endOfInput ∧ ∀ t ∈ ts, t.kind ≠ .endOfInput := by
  obtain ⟨hlast, hts⟩ := Lexer.isEndOfInput_of_tokenize htok
  refine ⟨(Token.isEndOfInput_iff _).mp hlast, fun t ht hk => ?_⟩
  exact hts t ht ((Token.isEndOfInput_iff _).mpr hk)

end

/-! ## the factorisation -/

theorem existsUnique_lexeme {bs : List UInt8} (h : bs ≠ []) :
    ∃! p : Kind × List UInt8, ∃ rest, bs = p.2 ++ rest ∧ Lexeme p.1 p.2 rest := by
  obtain ⟨kind, xs, rest, hbs, hx⟩ := exists_lexeme h
  refine ⟨(kind, xs), ⟨rest, hbs, hx⟩, ?_⟩
  rintro ⟨kind', xs'⟩ ⟨rest', hbs', hx'⟩
  obtain ⟨hk, hxs, -⟩ := hx'.unique hx (hbs'.symm.trans hbs)
  exact Prod.ext hk hxs

theorem Lexemes.lexeme_of_mem {bs : List UInt8} {ps : List (Kind × List UInt8)}
    (h : Lexemes bs ps) : ∀ p ∈ ps, ∃ rest, Lexeme p.1 p.2 rest := by
  induction h with
  | nil => exact fun p hp => absurd hp List.not_mem_nil
  | @cons kind xs rest ps hx _ ih =>
    intro p hp
    rcases List.mem_cons.mp hp with rfl | hmem
    · exact ⟨rest, hx⟩
    · exact ih p hmem

/-- **The tokens of a text are the one way to cut its bytes into lexemes**, and a closing token
without text.  Any bytes begin with exactly one lexeme. -/
theorem tokenize_factorisation (source : String) :
    (∃ ts last, tokenize source = ts ++ [last] ∧ last.kind = .endOfInput ∧ last.text = "" ∧
      (∀ t ∈ ts, t.kind ≠ .endOfInput ∧ Utf8.encode t.text ≠ []) ∧
      ∀ ps, Lexemes (Utf8.encode source) ps ↔
        ps = ts.map fun t => (t.kind, Utf8.encode t.text)) ∧
    ∀ bs : List UInt8, bs ≠ [] →
      ∃! p : Kind × List UInt8, ∃ rest, bs = p.2 ++ rest ∧ Lexeme p.1 p.2 rest := by
  refine ⟨?_, fun bs hbs => existsUnique_lexeme hbs⟩
  obtain ⟨ts, last, htok, hlast, hempty, hts⟩ := exists_tokenize source
  refine ⟨ts, last, htok, hlast, hempty, ?_, fun ps => ⟨fun hps => hps.unique hts, ?_⟩⟩
  · intro t ht
    obtain ⟨rest, hx⟩ := hts.lexeme_of_mem _ (List.mem_map_of_mem ht)
    exact ⟨hx.kind_ne_endOfInput, hx.ne_nil⟩
  · rintro rfl
    exact hts

end TemplateCheck.Template
