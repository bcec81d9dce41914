import TemplateCheck.Proofs.Lexer.Boundary
import TemplateCheck.Proofs.Text.Broken
import TemplateCheck.Template.Kind

/-!
# The texts of tokens that end inside characters

An automaton reads bytes, and nothing keeps its tokens from ending inside a character.

* `Lexer.text_token_eq_fragment`   the text of a token is what its bytes show of the source
* `Lexer.join_tokenize_eq_iff`     the texts of all tokens are the source if no token begins inside
                                   a character, and only then
* `Lexer.texts_of_tokens`          both, and what becomes of each character
-/

namespace TemplateCheck.Lexer
open Utf8 (encode fragment fragments replacement size Inside)

variable {K : Type} [TokenKind K]

section
variable (a : Automaton K) (source : String)

theorem text_token_eq_fragment (n : Nat) :
    ((ofText a source).token n).text = String.ofList (fragment ((ofText a source).boundary n)
      ((ofText a source).boundary (n + 1)) source.toList) := by
  rw [(reads_ofText a source).text_token]
  exact Utf8.decodeLossy_extract _ _ source.toList

theorem toList_join_tokenize [DecidableEq K] :
    (String.join ((ofText a source).tokenize.map Token.text)).toList =
      fragments (ofText a source).boundary (ofText a source).tokenize.length source.toList := by
  have htext (n : Nat) : ((ofText a source).token n).text.toList =
      fragment ((ofText a source).boundary n) ((ofText a source).boundary (n + 1))
        source.toList := by
    rw [text_token_eq_fragment, String.toList_ofList]
  rw [String.toList_join]
  refine (congrArg (fun ts => (ts.map Token.text).flatMap String.toList)
    (tokenize_eq_map (ofText a source))).trans ?_
  rw [List.map_map, List.flatMap_map]
  exact congrArg (List.flatMap · _) (funext htext)

theorem isValid_boundary_iff (n : Nat) :
    String.Pos.Raw.IsValid source ⟨(ofText a source).boundary n⟩ ↔
      ¬ Inside ((ofText a source).boundary n) source.toList :=
  Utf8.isValid_iff_not_inside ((reads_ofText a source).boundary_le n)

/-- The texts of tokens that take all bytes. -/
theorem join_tokenize_eq_iff [DecidableEq K]
    (hall : (ofText a source).boundary (ofText a source).tokenize.length =
      (encode source).length) :
    String.join ((ofText a source).tokenize.map Token.text) = source ↔
      ∀ n ≤ (ofText a source).tokenize.length,
        String.Pos.Raw.IsValid source ⟨(ofText a source).boundary n⟩ := by
  have h := reads_ofText a source
  have hwhole : fragment 0 ((ofText a source).boundary (ofText a source).tokenize.length)
      source.toList = source.toList := Utf8.fragment_all (Nat.le_of_eq hall.symm)
  have hlt (n : Nat) (hin : Inside ((ofText a source).boundary n) source.toList) :
      (ofText a source).boundary n < (ofText a source).boundary (n + 1) :=
    h.boundary_lt (Utf8.lt_of_inside hin)
  have hcut := Utf8.fragments_eq_iff rfl h.boundary_le_succ hlt (ofText a source).tokenize.length
  rw [hwhole] at hcut
  rw [← String.toList_inj, toList_join_tokenize, hcut]
  refine ⟨fun hout n hn => ?_, fun hvalid n hn => ?_⟩
  · rw [isValid_boundary_iff]
    rcases Nat.lt_or_eq_of_le hn with hn | rfl
    · exact hout n hn
    · -- the last place is the end of the source
      exact fun hin => Nat.ne_of_lt (Utf8.lt_of_inside hin) hall
  · exact (isValid_boundary_iff a source n).mp (hvalid n (Nat.le_of_lt hn))

end

/-- **The texts of tokens.**  If the tokens take all bytes, their texts are the source exactly if no
token begins inside a character.  A character with all its bytes in one token is in the text of that
token.  Where a token ends inside a character, its text ends with one replacement for the bytes of
that character, however many they are, and in the texts of later tokens each other byte is one
replacement. -/
theorem texts_of_tokens [DecidableEq K] (a : Automaton K) (source : String) :
    let l := ofText a source
    (l.boundary l.tokenize.length = (encode source).length →
      (String.join (l.tokenize.map Token.text) = source ↔
        ∀ n ≤ l.tokenize.length, String.Pos.Raw.IsValid source ⟨l.boundary n⟩)) ∧
    l.tokenize = (List.range l.tokenize.length).map l.token ∧
    (∀ n, (l.token n).text =
      String.ofList (fragment (l.boundary n) (l.boundary (n + 1)) source.toList)) ∧
    ∀ before c behind, source.toList = before ++ c :: behind →
      let start := size before
      let stop := start + c.utf8Size
      ∀ n, l.boundary n ≤ start → start < l.boundary (n + 1) →
        (stop ≤ l.boundary (n + 1) → (l.token n).text =
          String.ofList (fragment (l.boundary n) (l.boundary (n + 1)) before ++
            c :: fragment 0 (l.boundary (n + 1) - stop) behind)) ∧
        (l.boundary (n + 1) < stop →
          (l.token n).text = String.ofList
            (fragment (l.boundary n) (l.boundary (n + 1)) before ++ [replacement]) ∧
          ∀ m > n, (l.token m).text = String.ofList
            (List.replicate (min (l.boundary (m + 1)) stop - l.boundary m) replacement ++
              fragment (l.boundary m - stop) (l.boundary (m + 1) - stop) behind)) := by
  intro l
  have h : l.Reads (encode source) := reads_ofText a source
  refine ⟨join_tokenize_eq_iff a source, tokenize_eq_map l, text_token_eq_fragment a source, ?_⟩
  intro before c behind hsource start stop n hbegin hend
  have htext (m : Nat) : (l.token m).text = String.ofList
      (fragment (l.boundary m) (l.boundary (m + 1)) (before ++ c :: behind)) := by
    rw [← hsource]
    exact text_token_eq_fragment a source m
  refine ⟨fun hwhole => ?_, fun hcut => ⟨?_, fun m hm => ?_⟩⟩
  · rw [htext, Utf8.fragment_whole c behind rfl hbegin hwhole]
  · rw [htext, Utf8.fragment_head c behind rfl hbegin hend hcut]
  · have hbehind : start < l.boundary m := Nat.lt_of_lt_of_le hend (h.boundary_mono hm)
    rw [htext, Utf8.fragment_tail c behind rfl hbehind]

/-- Tokens of two bytes each cut both long characters, the second of them in front of its last two
bytes. -/
theorem texts_of_tokens_pairs :
    let a : Automaton Template.Kind := {
      columns := 1
      transitions := [[1], [2], [3]]
      actions := [.scan, .scan, .scan, .accept .content]
      classify := fun _ => 0 }
    let l := ofText a "aé→x"
    l.tokenize.map Token.text = ["a\uFFFD", "\uFFFD\uFFFD", "\uFFFD\uFFFD", "x", ""] ∧
      l.boundary l.tokenize.length = (encode "aé→x").length ∧
      (¬ ∀ n ≤ l.tokenize.length, String.Pos.Raw.IsValid "aé→x" ⟨l.boundary n⟩) ∧
      (l.token 1).text = String.ofList (fragment 2 4 ['a', 'é'] ++ [replacement]) ∧
      (l.token 2).text = String.ofList (List.replicate 2 replacement ++ fragment 0 0 ['x']) := by
  intro a l
  have htokens : l.tokenize = [⟨.content, "a\uFFFD", 1, 1⟩, ⟨.content, "\uFFFD\uFFFD", 1, 3⟩,
      ⟨.content, "\uFFFD\uFFFD", 1, 5⟩, ⟨.unrecognized, "x", 1, 7⟩] ++ [⟨.endOfInput, "", 1, 8⟩] :=
    tokenize_of_take rfl rfl (by decide)
  have hall : l.boundary l.tokenize.length = (encode "aé→x").length := by
    rw [htokens]
    rfl
  obtain ⟨hjoin, -, -, hchar⟩ := texts_of_tokens a "aé→x"
  obtain ⟨-, hcut⟩ := hchar ['a', 'é'] '→' ['x'] rfl 1 (by decide) (by decide)
  obtain ⟨hhead, htail⟩ := hcut (by decide)
  refine ⟨by rw [htokens]; rfl, hall, fun hvalid => ?_, hhead, htail 2 (by decide)⟩
  have hsource := (hjoin hall).mpr hvalid
  rw [htokens] at hsource
  exact absurd hsource (by decide)

end TemplateCheck.Lexer
