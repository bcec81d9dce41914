import Mathlib.Data.List.Induction
import Mathlib.Order.Bounds.Basic
import TemplateCheck.Proofs.Template.Outlining

/-!
# The outline of any tokens

Where a closing tag without an opening one is passed over, counting begins anew.  So the depth at the
end of some tokens is the greatest rise of those that stand at the end, and the deepest level is the
greatest rise of any that stand side by side.

* `rise ks`                how many more tags are opened than closed
* `Levels ks (m, d)`       `m` is the greatest rise of a segment, `d` that of a segment at the end
* `Levels.concat`          one more token
* `outline_of_segments`    the keys and the depth of any tokens, balanced or not
-/

namespace TemplateCheck.Template

/-- How many more tags are opened than closed. -/
def rise (ks : List Kind) : Int :=
  ks.count .openKey - ks.count .closeKey

@[simp] theorem rise_nil : rise [] = 0 := rfl

theorem rise_append (ks ls : List Kind) : rise (ks ++ ls) = rise ks + rise ls := by
  rw [rise, rise, rise, List.count_append, List.count_append]
  omega

/-- A token changes the present level by its own rise, but not to one below 0. -/
theorem exists_deepen {deepest depth : Nat} (hle : depth ≤ deepest) (k : Kind) :
    ∃ depth' : Nat, (depth' : Int) = max 0 (depth + rise [k]) ∧
      Outline.deepen (deepest, depth) k = (max deepest depth', depth') := by
  cases k with
  | openKey =>
    refine ⟨depth + 1, ?_, rfl⟩
    show ((depth + 1 : Nat) : Int) = max 0 ((depth : Int) + 1)
    omega
  | closeKey =>
    refine ⟨depth - 1, ?_, ?_⟩
    · show ((depth - 1 : Nat) : Int) = max 0 ((depth : Int) + -1)
      omega
    · rw [Nat.max_eq_left (by omega)]
      rfl
  | _ =>
    refine ⟨depth, ?_, ?_⟩
    · show (depth : Int) = max 0 ((depth : Int) + 0)
      omega
    · rw [Nat.max_eq_left hle]
      rfl

/-- The first number is the greatest rise of a segment, and the second that of a segment at the
end. -/
structure Levels (ks : List Kind) (levels : Nat × Nat) : Prop where
  segment : ∀ ls, ls <:+: ks → rise ls ≤ levels.1
  exists_segment : ∃ ls, ls <:+: ks ∧ rise ls = levels.1
  suffix : ∀ ls, ls <:+ ks → rise ls ≤ levels.2
  exists_suffix : ∃ ls, ls <:+ ks ∧ rise ls = levels.2

theorem levels_nil : Levels [] (0, 0) where
  segment ls h := by rw [List.infix_nil.mp h]; rfl
  exists_segment := ⟨[], List.nil_infix, rfl⟩
  suffix ls h := by rw [List.suffix_nil.mp h]; rfl
  exists_suffix := ⟨[], List.nil_suffix, rfl⟩

section
variable {ks : List Kind} {deepest depth : Nat} (h : Levels ks (deepest, depth))
include h

/-- what stands at the end is a segment -/
theorem Levels.le : depth ≤ deepest := by
  obtain ⟨ls, hls, hrise⟩ := h.exists_suffix
  have hle := h.segment ls hls.isInfix
  rw [hrise] at hle
  exact Int.ofNat_le.mp hle

/-- **One more token.**  A segment at the end is empty or one that ended before it, with the token;
any other segment was there before. -/
theorem Levels.concat {k : Kind} {depth' : Nat} (hdepth : (depth' : Int) = max 0 (depth + rise [k])) :
    Levels (ks ++ [k]) (max deepest depth', depth') := by
  have hsuffix (ls : List Kind) (hls : ls <:+ ks ++ [k]) : rise ls ≤ depth' := by
    rcases List.suffix_concat_iff.mp hls with rfl | ⟨ms, rfl, hms⟩
    · exact Int.natCast_nonneg depth'
    · have hle := h.suffix ms hms
      rw [rise_append, hdepth]
      omega
  have hexists : ∃ ls, ls <:+ ks ++ [k] ∧ rise ls = depth' := by
    by_cases hpos : 0 ≤ (depth : Int) + rise [k]
    · obtain ⟨ms, hms, hrise⟩ := h.exists_suffix
      refine ⟨ms ++ [k], List.suffix_concat_iff.mpr (Or.inr ⟨ms, rfl, hms⟩), ?_⟩
      rw [rise_append, hrise, hdepth, Int.max_eq_right hpos]
    · refine ⟨[], List.nil_suffix, ?_⟩
      rw [hdepth, Int.max_eq_left (by omega), rise_nil]
  refine ⟨fun ls hls => ?_, ?_, hsuffix, hexists⟩
  · rcases List.infix_concat_iff.mp hls with hend | hls
    · have hle := hsuffix ls hend
      omega
    · have hle := h.segment ls hls
      simp only at hle
      omega
  · rcases Nat.le_total depth' deepest with hle | hle
    · obtain ⟨ls, hls, hrise⟩ := h.exists_segment
      rw [Nat.max_eq_left hle]
      exact ⟨ls, List.infix_concat_iff.mpr (Or.inr hls), hrise⟩
    · obtain ⟨ls, hls, hrise⟩ := hexists
      rw [Nat.max_eq_right hle]
      exact ⟨ls, hls.isInfix, hrise⟩

theorem Levels.deepen (k : Kind) : Levels (ks ++ [k]) (Outline.deepen (deepest, depth) k) := by
  obtain ⟨depth', hdepth, hlevels⟩ := exists_deepen h.le k
  rw [hlevels]
  exact h.concat hdepth

end

theorem levels_foldl_deepen (ks : List Kind) : Levels ks (ks.foldl Outline.deepen (0, 0)) := by
  induction ks using List.reverseRecOn with
  | nil => exact levels_nil
  | append_singleton ks k ih =>
    rw [List.foldl_append]
    exact ih.deepen k

/-- **The outline of any tokens.**  It has the names of the placeholders and of the tags, each where
it comes first, and its depth is the greatest number by which opening tags outnumber closing ones in
tokens that stand side by side. -/
theorem outline_of_segments (ts : List (Token Kind)) :
    (Outline.ofTokens ts).placeholders = (ts.filterMap placeholderKey?).eraseDups ∧
    (Outline.ofTokens ts).tags = (ts.filterMap openKey?).eraseDups ∧
    IsGreatest {d : Int | ∃ us, us <:+: ts ∧ rise (us.map Token.kind) = d}
      (Outline.ofTokens ts).maxDepth := by
  have hlevels := levels_foldl_deepen (ts.map Token.kind)
  refine ⟨Outline.placeholders_ofTokens ts, Outline.tags_ofTokens ts, ?_⟩
  rw [Outline.maxDepth_ofTokens]
  refine ⟨?_, ?_⟩
  · obtain ⟨ls, hls, hrise⟩ := hlevels.exists_segment
    obtain ⟨us, hus, rfl⟩ := List.infix_map_iff.mp hls
    exact ⟨us, hus, hrise⟩
  · rintro d ⟨us, hus, rfl⟩
    exact hlevels.segment _ (List.infix_map_iff.mpr ⟨us, hus, rfl⟩)

-- the last two tokens rise by 2, and no tokens at the beginning rise by more than 1
example : Outline.ofTokens [bare (.closeKey, ""), bare (.openKey, "\\@a\x7b"),
    bare (.openKey, "a\x7b")] = ⟨[], ["a"], 2⟩ := by decide

end TemplateCheck.Template
