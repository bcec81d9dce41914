import TemplateCheck.Template.Kind

/-!
# Balanced tags

* `Balanced ks`       no prefix closes more tags than it opens, and all that are opened are closed
* `depthAfter d k`    the number of open tags after one more token; all other kinds leave it alone
* `untilStray d ks`   how many tokens come before the first closing tag that is met at depth 0
* `Closes d ks`       with `d` tags open, the tokens close each tag exactly once
-/

namespace TemplateCheck.Template

/-- No prefix closes more tags than it opens, and all that are opened are closed. -/
def Balanced (ks : List Kind) : Prop :=
  (∀ ps, ps <+: ks → ps.count .closeKey ≤ ps.count .openKey) ∧
    ks.count .closeKey = ks.count .openKey

def depthAfter (depth : Nat) : Kind → Nat
  | .openKey => depth + 1
  | .closeKey => depth - 1
  | _ => depth

/-- How many tokens come before the first closing tag that is met at depth 0. -/
def untilStray (depth : Nat) : List Kind → Nat
  | [] => 0
  | k :: ks => if k = .closeKey ∧ depth = 0 then 0 else untilStray (depthAfter depth k) ks + 1

def Closes (depth : Nat) : List Kind → Prop
  | [] => depth = 0
  | k :: ks => ¬ (k = .closeKey ∧ depth = 0) ∧ Closes (depthAfter depth k) ks

instance decidableCloses : (depth : Nat) → (ks : List Kind) → Decidable (Closes depth ks)
  | depth, [] => inferInstanceAs (Decidable (depth = 0))
  | depth, k :: ks =>
    have := decidableCloses (depthAfter depth k) ks
    inferInstanceAs (Decidable (¬ (k = .closeKey ∧ depth = 0) ∧ _))

theorem untilStray_stray (ks : List Kind) : untilStray 0 (.closeKey :: ks) = 0 := rfl

theorem untilStray_cons {depth : Nat} {k : Kind} (h : ¬ (k = .closeKey ∧ depth = 0))
    (ks : List Kind) :
    untilStray depth (k :: ks) = untilStray (depthAfter depth k) ks + 1 := by
  rw [untilStray, if_neg h]

theorem closes_cons_iff {k : Kind} (hk : k ≠ .closeKey) (depth : Nat) (ks : List Kind) :
    Closes depth (k :: ks) ↔ Closes (depthAfter depth k) ks :=
  ⟨fun h => h.2, fun h => ⟨fun hc => hk hc.1, h⟩⟩

theorem closes_closeKey_iff (depth : Nat) (ks : List Kind) :
    Closes (depth + 1) (.closeKey :: ks) ↔ Closes depth ks :=
  ⟨fun h => h.2, fun h => ⟨fun hc => Nat.succ_ne_zero depth hc.2, h⟩⟩

theorem Closes.append {depth more : Nat} {ks ls : List Kind} (hk : Closes depth ks)
    (hl : Closes more ls) : Closes (depth + more) (ks ++ ls) := by
  induction ks generalizing depth with
  | nil =>
    obtain rfl : depth = 0 := hk
    rw [Nat.zero_add]
    exact hl
  | cons k ks ih =>
    obtain ⟨hstray, hrest⟩ := hk
    have hdepth : depthAfter (depth + more) k = depthAfter depth k + more := by
      cases k <;> simp [depthAfter] at hstray ⊢ <;> omega
    refine ⟨fun h => hstray ⟨h.1, (Nat.add_eq_zero_iff.mp h.2).1⟩, ?_⟩
    rw [hdepth]
    exact ih hrest

/-- balanced tags hold no stray closing tag -/
theorem untilStray_of_closes {depth : Nat} {ks : List Kind} (h : Closes depth ks) :
    untilStray depth ks = ks.length := by
  induction ks generalizing depth with
  | nil => rfl
  | cons k ks ih => rw [untilStray_cons h.1, ih h.2, List.length_cons]

/-- the closing token neither opens nor closes a tag -/
theorem closes_concat_endOfInput (depth : Nat) (ks : List Kind) :
    Closes depth (ks ++ [.endOfInput]) ↔ Closes depth ks := by
  induction ks generalizing depth with
  | nil => exact closes_cons_iff (by decide) depth []
  | cons k ks ih => rw [List.cons_append, Closes, Closes, ih]

/-- Counting with `depth` more opening tags in front. -/
theorem closes_iff (depth : Nat) (ks : List Kind) :
    Closes depth ks ↔
      (∀ ps, ps <+: ks → ps.count .closeKey ≤ depth + ps.count .openKey) ∧
        ks.count .closeKey = depth + ks.count .openKey := by
  induction ks generalizing depth with
  | nil =>
    refine ⟨?_, ?_⟩
    · intro h
      obtain rfl : depth = 0 := h
      refine ⟨fun ps hps => ?_, rfl⟩
      rw [List.prefix_nil.mp hps]
      exact Nat.le_refl _
    · intro h
      obtain ⟨-, h⟩ := h
      show depth = 0
      simpa using h.symm
  | cons k ks ih =>
    -- what one more token in front adds to the counts
    have hstep (ps : List Kind) (h : ¬ (k = .closeKey ∧ depth = 0)) :
        (k :: ps).count .closeKey ≤ depth + (k :: ps).count .openKey ↔
          ps.count .closeKey ≤ depthAfter depth k + ps.count .openKey := by
      cases k <;> simp [depthAfter] at h ⊢ <;> omega
    have hstep' (h : ¬ (k = .closeKey ∧ depth = 0)) :
        (k :: ks).count .closeKey = depth + (k :: ks).count .openKey ↔
          ks.count .closeKey = depthAfter depth k + ks.count .openKey := by
      cases k <;> simp [depthAfter] at h ⊢ <;> omega
    refine ⟨?_, ?_⟩
    · intro h
      obtain ⟨hstray, hrest⟩ := h
      obtain ⟨hpre, htotal⟩ := (ih _).mp hrest
      refine ⟨fun ps hps => ?_, (hstep' hstray).mpr htotal⟩
      cases ps with
      | nil => exact Nat.zero_le _
      | cons k' ps =>
        obtain ⟨rfl, hps'⟩ := List.cons_prefix_cons.mp hps
        exact (hstep ps hstray).mpr (hpre ps hps')
    · intro h
      obtain ⟨hpre, htotal⟩ := h
      have hstray : ¬ (k = .closeKey ∧ depth = 0) := by
        intro h
        obtain ⟨rfl, rfl⟩ := h
        have h1 := hpre [.closeKey] (List.cons_prefix_cons.mpr ⟨rfl, List.nil_prefix⟩)
        exact absurd h1 (by decide)
      refine ⟨hstray, (ih _).mpr ⟨fun ps hps => ?_, (hstep' hstray).mp htotal⟩⟩
      exact (hstep ps hstray).mp (hpre (k :: ps) (List.cons_prefix_cons.mpr ⟨rfl, hps⟩))

theorem balanced_iff_closes (ks : List Kind) : Balanced ks ↔ Closes 0 ks := by
  rw [closes_iff]
  simp only [Nat.zero_add]
  exact Iff.rfl

instance decidableBalanced (ks : List Kind) : Decidable (Balanced ks) :=
  decidable_of_iff _ (balanced_iff_closes ks).symm

example : Balanced [.openKey, .content, .openKey, .closeKey, .closeKey, .placeholderKey] := by
  decide

example : ¬ Balanced [.openKey, .closeKey, .closeKey, .openKey] := by decide

end TemplateCheck.Template
