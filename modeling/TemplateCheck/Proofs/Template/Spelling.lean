import TemplateCheck.Proofs.Template.Lexeme
import TemplateCheck.Template.Forest

/-!
# Names and content as characters and as bytes

All characters that the template language tells apart are ASCII, so what a text is can be read off
its bytes.

* `isContent_iff`     backslashes come in pairs in a text if they do in its bytes
* `isKeyChar_iff`     a character may stand in a name if all its bytes may
* `isName_iff`        a text is a name if its bytes are one
* `head_goes_on_iff`  a character goes on with a name if its first byte does
-/

namespace TemplateCheck.Template
open String (utf8EncodeChar)

/-! ## content -/

theorem mem_backslash_iff {c : Char} : 0x5C ∈ utf8EncodeChar c ↔ c = '\\' :=
  Utf8.mem_utf8EncodeChar_iff (show ('\\' : Char).toNat < 0x80 by decide)

theorem mem_openBrace_iff {c : Char} : 0x7B ∈ utf8EncodeChar c ↔ c = '{' :=
  Utf8.mem_utf8EncodeChar_iff (show ('{' : Char).toNat < 0x80 by decide)

theorem paired_cons_iff {b : UInt8} (hb : b ≠ 0x5C) {xs : List UInt8} :
    Paired (b :: xs) ↔ Paired xs := by
  refine ⟨?_, ?_⟩
  · intro hp
    cases hp with
    | pair _ => exact absurd rfl hb
    | byte _ hp => exact hp
  · exact .byte hb

theorem paired_append_iff {xs ys : List UInt8} (h : 0x5C ∉ xs) : Paired (xs ++ ys) ↔ Paired ys := by
  induction xs with
  | nil => exact Iff.rfl
  | cons b xs ih =>
    have hb : b ≠ 0x5C := fun he => h (he ▸ List.mem_cons_self)
    have hxs : 0x5C ∉ xs := fun hmem => h (List.mem_cons_of_mem b hmem)
    rw [List.cons_append, paired_cons_iff hb, ih hxs]

theorem paired_pair_iff {xs : List UInt8} : Paired (0x5C :: 0x5C :: xs) ↔ Paired xs := by
  refine ⟨?_, ?_⟩
  · intro hp
    cases hp with
    | pair hp => exact hp
    | byte hb _ => exact absurd rfl hb
  · exact .pair

/-- A backslash has a partner, which is the next character. -/
theorem not_paired_backslash {cs : List Char} (h : ∀ cs', cs ≠ '\\' :: cs') :
    ¬ Paired (0x5C :: cs.flatMap utf8EncodeChar) := by
  intro hp
  generalize hbs : cs.flatMap utf8EncodeChar = bs at hp
  cases hp with
  | byte hb _ => exact absurd rfl hb
  | @pair xs hp =>
    cases cs with
    | nil => exact absurd hbs.symm (List.cons_ne_nil _ _)
    | cons c cs =>
      have hhead : utf8EncodeChar c ≠ [] := by
        simp
      obtain ⟨b, bs, hc⟩ := List.exists_cons_of_ne_nil hhead
      rw [List.flatMap_cons, hc] at hbs
      obtain rfl : b = 0x5C := (List.cons.inj hbs).1
      have hback : c = '\\' := mem_backslash_iff.mp (hc ▸ List.mem_cons_self)
      exact h cs (hback ▸ rfl)

theorem isPaired_iff (cs : List Char) :
    isPaired cs = true ↔ Paired (cs.flatMap utf8EncodeChar) := by
  induction cs using isPaired.induct with
  | case1 => exact ⟨fun _ => .nil, fun _ => rfl⟩
  | case2 cs ih => exact ih.trans paired_pair_iff.symm
  | case3 c cs hpair ih =>
    have hcons : isPaired (c :: cs) = (decide (c ≠ '\\') && isPaired cs) := by
      rw [isPaired]
      exact hpair
    rw [hcons]
    by_cases hc : c = '\\'
    · subst hc
      have hcs : ∀ cs', cs ≠ '\\' :: cs' := fun cs' h => hpair cs' rfl h
      exact ⟨nofun, fun hp => absurd hp (not_paired_backslash hcs)⟩
    · rw [decide_eq_true hc, Bool.true_and, ih, List.flatMap_cons,
        paired_append_iff (fun h => hc (mem_backslash_iff.mp h))]

theorem flatMap_eq_nil_iff (cs : List Char) : cs.flatMap utf8EncodeChar = [] ↔ cs = [] := by
  cases cs <;> simp

theorem isContent_iff (cs : List Char) : isContent cs = true ↔
    cs.flatMap utf8EncodeChar ≠ [] ∧ Paired (cs.flatMap utf8EncodeChar) := by
  rw [isContent, Bool.and_eq_true, Bool.not_eq_true', List.isEmpty_eq_false_iff, isPaired_iff,
    Ne, Ne, flatMap_eq_nil_iff]

/-! ## names -/

theorem isKeyChar_ascii : ∀ n < 128, isKeyChar (Char.ofNat n) = isKeyByte (UInt8.ofNat n) := by
  decide

theorem lt_of_isKeyChar {c : Char} (h : isKeyChar c = true) : c.toNat < 0x80 := by
  have hle {high : UInt32} (h : c.val ≤ high) (hhigh : high.toNat < 0x80) : c.toNat < 0x80 :=
    Nat.lt_of_le_of_lt (UInt32.le_iff_toNat_le.mp h) hhigh
  have hupper (h : decide (c.val ≥ 'A'.val ∧ c.val ≤ 'Z'.val) = true) : c.toNat < 0x80 :=
    hle (of_decide_eq_true h).2 (by decide)
  have hrange (low high : Char)
      (h : (decide (c.val ≥ low.val) && decide (c.val ≤ high.val)) = true)
      (hhigh : high.toNat < 0x80) : c.toNat < 0x80 :=
    hle (of_decide_eq_true ((Bool.and_eq_true _ _).mp h).2) hhigh
  simp only [isKeyChar, Bool.or_eq_true, decide_eq_true_eq] at h
  rcases h with ((h | rfl) | rfl) | rfl
  · rcases (Bool.or_eq_true _ _).mp (show (c.isAlpha || c.isDigit) = true from h) with h | h
    · rcases (Bool.or_eq_true _ _).mp (show (c.isUpper || c.isLower) = true from h) with h | h
      · exact hupper h
      · exact hrange 'a' 'z' h (by decide)
    · exact hrange '0' '9' h (by decide)
  · decide
  · decide
  · decide

/-- A character may stand in a name if all its bytes may. -/
theorem isKeyChar_iff (c : Char) :
    isKeyChar c = true ↔ ∀ b ∈ utf8EncodeChar c, isKeyByte b = true := by
  by_cases hc : c.toNat < 0x80
  · have hascii := isKeyChar_ascii c.toNat hc
    rw [Char.ofNat_toNat] at hascii
    rw [hascii, Utf8.utf8EncodeChar_one hc]
    exact (List.forall_mem_singleton (p := fun b => isKeyByte b = true)).symm
  · refine ⟨?_, ?_⟩
    · exact fun h => absurd (lt_of_isKeyChar h) hc
    · intro h
      have hhead := List.head_mem (show utf8EncodeChar c ≠ [] by simp)
      have hle := Utf8.le_of_mem_utf8EncodeChar (Nat.le_of_not_lt hc) hhead
      exact absurd (lt_of_isKeyByte (h _ hhead)) (UInt8.not_lt.mpr hle)

theorem isName_iff (cs : List Char) : isName cs = true ↔ IsName (cs.flatMap utf8EncodeChar) := by
  rw [isName, Bool.and_eq_true, Bool.not_eq_true', List.isEmpty_eq_false_iff, IsName, Ne, Ne,
    flatMap_eq_nil_iff, List.all_eq_true]
  refine and_congr_right fun _ => ?_
  refine ⟨?_, ?_⟩
  · intro h b hb
    obtain ⟨c, hc, hmem⟩ := List.mem_flatMap.mp hb
    exact (isKeyChar_iff c).mp (h c hc) b hmem
  · intro h c hc
    exact (isKeyChar_iff c).mpr fun b hb => h b (List.mem_flatMap.mpr ⟨c, hc, hb⟩)

/-- The first byte of a character tells whether the character would go on with a name. -/
theorem head_goes_on_iff {c : Char} {b : UInt8} (hb : (utf8EncodeChar c).head? = some b) :
    isKeyByte b = false ∧ b ≠ 0x7B ↔ (isKeyChar c || c = '{') = false := by
  have hmem : b ∈ utf8EncodeChar c := List.mem_of_head? hb
  have hkey : isKeyByte b = true ↔ isKeyChar c = true := by
    rw [isKeyChar_iff]
    refine ⟨?_, ?_⟩
    · intro h b' hb'
      rw [Utf8.utf8EncodeChar_of_mem (lt_of_isKeyByte h) hmem, List.mem_singleton] at hb'
      rw [hb', h]
    · exact fun h => h b hmem
  have hopen : b = 0x7B ↔ c = '{' := by
    rw [← mem_openBrace_iff]
    refine ⟨?_, ?_⟩
    · rintro rfl
      exact hmem
    · intro h
      rw [Utf8.utf8EncodeChar_of_mem (by decide) h, List.mem_singleton] at hmem
      exact hmem
  rw [Bool.or_eq_false_iff, decide_eq_false_iff_not, ← hopen, ← Bool.not_eq_true, hkey,
    Bool.not_eq_true]

end TemplateCheck.Template
