import TemplateCheck.Text.Utf8

/-!
# Decoding undoes encoding, and where the bytes of a text may be cut

* `foldl_feed_utf8EncodeChar`  the bytes of a character are read as that character
* `decodeLossy_encode`         the bytes of a text are read as that text
* `decode?_encode`             and nothing in them is broken
* `mem_utf8EncodeChar_iff`     an ASCII byte stands for its character and nothing else
* `Seam as bs`                 the place between `as` and `bs` is next to an ASCII byte or to an end
* `exists_split_of_seam`       a text whose bytes are cut at a seam is cut between two characters

A byte of a character of two bytes or more is never below 0x80 (`le_of_mem_utf8EncodeChar`), so a
cut inside a character has no ASCII byte beside it.
-/

namespace TemplateCheck.Utf8

/-! ## the bytes of a character -/

theorem toNat_lt (c : Char) : c.toNat < 0x110000 := by
  have h : c.toNat < 0xD800 ∨ 0xDFFF < c.toNat ∧ c.toNat < 0x110000 := c.valid
  omega

theorem utf8EncodeChar_one {c : Char} (h : c.toNat < 0x80) :
    String.utf8EncodeChar c = [UInt8.ofNat c.toNat] := by
  have h1 : c.val.toNat ≤ 0x7f := Nat.le_of_lt_succ h
  simp only [String.utf8EncodeChar, if_pos h1]
  rfl

theorem utf8EncodeChar_two {c : Char} (hl : 0x80 ≤ c.toNat) (hh : c.toNat < 0x800) :
    String.utf8EncodeChar c =
      [UInt8.ofNat (c.toNat / 64 + 0xC0), UInt8.ofNat (c.toNat % 64 + 0x80)] := by
  have h1 : ¬ c.toNat ≤ 0x7f := by omega
  have h2 : c.toNat ≤ 0x7ff := by omega
  have hm : c.toNat / 64 % 0x20 = c.toNat / 64 := by omega
  show (if c.toNat ≤ 0x7f then _ else if c.toNat ≤ 0x7ff then
    [UInt8.ofNat (c.toNat / 64 % 0x20 + 0xC0), UInt8.ofNat (c.toNat % 64 + 0x80)] else _) = _
  rw [if_neg h1, if_pos h2, hm]

theorem utf8EncodeChar_three {c : Char} (hl : 0x800 ≤ c.toNat) (hh : c.toNat < 0x10000) :
    String.utf8EncodeChar c =
      [UInt8.ofNat (c.toNat / 4096 + 0xE0), UInt8.ofNat (c.toNat / 64 % 64 + 0x80),
        UInt8.ofNat (c.toNat % 64 + 0x80)] := by
  have h1 : ¬ c.toNat ≤ 0x7f := by omega
  have h2 : ¬ c.toNat ≤ 0x7ff := by omega
  have h3 : c.toNat ≤ 0xffff := by omega
  have hm : c.toNat / 4096 % 0x10 = c.toNat / 4096 := by omega
  show (if c.toNat ≤ 0x7f then _ else if c.toNat ≤ 0x7ff then _ else if c.toNat ≤ 0xffff then
    [UInt8.ofNat (c.toNat / 4096 % 0x10 + 0xE0), UInt8.ofNat (c.toNat / 64 % 64 + 0x80),
      UInt8.ofNat (c.toNat % 64 + 0x80)] else _) = _
  rw [if_neg h1, if_neg h2, if_pos h3, hm]

theorem utf8EncodeChar_four {c : Char} (hl : 0x10000 ≤ c.toNat) :
    String.utf8EncodeChar c =
      [UInt8.ofNat (c.toNat / 262144 + 0xF0), UInt8.ofNat (c.toNat / 4096 % 64 + 0x80),
        UInt8.ofNat (c.toNat / 64 % 64 + 0x80), UInt8.ofNat (c.toNat % 64 + 0x80)] := by
  have h1 : ¬ c.toNat ≤ 0x7f := by omega
  have h2 : ¬ c.toNat ≤ 0x7ff := by omega
  have h3 : ¬ c.toNat ≤ 0xffff := by omega
  have hlt := toNat_lt c
  have hm : c.toNat / 262144 % 0x08 = c.toNat / 262144 := by omega
  show (if c.toNat ≤ 0x7f then _ else if c.toNat ≤ 0x7ff then _ else if c.toNat ≤ 0xffff then _
    else [UInt8.ofNat (c.toNat / 262144 % 0x08 + 0xF0), UInt8.ofNat (c.toNat / 4096 % 64 + 0x80),
      UInt8.ofNat (c.toNat / 64 % 64 + 0x80), UInt8.ofNat (c.toNat % 64 + 0x80)]) = _
  rw [if_neg h1, if_neg h2, if_neg h3, hm]

/-- a character of more than one byte has no ASCII byte -/
theorem le_of_mem_utf8EncodeChar {c : Char} (hc : 0x80 ≤ c.toNat) {b : UInt8}
    (hb : b ∈ String.utf8EncodeChar c) : 0x80 ≤ b := by
  have htail (n : Nat) (hl : 0x80 ≤ n) (hh : n < 256) : 0x80 ≤ UInt8.ofNat n := by
    rw [UInt8.le_iff_toNat_le, UInt8.toNat_ofNat_of_lt' hh]
    exact hl
  have hlt := toNat_lt c
  by_cases h2 : c.toNat < 0x800
  · simp only [utf8EncodeChar_two hc h2, List.mem_cons, List.not_mem_nil, or_false] at hb
    rcases hb with rfl | rfl <;> exact htail _ (by omega) (by omega)
  · by_cases h3 : c.toNat < 0x10000
    · simp only [utf8EncodeChar_three (by omega) h3, List.mem_cons, List.not_mem_nil,
        or_false] at hb
      rcases hb with rfl | rfl | rfl <;> exact htail _ (by omega) (by omega)
    · simp only [utf8EncodeChar_four (c := c) (by omega), List.mem_cons, List.not_mem_nil,
        or_false] at hb
      rcases hb with rfl | rfl | rfl | rfl <;> exact htail _ (by omega) (by omega)

/-! ## lead bytes and tails -/

theorem lead_ascii {n : Nat} (h : n < 128) : lead (UInt8.ofNat n) = .single (Char.ofNat n) := by
  have hlt : UInt8.ofNat n < 0x80 := by
    rw [UInt8.lt_iff_toNat_lt, UInt8.toNat_ofNat_of_lt' (by simp [UInt8.size]; omega)]
    exact h
  have hn : (UInt8.ofNat n).toNat = n := UInt8.toNat_ofNat_of_lt' (by simp [UInt8.size]; omega)
  rw [lead, if_pos hlt, hn]

theorem lead_two : ∀ n < 32, 2 ≤ n →
    lead (UInt8.ofNat (n + 0xC0)) = .opens ⟨1, 0x80, 0xBF, n⟩ := by
  decide

/-- The second of three bytes keeps overlong forms and surrogates out. -/
theorem lead_three : ∀ n < 16,
    lead (UInt8.ofNat (n + 0xE0)) =
      .opens ⟨2, if n = 0 then 0xA0 else 0x80, if n = 13 then 0x9F else 0xBF, n⟩ := by
  decide

/-- The second of four bytes keeps overlong forms and values past U+10FFFF out. -/
theorem lead_four : ∀ n ≤ 4,
    lead (UInt8.ofNat (n + 0xF0)) =
      .opens ⟨3, if n = 0 then 0x90 else 0x80, if n = 4 then 0x8F else 0xBF, n⟩ := by
  decide

namespace Decoder

theorem feed_single {ps : List (Option Char)} {b : UInt8} {c : Char} (h : lead b = .single c) :
    feed ⟨ps, none⟩ b = ⟨some c :: ps, none⟩ := by
  simp [feed, begin, h]

theorem feed_opens {ps : List (Option Char)} {b : UInt8} {p : Pending} (h : lead b = .opens p) :
    feed ⟨ps, none⟩ b = ⟨ps, some p⟩ := by
  simp [feed, begin, h]

/-- the value of a tail byte, and that it lies within the bounds -/
theorem toNat_tail {n : Nat} {low high : UInt8} (hn : n < 64) (hlow : low.toNat ≤ n + 0x80)
    (hhigh : n + 0x80 ≤ high.toNat) :
    (UInt8.ofNat (n + 0x80)).toNat = n + 0x80 ∧
      low ≤ UInt8.ofNat (n + 0x80) ∧ UInt8.ofNat (n + 0x80) ≤ high := by
  have hb : (UInt8.ofNat (n + 0x80)).toNat = n + 0x80 :=
    UInt8.toNat_ofNat_of_lt' (by simp [UInt8.size]; omega)
  refine ⟨hb, ?_, ?_⟩
  · rw [UInt8.le_iff_toNat_le, hb]; exact hlow
  · rw [UInt8.le_iff_toNat_le, hb]; exact hhigh

section
variable {ps : List (Option Char)} {owed value n : Nat} {low high : UInt8} (hn : n < 64)
  (hlow : low.toNat ≤ n + 0x80) (hhigh : n + 0x80 ≤ high.toNat)
include hn hlow hhigh

/-- a tail that is not the last -/
theorem feed_tail (howed : 2 ≤ owed) :
    feed ⟨ps, some ⟨owed, low, high, value⟩⟩ (UInt8.ofNat (n + 0x80)) =
      ⟨ps, some ⟨owed - 1, 0x80, 0xBF, value * 64 + n⟩⟩ := by
  obtain ⟨hb, hin⟩ := toNat_tail hn hlow hhigh
  have hmod : (n + 0x80) % 64 = n := by omega
  simp only [feed, if_pos hin, if_neg (show ¬ owed ≤ 1 by omega), hb, hmod]

/-- the last tail -/
theorem feed_last :
    feed ⟨ps, some ⟨1, low, high, value⟩⟩ (UInt8.ofNat (n + 0x80)) =
      ⟨some (Char.ofNat (value * 64 + n)) :: ps, none⟩ := by
  obtain ⟨hb, hin⟩ := toNat_tail hn hlow hhigh
  have hmod : (n + 0x80) % 64 = n := by omega
  simp only [feed, if_pos hin, Nat.le_refl, if_true, hb, hmod]

end

/-- **The bytes of a character are read as that character.** -/
theorem foldl_feed_utf8EncodeChar (ps : List (Option Char)) (c : Char) :
    (String.utf8EncodeChar c).foldl feed ⟨ps, none⟩ = ⟨some c :: ps, none⟩ := by
  have hchar : Char.ofNat c.toNat = c := Char.ofNat_toNat c
  have hvalid : c.toNat < 0xD800 ∨ 0xDFFF < c.toNat ∧ c.toNat < 0x110000 := c.valid
  by_cases h1 : c.toNat < 0x80
  · rw [utf8EncodeChar_one h1]
    simp only [List.foldl_cons, List.foldl_nil]
    rw [feed_single (lead_ascii h1), hchar]
  by_cases h2 : c.toNat < 0x800
  · have hv : c.toNat / 64 * 64 + c.toNat % 64 = c.toNat := by omega
    rw [utf8EncodeChar_two (by omega) h2]
    simp only [List.foldl_cons, List.foldl_nil]
    rw [feed_opens (lead_two _ (by omega) (by omega)),
      feed_last (by omega) (by simp) (by simp; omega), hv, hchar]
  by_cases h3 : c.toNat < 0x10000
  · have hv : (c.toNat / 4096 * 64 + c.toNat / 64 % 64) * 64 + c.toNat % 64 = c.toNat := by omega
    -- the character is not too small for three bytes and no surrogate
    have hlow : (if c.toNat / 4096 = 0 then (0xA0 : UInt8) else 0x80).toNat ≤
        c.toNat / 64 % 64 + 0x80 := by
      split
      · show 0xA0 ≤ _
        omega
      · exact Nat.le_add_left _ _
    have hhigh : c.toNat / 64 % 64 + 0x80 ≤
        (if c.toNat / 4096 = 13 then (0x9F : UInt8) else 0xBF).toNat := by
      split
      · show _ ≤ 0x9F
        omega
      · show _ ≤ 0xBF
        omega
    rw [utf8EncodeChar_three (by omega) h3]
    simp only [List.foldl_cons, List.foldl_nil]
    rw [feed_opens (lead_three _ (by omega)), feed_tail (by omega) hlow hhigh (Nat.le_refl 2),
      feed_last (by omega) (by simp) (by simp; omega), hv, hchar]
  · have hv : ((c.toNat / 262144 * 64 + c.toNat / 4096 % 64) * 64 + c.toNat / 64 % 64) * 64
        + c.toNat % 64 = c.toNat := by omega
    -- the character is not too small for four bytes and not too great
    have hlow : (if c.toNat / 262144 = 0 then (0x90 : UInt8) else 0x80).toNat ≤
        c.toNat / 4096 % 64 + 0x80 := by
      split
      · show 0x90 ≤ _
        omega
      · exact Nat.le_add_left _ _
    have hhigh : c.toNat / 4096 % 64 + 0x80 ≤
        (if c.toNat / 262144 = 4 then (0x8F : UInt8) else 0xBF).toNat := by
      split
      · show _ ≤ 0x8F
        omega
      · show _ ≤ 0xBF
        omega
    rw [utf8EncodeChar_four (by omega)]
    simp only [List.foldl_cons, List.foldl_nil]
    rw [feed_opens (lead_four _ (by omega)), feed_tail (by omega) hlow hhigh (by omega),
      feed_tail (by omega) (by simp) (by simp; omega) (Nat.le_refl 2),
      feed_last (by omega) (by simp) (by simp; omega), hv, hchar]

/-- the bytes of a sequence of characters are read as these characters -/
theorem foldl_feed_flatMap (ps : List (Option Char)) (cs : List Char) :
    (cs.flatMap String.utf8EncodeChar).foldl feed ⟨ps, none⟩ =
      ⟨(cs.map some).reverse ++ ps, none⟩ := by
  induction cs generalizing ps with
  | nil => rfl
  | cons c cs ih =>
    rw [List.flatMap_cons, List.foldl_append, foldl_feed_utf8EncodeChar, ih, List.map_cons,
      List.reverse_cons, List.append_assoc]
    rfl

end Decoder

/-! ## decoding undoes encoding -/

theorem pieces_flatMap (cs : List Char) :
    pieces (cs.flatMap String.utf8EncodeChar) = cs.map some := by
  show ((cs.flatMap String.utf8EncodeChar).foldl Decoder.feed ⟨[], none⟩).finish = _
  rw [Decoder.foldl_feed_flatMap]
  simp [Decoder.finish]

/-- **The bytes of a text are read as that text.** -/
theorem decodeLossy_encode (s : String) : decodeLossy (encode s) = s := by
  have hget : (fun p : Option Char => p.getD replacement) ∘ some = id := rfl
  rw [decodeLossy, encode, pieces_flatMap, List.map_map, hget, List.map_id, String.ofList_toList]

theorem decode?_encode (s : String) : decode? (encode s) = some s := by
  have hsome : s.toList.mapM some = some (s.toList.map id) := List.mapM_pure
  rw [decode?, encode, pieces_flatMap, List.mapM_map, Function.id_comp, hsome, List.map_id,
    Option.map_some, String.ofList_toList]

theorem length_encode (s : String) : (encode s).length = s.utf8ByteSize := by
  rw [← String.size_toByteArray, ← String.utf8Encode_toList, List.utf8Encode,
    List.size_toByteArray, encode]

theorem encode_injective {s t : String} (h : encode s = encode t) : s = t := by
  rw [← decodeLossy_encode s, h, decodeLossy_encode]

theorem encode_join (ss : List String) : encode (String.join ss) = ss.flatMap encode := by
  induction ss with
  | nil => rfl
  | cons s ss ih => rw [String.join_cons, encode_append, ih, List.flatMap_cons]

/-! ## ASCII bytes -/

theorem utf8EncodeChar_of_mem {c : Char} {b : UInt8} (hb : b < 0x80)
    (h : b ∈ String.utf8EncodeChar c) : String.utf8EncodeChar c = [b] := by
  have hc : c.toNat < 0x80 := by
    refine Nat.lt_of_not_le fun hle => ?_
    exact UInt8.not_lt.mpr (le_of_mem_utf8EncodeChar hle h) hb
  rw [utf8EncodeChar_one hc] at h ⊢
  rw [List.mem_singleton.mp h]

theorem mem_utf8EncodeChar_iff {c d : Char} (hd : d.toNat < 0x80) :
    UInt8.ofNat d.toNat ∈ String.utf8EncodeChar c ↔ c = d := by
  have hsingle := utf8EncodeChar_one hd
  refine ⟨?_, ?_⟩
  · intro h
    have hlt : UInt8.ofNat d.toNat < 0x80 := by
      rw [UInt8.lt_iff_toNat_lt, UInt8.toNat_ofNat_of_lt' (Nat.lt_trans hd (by decide))]
      exact hd
    have hencode : encode (String.ofList [c]) = encode (String.ofList [d]) := by
      rw [encode_ofList, encode_ofList, List.flatMap_singleton, List.flatMap_singleton, hsingle]
      exact utf8EncodeChar_of_mem hlt h
    exact List.singleton_inj.mp (String.ofList_injective (encode_injective hencode))
  · rintro rfl
    rw [hsingle]
    exact List.mem_singleton_self _

/-! ## cuts -/

/-- The place between two byte sequences is next to an ASCII byte or to an end. -/
def Seam (as bs : List UInt8) : Prop :=
  as = [] ∨ bs = [] ∨ (∃ b ∈ as.getLast?, b < 0x80) ∨ (∃ b ∈ bs.head?, b < 0x80)

/-- a seam is not inside a character -/
theorem eq_nil_of_seam {c : Char} {as bs rest : List UInt8}
    (h : String.utf8EncodeChar c = as ++ bs) (hs : Seam as (bs ++ rest)) : as = [] ∨ bs = [] := by
  by_cases hc : c.toNat < 0x80
  · -- one byte is on one side
    have hlen : (as ++ bs).length = 1 := by rw [← h, utf8EncodeChar_one hc]; rfl
    rw [List.length_append] at hlen
    rcases Nat.eq_zero_or_pos as.length with ha | ha
    · exact Or.inl (List.eq_nil_of_length_eq_zero ha)
    · exact Or.inr (List.eq_nil_of_length_eq_zero (by omega))
  · have hle : ∀ b ∈ as ++ bs, ¬ b < 0x80 := by
      intro b hb
      rw [← h] at hb
      exact UInt8.not_lt.mpr (le_of_mem_utf8EncodeChar (by omega) hb)
    rcases hs with ha | hb | ⟨b, hb, hlt⟩ | ⟨b, hb, hlt⟩
    · exact Or.inl ha
    · exact Or.inr (List.append_eq_nil_iff.mp hb).1
    · exact absurd hlt (hle b (List.mem_append_left _ (List.mem_of_getLast? hb)))
    · cases bs with
      | nil => exact Or.inr rfl
      | cons b' bs =>
        have heq : b' = b := by simpa using hb
        exact absurd hlt (hle b (by simp [heq]))

/-- **Bytes of characters that are cut at a seam are cut between two characters.** -/
theorem exists_split_of_seam {cs : List Char} {as bs : List UInt8}
    (h : cs.flatMap String.utf8EncodeChar = as ++ bs) (hs : Seam as bs) :
    ∃ cs₁ cs₂, cs = cs₁ ++ cs₂ ∧ as = cs₁.flatMap String.utf8EncodeChar ∧
      bs = cs₂.flatMap String.utf8EncodeChar := by
  induction cs generalizing as with
  | nil =>
    obtain ⟨rfl, rfl⟩ := List.append_eq_nil_iff.mp h.symm
    exact ⟨[], [], rfl, rfl, rfl⟩
  | cons c cs ih =>
    rw [List.flatMap_cons] at h
    rcases List.append_eq_append_iff.mp h with ⟨as', rfl, hrest⟩ | ⟨bs', hc, rfl⟩
    · -- the cut is behind the first character
      have hs' : Seam as' bs := by
        rcases hs with ha | hb | ⟨b, hb, hlt⟩ | hb
        · exact Or.inl (List.append_eq_nil_iff.mp ha).2
        · exact Or.inr (Or.inl hb)
        · cases as' with
          | nil => exact Or.inl rfl
          | cons a as' =>
            have hlast : (String.utf8EncodeChar c ++ a :: as').getLast? = (a :: as').getLast? := by
              rw [List.getLast?_append, List.getLast?_cons, Option.some_or]
            exact Or.inr (Or.inr (Or.inl ⟨b, hlast ▸ hb, hlt⟩))
        · exact Or.inr (Or.inr (Or.inr hb))
      obtain ⟨cs₁, cs₂, rfl, rfl, rfl⟩ := ih hrest hs'
      exact ⟨c :: cs₁, cs₂, rfl, rfl, rfl⟩
    · rcases eq_nil_of_seam hc hs with rfl | rfl
      · exact ⟨[], c :: cs, rfl, rfl, by rw [List.flatMap_cons, hc]; rfl⟩
      · refine ⟨[c], cs, rfl, ?_, rfl⟩
        rw [List.append_nil] at hc
        rw [← hc, List.flatMap_singleton]

/-- a text whose bytes are cut at a seam is cut between two texts -/
theorem exists_append_of_seam {s : String} {as bs : List UInt8} (h : encode s = as ++ bs)
    (hs : Seam as bs) : ∃ s₁ s₂, s = s₁ ++ s₂ ∧ as = encode s₁ ∧ bs = encode s₂ := by
  obtain ⟨cs₁, cs₂, hcs, rfl, rfl⟩ := exists_split_of_seam h hs
  refine ⟨String.ofList cs₁, String.ofList cs₂, ?_, (encode_ofList cs₁).symm,
    (encode_ofList cs₂).symm⟩
  rw [← String.ofList_append, ← hcs, String.ofList_toList]

end TemplateCheck.Utf8
