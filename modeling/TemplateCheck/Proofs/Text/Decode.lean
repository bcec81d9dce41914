import Mathlib.Algebra.Group.Nat.Defs
import TemplateCheck.Proofs.Text.Broken

/-!
# Bytes that are a text

`decode?` gives a text for the bytes of a text and for no others.

An open character is followed through the values it can still take: every tail narrows them down,
and the bounds on the second byte see to it that from the lead byte on they lie in one block of
characters of the same length.

* `Block`                 characters of the same length, without a gap
* `Block.spell`           the first bytes of a character of a block
* `Open xs p`             the bytes `xs` of an open character have been read
* `Open.feed`             a byte ends the character, goes on with it, or leaves a broken part
* `append_eq_of_finish`   pieces without a broken part are what the bytes spell
* `decode?_eq_some_iff`   the text of bytes is the one text with these bytes
-/

namespace TemplateCheck.Utf8
open String (utf8EncodeChar)

/-! ## blocks of characters -/

theorem toNat_ofNat {n : Nat} (h : n.isValidChar) : (Char.ofNat n).toNat = n := by
  rw [Char.ofNat, dif_pos h]
  rfl

/-- Characters of the same length whose values lie side by side. -/
structure Block where
  /-- bytes behind the first -/
  tails : Nat
  /-- what the first byte has above its share of the value -/
  mark : Nat
  least : Nat
  /-- the first value past the block -/
  past : Nat

namespace Block

def two : Block := ⟨1, 0xC0, 0x80, 0x800⟩

/-- three bytes, before the surrogates -/
def threeBelow : Block := ⟨2, 0xE0, 0x800, 0xD800⟩

/-- three bytes, behind the surrogates -/
def threeAbove : Block := ⟨2, 0xE0, 0xE000, 0x10000⟩

def four : Block := ⟨3, 0xF0, 0x10000, 0x110000⟩

/-- the characters that are not of one byte -/
def all : List Block := [two, threeBelow, threeAbove, four]

/-- the first byte and so many tails, which hold all bits of a value -/
def spell (k : Block) : Nat → Nat → List UInt8
  | 0, n => [UInt8.ofNat (n + k.mark)]
  | tails + 1, n => k.spell tails (n / 64) ++ [UInt8.ofNat (n % 64 + 0x80)]

theorem spell_succ (k : Block) (tails n : Nat) :
    k.spell (tails + 1) n = k.spell tails (n / 64) ++ [UInt8.ofNat (n % 64 + 0x80)] := rfl

theorem isValidChar {k : Block} (hk : k ∈ all) {n : Nat} (hl : k.least ≤ n) (hh : n < k.past) :
    n.isValidChar := by
  simp only [all, List.mem_cons, List.not_mem_nil, or_false] at hk
  unfold Nat.isValidChar
  rcases hk with rfl | rfl | rfl | rfl <;>
    simp only [two, threeBelow, threeAbove, four] at hl hh <;> omega

/-- **A character of a block is its value spelled out.** -/
theorem utf8EncodeChar_eq {k : Block} (hk : k ∈ all) {n : Nat} (hl : k.least ≤ n)
    (hh : n < k.past) : utf8EncodeChar (Char.ofNat n) = k.spell k.tails n := by
  have hn := toNat_ofNat (isValidChar hk hl hh)
  simp only [all, List.mem_cons, List.not_mem_nil, or_false] at hk
  rcases hk with rfl | rfl | rfl | rfl <;>
    simp only [two, threeBelow, threeAbove, four] at hl hh ⊢
  · rw [utf8EncodeChar_two (by omega) (by omega), hn]
    rfl
  · rw [utf8EncodeChar_three (by omega) (by omega), hn, ← Nat.div_div_eq_div_mul n 64 64]
    rfl
  · rw [utf8EncodeChar_three (by omega) (by omega), hn, ← Nat.div_div_eq_div_mul n 64 64]
    rfl
  · rw [utf8EncodeChar_four (by omega), hn, ← Nat.div_div_eq_div_mul n 4096 64,
      ← Nat.div_div_eq_div_mul n 64 64]
    rfl

end Block

/-! ## open characters -/

/-- The values that an open character can still take lie in a block. -/
structure Block.Bounds (k : Block) (p : Pending) : Prop where
  mem : k ∈ Block.all
  owed : 1 ≤ p.owed
  low : 0x80 ≤ p.low.toNat
  high : p.high.toNat ≤ 0xBF
  least : k.least ≤ (p.value * 64 + (p.low.toNat - 0x80)) * 64 ^ (p.owed - 1)
  past : (p.value * 64 + (p.high.toNat - 0x80) + 1) * 64 ^ (p.owed - 1) ≤ k.past

/-- The bytes read of the character that is open, if one is: all but the tails owed. -/
def Open (xs : List UInt8) : Option Pending → Prop
  | none => xs = []
  | some p => ∃ (k : Block) (tails : Nat),
      k.Bounds p ∧ tails + p.owed = k.tails ∧ xs = k.spell tails p.value

/-- A lead byte leaves the values of one block. -/
theorem exists_bounds_of_lead {b : UInt8} {p : Pending} (h : lead b = .opens p) :
    ∃ k : Block, k.Bounds p ∧ p.owed = k.tails ∧ b.toNat = p.value + k.mark := by
  have hbyte := b.toNat_lt
  simp only [lead, UInt8.lt_iff_toNat_lt, ← UInt8.toNat_inj, UInt8.reduceToNat] at h
  split at h
  · cases h
  split at h
  · cases h
  split at h
  · cases h
    refine ⟨.two, ?_, rfl, ?_⟩
    · constructor <;> simp [Block.all, Block.two] <;> omega
    · show b.toNat = b.toNat % 32 + 0xC0
      omega
  split at h
  · cases h
    refine ⟨.threeBelow, ?_, rfl, ?_⟩
    · constructor <;> simp [Block.all, Block.threeBelow]
    · assumption
  split at h
  · cases h
    refine ⟨.threeBelow, ?_, rfl, ?_⟩
    · constructor <;> simp [Block.all, Block.threeBelow]
    · assumption
  split at h
  · cases h
    -- the block before the surrogates or the one behind them
    by_cases hlow : b.toNat < 0xED
    · refine ⟨.threeBelow, ?_, rfl, ?_⟩
      · constructor <;> simp [Block.all, Block.threeBelow] <;> omega
      · show b.toNat = b.toNat % 16 + 0xE0
        omega
    · refine ⟨.threeAbove, ?_, rfl, ?_⟩
      · constructor <;> simp [Block.all, Block.threeAbove] <;> omega
      · show b.toNat = b.toNat % 16 + 0xE0
        omega
  split at h
  · cases h
    refine ⟨.four, ?_, rfl, ?_⟩
    · constructor <;> simp [Block.all, Block.four]
    · assumption
  split at h
  · cases h
    refine ⟨.four, ?_, rfl, ?_⟩
    · constructor <;> simp [Block.all, Block.four] <;> omega
    · show b.toNat = b.toNat % 8 + 0xF0
      omega
  split at h
  · cases h
    refine ⟨.four, ?_, rfl, ?_⟩
    · constructor <;> simp [Block.all, Block.four]
    · assumption
  · cases h

theorem utf8EncodeChar_of_lead {b : UInt8} {c : Char} (h : lead b = .single c) :
    utf8EncodeChar c = [b] := by
  by_cases hb : b.toNat < 0x80
  · have hlead := lead_ascii hb
    rw [UInt8.ofNat_toNat, h] at hlead
    cases hlead
    have hc : (Char.ofNat b.toNat).toNat = b.toNat := toNat_ofNat (Or.inl (by omega))
    rw [utf8EncodeChar_one (by omega), hc, UInt8.ofNat_toNat]
  · have hle : ¬ b < 0x80 := hb
    rw [lead, if_neg hle] at h
    repeat' split at h
    all_goals cases h

section
variable {k : Block} {p : Pending} {b : UInt8} (hk : k.Bounds p) (hin : p.low ≤ b ∧ b ≤ p.high)
include hk hin

/-- A tail holds six bits of the value, and those before it are the value so far. -/
theorem Block.Bounds.spell_tail (tails : Nat) :
    k.spell (tails + 1) (p.value * 64 + b.toNat % 64) = k.spell tails p.value ++ [b] := by
  have hlow : p.low.toNat ≤ b.toNat := hin.1
  have hhigh : b.toNat ≤ p.high.toNat := hin.2
  have := hk.low
  have := hk.high
  have hdiv : (p.value * 64 + b.toNat % 64) / 64 = p.value := by omega
  have hmod : (p.value * 64 + b.toNat % 64) % 64 + 0x80 = b.toNat := by omega
  rw [spell_succ, hdiv, hmod, UInt8.ofNat_toNat]

/-- The last tail leaves one value. -/
theorem Block.Bounds.last (howed : p.owed ≤ 1) :
    k.least ≤ p.value * 64 + b.toNat % 64 ∧ p.value * 64 + b.toNat % 64 < k.past := by
  have hlow : p.low.toNat ≤ b.toNat := hin.1
  have hhigh : b.toNat ≤ p.high.toNat := hin.2
  have hpow : 64 ^ (p.owed - 1) = 1 := by
    rw [Nat.sub_eq_zero_of_le howed, Nat.pow_zero]
  have hleast := hk.least
  have hpast := hk.past
  rw [hpow, Nat.mul_one] at hleast hpast
  have := hk.low
  have := hk.high
  omega

/-- A tail that is not the last narrows the values down. -/
theorem Block.Bounds.tail (howed : ¬ p.owed ≤ 1) :
    k.Bounds ⟨p.owed - 1, 0x80, 0xBF, p.value * 64 + b.toNat % 64⟩ := by
  have hlow : p.low.toNat ≤ b.toNat := hin.1
  have hhigh : b.toNat ≤ p.high.toNat := hin.2
  have hblow := hk.low
  have hbhigh := hk.high
  have hpow : 64 ^ (p.owed - 1) = 64 * 64 ^ (p.owed - 1 - 1) := by
    rw [← Nat.pow_succ', Nat.succ_eq_add_one, Nat.sub_add_cancel (by omega)]
  refine ⟨hk.mem, ?_, ?_, ?_, ?_, ?_⟩
  · show 1 ≤ p.owed - 1
    omega
  · exact Nat.le_refl 0x80
  · exact Nat.le_refl 0xBF
  · refine Nat.le_trans hk.least ?_
    rw [hpow, ← Nat.mul_assoc]
    refine Nat.mul_le_mul_right _ ?_
    simp only [UInt8.reduceToNat]
    omega
  · refine Nat.le_trans ?_ hk.past
    rw [hpow, ← Nat.mul_assoc]
    refine Nat.mul_le_mul_right _ ?_
    simp only [UInt8.reduceToNat]
    omega

end

/-- **Reading a byte.**  It ends the open character, or a character is open behind it, or the pieces
begin with a broken part. -/
theorem Open.feed {xs : List UInt8} {p : Option Pending} (h : Open xs p) (b : UInt8) :
    (∃ c, Decoder.feed ⟨[], p⟩ b = ⟨[some c], none⟩ ∧ xs ++ [b] = utf8EncodeChar c) ∨
      (∃ q, Decoder.feed ⟨[], p⟩ b = ⟨[], q⟩ ∧ Open (xs ++ [b]) q) ∨
      ∃ ps q, Decoder.feed ⟨[], p⟩ b = ⟨ps ++ [none], q⟩ := by
  cases p with
  | none =>
    obtain rfl : xs = [] := h
    cases hlead : lead b with
    | single c =>
      exact Or.inl ⟨c, Decoder.feed_single hlead, (utf8EncodeChar_of_lead hlead).symm⟩
    | opens p =>
      obtain ⟨k, hk, howed, hb⟩ := exists_bounds_of_lead hlead
      refine Or.inr (Or.inl ⟨some p, Decoder.feed_opens hlead, k, 0, hk, ?_, ?_⟩)
      · rw [howed, Nat.zero_add]
      · rw [Block.spell, ← hb, UInt8.ofNat_toNat]
        rfl
    | stray => exact Or.inr (Or.inr ⟨[], none, by simp [Decoder.feed, Decoder.begin, hlead]⟩)
  | some p =>
    obtain ⟨k, tails, hk, howed, rfl⟩ := h
    by_cases hin : p.low ≤ b ∧ b ≤ p.high
    · have hspell := hk.spell_tail hin tails
      by_cases hlast : p.owed ≤ 1
      · obtain ⟨hl, hh⟩ := hk.last hin hlast
        have htails : tails + 1 = k.tails := by
          have := hk.owed
          omega
        refine Or.inl ⟨Char.ofNat (p.value * 64 + b.toNat % 64), ?_, ?_⟩
        · simp only [Decoder.feed, if_pos hin, if_pos hlast]
        · rw [Block.utf8EncodeChar_eq hk.mem hl hh, ← htails, hspell]
      · refine Or.inr (Or.inl ⟨some ⟨p.owed - 1, 0x80, 0xBF, p.value * 64 + b.toNat % 64⟩, ?_,
          k, tails + 1, hk.tail hin hlast, ?_, hspell.symm⟩)
        · simp only [Decoder.feed, if_pos hin, if_neg hlast]
        · show tails + 1 + (p.owed - 1) = k.tails
          omega
    · have hfeed : Decoder.feed ⟨[], some p⟩ b = Decoder.feed ⟨[] ++ [none], none⟩ b := by
        simp only [Decoder.feed, if_neg hin, List.nil_append]
      exact Or.inr (Or.inr ⟨_, _, hfeed.trans (Decoder.feed_below [] [none] none b)⟩)

/-! ## texts -/

/-- **Pieces without a broken part are what the bytes spell**, those of the open character first. -/
theorem append_eq_of_finish {xs : List UInt8} {p : Option Pending} (h : Open xs p)
    {bs : List UInt8} {cs : List Char}
    (hcs : (bs.foldl Decoder.feed ⟨[], p⟩).finish = cs.map some) :
    xs ++ bs = cs.flatMap utf8EncodeChar := by
  induction bs generalizing xs p cs with
  | nil =>
    cases p with
    | none =>
      obtain rfl : xs = [] := h
      obtain rfl : cs = [] := List.map_eq_nil_iff.mp hcs.symm
      rfl
    | some p =>
      have hnone : none ∈ cs.map some := hcs ▸ List.mem_singleton_self none
      simp at hnone
  | cons b bs ih =>
    rw [List.foldl_cons] at hcs
    rcases h.feed b with ⟨c, hfeed, hc⟩ | ⟨q, hfeed, hopen⟩ | ⟨ps, q, hfeed⟩
    · have hbelow := Decoder.foldl_feed_below [] [some c] none bs
      rw [List.nil_append] at hbelow
      rw [hfeed, hbelow, Decoder.finish_below] at hcs
      obtain ⟨d, ds, rfl, hd, hrest⟩ := List.map_eq_cons_iff.mp hcs.symm
      cases hd
      rw [List.append_cons, hc, List.flatMap_cons, ← ih (p := none) rfl hrest.symm]
      rfl
    · rw [hfeed] at hcs
      rw [List.append_cons]
      exact ih hopen hcs
    · have hnone : none ∈ cs.map some := by
        rw [hfeed, Decoder.foldl_feed_below, Decoder.finish_below] at hcs
        rw [← hcs]
        simp
      simp at hnone

theorem eq_map_some_of_mapM {α : Type} {ps : List (Option α)} {as : List α}
    (h : ps.mapM id = some as) : ps = as.map some := by
  induction ps generalizing as with
  | nil =>
    cases h
    rfl
  | cons p ps ih =>
    simp only [List.mapM_cons, id, Option.pure_def, Option.bind_eq_bind, Option.bind_eq_some_iff] at h
    obtain ⟨a, rfl, as', has, h⟩ := h
    cases h
    rw [List.map_cons, ih has]

/-- **Bytes have a text exactly if they are the bytes of that text.** -/
theorem decode?_eq_some_iff {bs : List UInt8} {s : String} : decode? bs = some s ↔ bs = encode s := by
  refine ⟨?_, ?_⟩
  · intro h
    obtain ⟨cs, hcs, rfl⟩ := Option.map_eq_some_iff.mp h
    rw [encode_ofList]
    exact append_eq_of_finish (p := none) rfl (eq_map_some_of_mapM hcs)
  · rintro rfl
    exact decode?_encode s

end TemplateCheck.Utf8
