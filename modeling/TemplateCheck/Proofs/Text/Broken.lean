import TemplateCheck.Proofs.Text.Fragment

/-!
# Reading bytes that begin and end inside characters

* `Closed bs`            no character is open behind these bytes
* `decodeLossy_append`   so what comes behind them is read on its own
* `decodeLossy_head`     the beginning of a character is read as one broken part
* `decodeLossy_stray`    bytes that no character begins with are broken parts, one each
* `decodeLossy_extract`  the text of a block is what the block shows
-/

namespace TemplateCheck.Utf8
open String (utf8EncodeChar)

/-! ## a decoder goes on -/

namespace Decoder

theorem feed_below (qs ps : List (Option Char)) (p : Option Pending) (b : UInt8) :
    feed ⟨qs ++ ps, p⟩ b = ⟨(feed ⟨qs, p⟩ b).pieces ++ ps, (feed ⟨qs, p⟩ b).pending⟩ := by
  have hbegin (qs : List (Option Char)) :
      begin (qs ++ ps) b = ⟨(begin qs b).pieces ++ ps, (begin qs b).pending⟩ := by
    unfold begin
    cases lead b <;> rfl
  cases p with
  | none => exact hbegin qs
  | some p =>
    by_cases hin : p.low ≤ b ∧ b ≤ p.high
    · by_cases hlast : p.owed ≤ 1
      · simp only [feed, if_pos hin, if_pos hlast, List.cons_append]
      · simp only [feed, if_pos hin, if_neg hlast]
    · simp only [feed, if_neg hin]
      exact hbegin (none :: qs)

/-- What has been read stays as it is. -/
theorem foldl_feed_below (qs ps : List (Option Char)) (p : Option Pending) (bs : List UInt8) :
    bs.foldl feed ⟨qs ++ ps, p⟩ =
      ⟨(bs.foldl feed ⟨qs, p⟩).pieces ++ ps, (bs.foldl feed ⟨qs, p⟩).pending⟩ := by
  induction bs generalizing qs p with
  | nil => rfl
  | cons b bs ih => rw [List.foldl_cons, feed_below, ih, ← List.foldl_cons]

theorem finish_below (qs ps : List (Option Char)) (p : Option Pending) :
    finish ⟨qs ++ ps, p⟩ = ps.reverse ++ finish ⟨qs, p⟩ := by
  cases p with
  | none => exact List.reverse_append
  | some _ =>
    show (none :: qs ++ ps).reverse = _
    exact List.reverse_append

theorem length_finish_none (ps : List (Option Char)) : (finish ⟨ps, none⟩).length = ps.length :=
  List.length_reverse

theorem length_finish_some (ps : List (Option Char)) (p : Pending) :
    (finish ⟨ps, some p⟩).length = ps.length + 1 :=
  List.length_reverse

theorem length_finish_begin (ps : List (Option Char)) (b : UInt8) :
    (begin ps b).finish.length = ps.length + 1 := by
  unfold begin
  cases lead b with
  | single c => exact length_finish_none (some c :: ps)
  | opens p => exact length_finish_some ps p
  | stray => exact length_finish_none (none :: ps)

/-- between characters a byte begins another piece -/
theorem length_finish_feed_none (ps : List (Option Char)) (b : UInt8) :
    (feed ⟨ps, none⟩ b).finish.length = (finish ⟨ps, none⟩).length + 1 := by
  rw [length_finish_none]
  exact length_finish_begin ps b

theorem length_finish_feed (d : Decoder) (b : UInt8) :
    d.finish.length ≤ (d.feed b).finish.length := by
  obtain ⟨ps, p⟩ := d
  cases p with
  | none =>
    rw [length_finish_feed_none]
    exact Nat.le_succ _
  | some p =>
    rw [length_finish_some]
    by_cases hin : p.low ≤ b ∧ b ≤ p.high
    · by_cases hlast : p.owed ≤ 1
      · simp only [feed, if_pos hin, if_pos hlast, length_finish_none, List.length_cons, Nat.le_refl]
      · simp only [feed, if_pos hin, if_neg hlast, length_finish_some, Nat.le_refl]
    · simp only [feed, if_neg hin, length_finish_begin, List.length_cons, Nat.le_succ]

theorem length_finish_foldl (d : Decoder) (bs : List UInt8) :
    d.finish.length ≤ (bs.foldl feed d).finish.length := by
  induction bs generalizing d with
  | nil => exact Nat.le_refl _
  | cons b bs ih => exact Nat.le_trans (length_finish_feed d b) (ih _)

end Decoder

/-- No character is open behind these bytes. -/
def Closed (bs : List UInt8) : Prop :=
  (bs.foldl Decoder.feed {}).pending = none

theorem pieces_append {xs : List UInt8} (h : Closed xs) (ys : List UInt8) :
    pieces (xs ++ ys) = pieces xs ++ pieces ys := by
  rw [pieces, List.foldl_append, pieces, pieces]
  unfold Closed at h
  generalize xs.foldl Decoder.feed {} = d at h
  obtain ⟨ps, p⟩ := d
  obtain rfl : p = none := h
  have hys := Decoder.foldl_feed_below [] ps none ys
  rw [List.nil_append] at hys
  rw [hys, Decoder.finish_below]
  rfl

theorem decodeLossy_append {xs : List UInt8} (h : Closed xs) (ys : List UInt8) :
    decodeLossy (xs ++ ys) = decodeLossy xs ++ decodeLossy ys := by
  rw [decodeLossy, pieces_append h, List.map_append, String.ofList_append, decodeLossy, decodeLossy]

/-! ## parts of a character -/

theorem closed_utf8EncodeChar (c : Char) : Closed (utf8EncodeChar c) :=
  congrArg Decoder.pending (Decoder.foldl_feed_utf8EncodeChar [] c)

theorem decodeLossy_utf8EncodeChar (c : Char) :
    decodeLossy (utf8EncodeChar c) = String.ofList [c] := by
  have hpieces : pieces (utf8EncodeChar c) = [some c] :=
    congrArg Decoder.finish (Decoder.foldl_feed_utf8EncodeChar [] c)
  rw [decodeLossy, hpieces]
  rfl

/-- **The beginning of a character is one broken part.**  The whole character is one piece, and a
byte between characters would have begun another. -/
theorem decodeLossy_head {c : Char} {b : UInt8} {xs ys : List UInt8}
    (h : utf8EncodeChar c = (b :: xs) ++ ys) (hys : ys ≠ []) :
    decodeLossy (b :: xs) = String.ofList [replacement] := by
  obtain ⟨y, ys, rfl⟩ := List.exists_cons_of_ne_nil hys
  have hwhole : ((b :: xs) ++ y :: ys).foldl Decoder.feed {} = ⟨[some c], none⟩ := by
    rw [← h]
    exact Decoder.foldl_feed_utf8EncodeChar [] c
  rw [List.foldl_append] at hwhole
  generalize hd : (b :: xs).foldl Decoder.feed {} = d at hwhole
  have hfirst : 1 ≤ d.finish.length := by
    have hle := Decoder.length_finish_foldl (Decoder.feed {} b) xs
    rw [Decoder.length_finish_feed_none, ← List.foldl_cons, hd] at hle
    exact Nat.le_trans (Nat.le_add_left 1 _) hle
  have hlast : (d.feed y).finish.length ≤ 1 := by
    have hle := Decoder.length_finish_foldl (d.feed y) ys
    rw [← List.foldl_cons, hwhole] at hle
    exact hle
  have hnext := Decoder.length_finish_feed d y
  obtain ⟨ps, p⟩ := d
  cases p with
  | none =>
    rw [Decoder.length_finish_feed_none] at hlast
    omega
  | some p =>
    rw [Decoder.length_finish_some] at hnext
    obtain rfl : ps = [] := List.eq_nil_of_length_eq_zero (by omega)
    rw [decodeLossy, pieces, hd]
    rfl

theorem lead_tail : ∀ n < 64, lead (UInt8.ofNat (n + 0x80)) = .stray := by
  decide

/-- No character begins with a byte behind the first of a character. -/
theorem lead_of_mem_tail {c : Char} {b : UInt8} (h : b ∈ (utf8EncodeChar c).tail) :
    lead b = .stray := by
  have hlt := toNat_lt c
  by_cases h1 : c.toNat < 0x80
  · rw [utf8EncodeChar_one h1] at h
    exact absurd h List.not_mem_nil
  by_cases h2 : c.toNat < 0x800
  · rw [utf8EncodeChar_two (by omega) h2] at h
    simp only [List.tail_cons, List.mem_cons, List.not_mem_nil, or_false] at h
    rw [h]
    exact lead_tail _ (by omega)
  by_cases h3 : c.toNat < 0x10000
  · rw [utf8EncodeChar_three (by omega) h3] at h
    simp only [List.tail_cons, List.mem_cons, List.not_mem_nil, or_false] at h
    rcases h with rfl | rfl <;> exact lead_tail _ (by omega)
  · rw [utf8EncodeChar_four (by omega)] at h
    simp only [List.tail_cons, List.mem_cons, List.not_mem_nil, or_false] at h
    rcases h with rfl | rfl | rfl <;> exact lead_tail _ (by omega)

theorem foldl_feed_stray {bs : List UInt8} (h : ∀ b ∈ bs, lead b = .stray)
    (ps : List (Option Char)) :
    bs.foldl Decoder.feed ⟨ps, none⟩ = ⟨List.replicate bs.length none ++ ps, none⟩ := by
  induction bs generalizing ps with
  | nil => rfl
  | cons b bs ih =>
    obtain ⟨hb, hbs⟩ := List.forall_mem_cons.mp h
    have hfeed : Decoder.feed ⟨ps, none⟩ b = ⟨none :: ps, none⟩ := by
      simp [Decoder.feed, Decoder.begin, hb]
    rw [List.foldl_cons, hfeed, ih hbs, List.length_cons, List.replicate_succ', List.append_assoc]
    rfl

/-- **Bytes that no character begins with** are broken parts, one each. -/
theorem decodeLossy_stray {bs : List UInt8} (h : ∀ b ∈ bs, lead b = .stray) :
    Closed bs ∧ decodeLossy bs = String.ofList (List.replicate bs.length replacement) := by
  have hfold := foldl_feed_stray h []
  have hpieces : pieces bs = List.replicate bs.length none := by
    rw [pieces, hfold, List.append_nil]
    exact List.reverse_replicate
  refine ⟨congrArg Decoder.pending hfold, ?_⟩
  rw [decodeLossy, hpieces, List.map_replicate]
  rfl

/-! ## parts of a text -/

theorem extract_append (xs ys : List UInt8) (i j : Nat) :
    (xs ++ ys).extract i j = xs.extract i j ++ ys.extract (i - xs.length) (j - xs.length) := by
  have hcount : j - i - (xs.length - i) = j - xs.length - (i - xs.length) := by omega
  rw [List.extract_eq_take_drop, List.drop_append, List.take_append, List.length_drop, hcount]

/-- A block that ends behind the beginning of a character. -/
theorem decodeLossy_take_char {j : Nat} {c : Char} (hj : 0 < j) (h : j < c.utf8Size) :
    decodeLossy ((utf8EncodeChar c).take j) = String.ofList [replacement] := by
  have hsplit := (List.take_append_drop j (utf8EncodeChar c)).symm
  have hlength : ((utf8EncodeChar c).take j).length = j :=
    List.length_take_of_le (String.length_utf8EncodeChar c ▸ Nat.le_of_lt h)
  have hbehind : (utf8EncodeChar c).drop j ≠ [] := by
    rw [Ne, List.drop_eq_nil_iff, String.length_utf8EncodeChar]
    exact Nat.not_le.mpr h
  generalize (utf8EncodeChar c).take j = xs at hsplit hlength
  cases xs with
  | nil => exact absurd hlength (Nat.ne_of_lt hj)
  | cons b xs => exact decodeLossy_head hsplit hbehind

/-- A block that does not end behind the beginning of a character only. -/
theorem decodeLossy_extract_char {i j : Nat} {c : Char} (h : ¬ (i = 0 ∧ 0 < j ∧ j < c.utf8Size)) :
    Closed ((utf8EncodeChar c).extract i j) ∧
      decodeLossy ((utf8EncodeChar c).extract i j) = String.ofList (shown i j c) := by
  have hsize := String.length_utf8EncodeChar c
  by_cases hwhole : i = 0 ∧ c.utf8Size ≤ j
  · obtain ⟨rfl, hj⟩ := hwhole
    have hall : (utf8EncodeChar c).extract 0 j = utf8EncodeChar c :=
      List.take_of_length_le (hsize ▸ hj)
    rw [hall, shown_whole hj]
    exact ⟨closed_utf8EncodeChar c, decodeLossy_utf8EncodeChar c⟩
  · have hshown : shown i j c = List.replicate (min j c.utf8Size - i) replacement := by
      rw [shown, if_neg hwhole, if_neg (by omega)]
    have hlength : ((utf8EncodeChar c).extract i j).length = min j c.utf8Size - i := by
      rw [List.extract_eq_take_drop, List.length_take, List.length_drop, hsize]
      omega
    have hstray : ∀ b ∈ (utf8EncodeChar c).extract i j, lead b = .stray := by
      intro b hb
      rw [List.extract_eq_take_drop] at hb
      cases i with
      | zero =>
        -- the block ends before the character
        have hj : j = 0 := by omega
        rw [hj] at hb
        exact absurd hb List.not_mem_nil
      | succ i =>
        have hdrop := List.mem_of_mem_take hb
        rw [← List.drop_tail] at hdrop
        exact lead_of_mem_tail (List.mem_of_mem_drop hdrop)
    obtain ⟨hclosed, htext⟩ := decodeLossy_stray hstray
    exact ⟨hclosed, by rw [htext, hlength, hshown]⟩

/-- **What is read from a block is what the block shows.** -/
theorem decodeLossy_extract (i j : Nat) (cs : List Char) :
    decodeLossy ((cs.flatMap utf8EncodeChar).extract i j) = String.ofList (fragment i j cs) := by
  induction cs generalizing i j with
  | nil =>
    have hnil : ([] : List UInt8).extract i j = [] := by simp
    rw [List.flatMap_nil, hnil, fragment_nil]
    rfl
  | cons c cs ih =>
    have hsize := String.length_utf8EncodeChar c
    rw [List.flatMap_cons, extract_append, hsize, fragment_cons, String.ofList_append, ← ih]
    by_cases hcut : i = 0 ∧ 0 < j ∧ j < c.utf8Size
    · -- the block ends inside the character, so it has no bytes of those behind it
      obtain ⟨rfl, hj, hlt⟩ := hcut
      have hrest : j - c.utf8Size = 0 := by omega
      have hnil : (cs.flatMap utf8EncodeChar).extract (0 - c.utf8Size) 0 = [] := by
        rw [List.extract_eq_take_drop, Nat.zero_sub]
        rfl
      rw [hrest, hnil, List.append_nil, shown_head hj hlt, decodeLossy_nil, String.append_empty]
      exact decodeLossy_take_char hj hlt
    · obtain ⟨hclosed, htext⟩ := decodeLossy_extract_char hcut
      rw [decodeLossy_append hclosed, htext]

end TemplateCheck.Utf8
