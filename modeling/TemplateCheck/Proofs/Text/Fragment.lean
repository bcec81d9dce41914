import TemplateCheck.Proofs.Text.Utf8

/-!
# What a block of bytes shows of a text

A block may begin and end inside characters.  Of a character that it holds whole it shows that
character.  The beginning of a character shows as one replacement, however long it is, and where a
block begins behind the first byte of a character, each byte of that character shows as one.

* `shown i j c`       what the bytes from `i` to `j` show of one character
* `fragment i j cs`   what they show of a text
* `fragment_whole`, `fragment_head`, `fragment_tail`   what they show of one character in a text
* `Inside i cs`       byte `i` is behind the first byte of a character and not behind its last
* `fragments_eq_iff`  blocks, one behind the other, show what all of them show as one if no character
                      is cut between two of them, and else more characters
-/

namespace TemplateCheck.Utf8
open String (utf8EncodeChar)

/-- the number of bytes of a text -/
def size (cs : List Char) : Nat :=
  (cs.flatMap utf8EncodeChar).length

theorem size_cons (c : Char) (cs : List Char) : size (c :: cs) = c.utf8Size + size cs := by
  rw [size, List.flatMap_cons, List.length_append, String.length_utf8EncodeChar, size]

/-- What the bytes from `i` to `j`, counted from the first byte of a character, show of it: the
character if they are all its bytes, one replacement if they are its first bytes, and otherwise one
for each of them.  Bytes that begin in front of it begin at 0, and end at 0 if they end there. -/
def shown (i j : Nat) (c : Char) : List Char :=
  if i = 0 ∧ c.utf8Size ≤ j then [c]
  else if i = 0 ∧ 0 < j then [replacement]
  else List.replicate (min j c.utf8Size - i) replacement

/-- What the bytes from `i` to `j` show of a text, one character behind the other. -/
def fragment : Nat → Nat → List Char → List Char
  | _, _, [] => []
  | i, j, c :: cs => shown i j c ++ fragment (i - c.utf8Size) (j - c.utf8Size) cs

theorem fragment_nil (i j : Nat) : fragment i j [] = [] := rfl

theorem fragment_cons (i j : Nat) (c : Char) (cs : List Char) :
    fragment i j (c :: cs) = shown i j c ++ fragment (i - c.utf8Size) (j - c.utf8Size) cs := rfl

theorem shown_whole {j : Nat} {c : Char} (h : c.utf8Size ≤ j) : shown 0 j c = [c] :=
  if_pos ⟨rfl, h⟩

theorem shown_head {j : Nat} {c : Char} (hj : 0 < j) (h : j < c.utf8Size) :
    shown 0 j c = [replacement] := by
  rw [shown, if_neg fun hw => Nat.not_le.mpr h hw.2, if_pos ⟨rfl, hj⟩]

theorem shown_tail {i : Nat} (hi : 0 < i) (j : Nat) (c : Char) :
    shown i j c = List.replicate (min j c.utf8Size - i) replacement := by
  have hne : i ≠ 0 := Nat.ne_of_gt hi
  rw [shown, if_neg fun h => hne h.1, if_neg fun h => hne h.1]

theorem shown_eq_nil {i j : Nat} {c : Char} (h : j ≤ i ∨ c.utf8Size ≤ i) : shown i j c = [] := by
  have hpos := c.utf8Size_pos
  have hnone : min j c.utf8Size - i = 0 := by omega
  rw [shown, if_neg (by omega), if_neg (by omega), hnone]
  rfl

theorem fragment_self (i : Nat) (cs : List Char) : fragment i i cs = [] := by
  induction cs generalizing i with
  | nil => rfl
  | cons c cs ih =>
    rw [fragment_cons, shown_eq_nil (Or.inl (Nat.le_refl i)), ih]
    rfl

theorem fragment_append (i j : Nat) (cs ds : List Char) :
    fragment i j (cs ++ ds) = fragment i j cs ++ fragment (i - size cs) (j - size cs) ds := by
  induction cs generalizing i j with
  | nil => rfl
  | cons c cs ih =>
    rw [List.cons_append, fragment_cons, ih, fragment_cons, size_cons, List.append_assoc,
      Nat.sub_sub, Nat.sub_sub]

/-- A block shows nothing of a text that is in front of it. -/
theorem fragment_eq_nil {i : Nat} {cs : List Char} (h : size cs ≤ i) (j : Nat) :
    fragment i j cs = [] := by
  induction cs generalizing i j with
  | nil => rfl
  | cons c cs ih =>
    rw [size_cons] at h
    rw [fragment_cons, shown_eq_nil (Or.inr (by omega)), ih (by omega)]
    rfl

/-- All bytes of a text show all of it. -/
theorem fragment_all {j : Nat} {cs : List Char} (h : size cs ≤ j) : fragment 0 j cs = cs := by
  induction cs generalizing j with
  | nil => rfl
  | cons c cs ih =>
    rw [size_cons] at h
    rw [fragment_cons, shown_whole (by omega), Nat.zero_sub, ih (by omega)]
    rfl

/-! ## one character of a text -/

section
variable {i j o : Nat} {before : List Char} (c : Char) (behind : List Char) (ho : size before = o)
include ho

/-- A character with all its bytes in the block shows as it is. -/
theorem fragment_whole (hi : i ≤ o) (hj : o + c.utf8Size ≤ j) :
    fragment i j (before ++ c :: behind) =
      fragment i j before ++ c :: fragment 0 (j - (o + c.utf8Size)) behind := by
  have hrest : 0 - c.utf8Size = 0 := Nat.zero_sub _
  rw [fragment_append, ho, fragment_cons, Nat.sub_eq_zero_of_le hi, shown_whole (by omega), hrest,
    Nat.sub_sub]
  rfl

/-- Of a character whose first byte is in the block and whose last is not, one replacement shows,
and the block shows nothing behind it. -/
theorem fragment_head (hi : i ≤ o) (hfirst : o < j) (hlast : j < o + c.utf8Size) :
    fragment i j (before ++ c :: behind) = fragment i j before ++ [replacement] := by
  have hend : j - o - c.utf8Size = 0 := by omega
  rw [fragment_append, ho, fragment_cons, Nat.sub_eq_zero_of_le hi,
    shown_head (by omega) (by omega), hend, Nat.zero_sub, fragment_self]
  rfl

/-- Of a character whose first byte is in front of the block, one replacement shows for each of its
bytes in the block, and the block shows nothing in front of it. -/
theorem fragment_tail (hi : o < i) :
    fragment i j (before ++ c :: behind) =
      List.replicate (min j (o + c.utf8Size) - i) replacement ++
        fragment (i - (o + c.utf8Size)) (j - (o + c.utf8Size)) behind := by
  have hcount : min (j - o) c.utf8Size - (i - o) = min j (o + c.utf8Size) - i := by omega
  rw [fragment_append, ho, fragment_eq_nil (ho ▸ Nat.le_of_lt hi), fragment_cons,
    shown_tail (by omega), hcount, Nat.sub_sub, Nat.sub_sub]
  rfl

end

/-! ## two blocks -/

/-- Byte `i` is behind the first byte of a character and not behind its last. -/
def Inside : Nat → List Char → Prop
  | _, [] => False
  | i, c :: cs => 0 < i ∧ (i < c.utf8Size ∨ Inside (i - c.utf8Size) cs)

theorem not_inside_zero (cs : List Char) : ¬ Inside 0 cs := by
  cases cs with
  | nil => exact id
  | cons c cs => exact fun h => Nat.lt_irrefl 0 h.1

/-- Where a text can be cut in two. -/
theorem not_inside_iff {i : Nat} {cs : List Char} (h : i ≤ size cs) :
    ¬ Inside i cs ↔ ∃ cs₁ cs₂, cs = cs₁ ++ cs₂ ∧ i = size cs₁ := by
  induction cs generalizing i with
  | nil => exact ⟨fun _ => ⟨[], [], rfl, Nat.le_zero.mp h⟩, fun _ => id⟩
  | cons c cs ih =>
    rw [size_cons] at h
    have hrest : i - c.utf8Size ≤ size cs := by omega
    refine ⟨?_, ?_⟩
    · intro hout
      by_cases hi : i = 0
      · exact ⟨[], c :: cs, rfl, hi⟩
      · have hpos : 0 < i := Nat.pos_of_ne_zero hi
        have hle : c.utf8Size ≤ i := Nat.le_of_not_lt fun hlt => hout ⟨hpos, Or.inl hlt⟩
        obtain ⟨cs₁, cs₂, rfl, hcs⟩ := (ih hrest).mp fun hin => hout ⟨hpos, Or.inr hin⟩
        refine ⟨c :: cs₁, cs₂, rfl, ?_⟩
        rw [size_cons, ← hcs]
        omega
    · rintro ⟨cs₁, cs₂, hcs, hi⟩ ⟨hpos, hin⟩
      cases cs₁ with
      | nil => exact Nat.ne_of_gt hpos hi
      | cons d cs₁ =>
        obtain ⟨rfl, rfl⟩ := List.cons.inj hcs
        rw [size_cons] at hi
        rcases hin with hlt | hin
        · omega
        · exact (ih hrest).mpr ⟨cs₁, cs₂, rfl, by omega⟩ hin

theorem isValid_iff_not_inside {s : String} {i : Nat} (h : i ≤ (encode s).length) :
    String.Pos.Raw.IsValid s ⟨i⟩ ↔ ¬ Inside i s.toList := by
  rw [String.Pos.Raw.isValid_iff_exists_append, not_inside_iff h]
  refine ⟨?_, ?_⟩
  · rintro ⟨s₁, s₂, rfl, hi⟩
    refine ⟨s₁.toList, s₂.toList, String.toList_append, ?_⟩
    exact (congrArg String.Pos.Raw.byteIdx hi).trans (length_encode s₁).symm
  · rintro ⟨cs₁, cs₂, hcs, rfl⟩
    refine ⟨String.ofList cs₁, String.ofList cs₂, ?_, ?_⟩
    · rw [← String.ofList_append, ← hcs, String.ofList_toList]
    · rw [size, ← encode_ofList, length_encode]
      rfl

theorem lt_of_inside {i : Nat} {cs : List Char} (h : Inside i cs) : i < size cs := by
  induction cs generalizing i with
  | nil => exact h.elim
  | cons c cs ih =>
    rw [size_cons]
    rcases h.2 with hlt | hin
    · exact Nat.lt_add_right _ hlt
    · have hrest := ih hin
      omega

/-- Two blocks between which no character is cut. -/
theorem fragment_join {i j : Nat} {cs : List Char} (hle : i ≤ j) (h : ¬ Inside i cs) :
    fragment 0 i cs ++ fragment i j cs = fragment 0 j cs := by
  induction cs generalizing i j with
  | nil => rfl
  | cons c cs ih =>
    by_cases hi : i = 0
    · subst hi
      rw [fragment_self, List.nil_append]
    · have hpos : 0 < i := Nat.pos_of_ne_zero hi
      have hwhole : c.utf8Size ≤ i := Nat.le_of_not_lt fun hlt => h ⟨hpos, Or.inl hlt⟩
      have hrest := ih (Nat.sub_le_sub_right hle c.utf8Size) fun hin => h ⟨hpos, Or.inr hin⟩
      rw [fragment_cons, fragment_cons, fragment_cons, shown_whole hwhole,
        shown_whole (Nat.le_trans hwhole hle), shown_eq_nil (Or.inr hwhole), Nat.zero_sub,
        List.nil_append, List.append_assoc, hrest]

theorem length_shown_zero (j : Nat) (c : Char) : (shown 0 j c).length = min j 1 := by
  have hpos := c.utf8Size_pos
  unfold shown
  split
  · rw [List.length_singleton]
    omega
  · split
    · rw [List.length_singleton]
      omega
    · rw [List.length_replicate]
      omega

/-- **Two blocks between which a character is cut** show more characters than both as one: the first
block shows the beginning of that character, and the second its next byte. -/
theorem length_fragment_lt {i j : Nat} {cs : List Char} (hlt : i < j) (h : Inside i cs) :
    (fragment 0 j cs).length < (fragment 0 i cs).length + (fragment i j cs).length := by
  induction cs generalizing i j with
  | nil => exact h.elim
  | cons c cs ih =>
    obtain ⟨hpos, hin⟩ := h
    have h0 : min i 1 = 1 := by omega
    have h1 : min j 1 = 1 := by omega
    simp only [fragment_cons, List.length_append, length_shown_zero, Nat.zero_sub, h0, h1]
    rcases hin with hcut | hin
    · -- this one is cut, and the second block shows a byte of it
      have hbehind : i - c.utf8Size = 0 := by omega
      have hnext : 1 ≤ (shown i j c).length := by
        rw [shown_tail hpos, List.length_replicate]
        omega
      rw [hbehind]
      omega
    · -- the first block holds it whole, and one behind it is cut
      have hsize : 0 < i - c.utf8Size :=
        Nat.pos_of_ne_zero fun hzero => not_inside_zero cs (hzero ▸ hin)
      have hrest := ih (show i - c.utf8Size < j - c.utf8Size by omega) hin
      omega

theorem length_fragment_le {i j : Nat} (h : i ≤ j) (cs : List Char) :
    (fragment 0 j cs).length ≤ (fragment 0 i cs).length + (fragment i j cs).length := by
  rcases Nat.lt_or_eq_of_le h with hlt | rfl
  · by_cases hin : Inside i cs
    · exact Nat.le_of_lt (length_fragment_lt hlt hin)
    · have heq := congrArg List.length (fragment_join h hin)
      rw [List.length_append] at heq
      exact Nat.le_of_eq heq.symm
  · exact Nat.le_add_right _ _

/-! ## blocks, one behind the other -/

/-- What the first `k` of the blocks show that begin and end at the places `b`. -/
def fragments (b : Nat → Nat) (k : Nat) (cs : List Char) : List Char :=
  (List.range k).flatMap fun n => fragment (b n) (b (n + 1)) cs

theorem fragments_succ (b : Nat → Nat) (k : Nat) (cs : List Char) :
    fragments b (k + 1) cs = fragments b k cs ++ fragment (b k) (b (k + 1)) cs := by
  rw [fragments, List.range_succ, List.flatMap_append, List.flatMap_singleton, ← fragments]

section
variable {b : Nat → Nat} {cs : List Char} (hzero : b 0 = 0) (hstep : ∀ n, b n ≤ b (n + 1))
include hzero hstep

theorem fragments_eq {k : Nat} (h : ∀ n < k, ¬ Inside (b n) cs) :
    fragments b k cs = fragment 0 (b k) cs := by
  induction k with
  | zero =>
    rw [hzero, fragment_self]
    rfl
  | succ k ih =>
    rw [fragments_succ, ih fun n hn => h n (Nat.lt_succ_of_lt hn),
      fragment_join (hstep k) (h k (Nat.lt_succ_self k))]

theorem length_le_fragments (k : Nat) :
    (fragment 0 (b k) cs).length ≤ (fragments b k cs).length := by
  induction k with
  | zero =>
    rw [hzero, fragment_self]
    exact Nat.zero_le _
  | succ k ih =>
    have hle := length_fragment_le (hstep k) cs
    rw [fragments_succ, List.length_append]
    omega

theorem length_lt_fragments {n k : Nat} (hn : n < k) (hlt : b n < b (n + 1))
    (hin : Inside (b n) cs) : (fragment 0 (b k) cs).length < (fragments b k cs).length := by
  induction k with
  | zero => exact absurd hn (Nat.not_lt_zero n)
  | succ k ih =>
    rw [fragments_succ, List.length_append]
    rcases Nat.lt_succ_iff_lt_or_eq.mp hn with hn | rfl
    · -- a block more never makes up for what the cut added
      have hle := length_fragment_le (hstep k) cs
      have hbefore := ih hn
      omega
    · have hbefore : (fragment 0 (b n) cs).length ≤ (fragments b n cs).length :=
        length_le_fragments hzero hstep n
      have hcut := length_fragment_lt hlt hin
      omega

/-- **Blocks show what all of them show as one** if no character is cut between two of them, and
only then. -/
theorem fragments_eq_iff (hlt : ∀ n, Inside (b n) cs → b n < b (n + 1)) (k : Nat) :
    fragments b k cs = fragment 0 (b k) cs ↔ ∀ n < k, ¬ Inside (b n) cs := by
  refine ⟨fun h n hn hin => ?_, fragments_eq hzero hstep⟩
  have hmore := length_lt_fragments hzero hstep hn (hlt n hin) hin
  rw [h] at hmore
  exact Nat.lt_irrefl _ hmore

end

end TemplateCheck.Utf8
