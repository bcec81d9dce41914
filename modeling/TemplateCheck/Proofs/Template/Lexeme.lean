import TemplateCheck.Proofs.Lexer.Cut
import TemplateCheck.Proofs.Text.Utf8
import TemplateCheck.Template.Lexing

/-!
# The tokens of a template, without the automaton

The bytes 0x5C, 0x40, 0x7B and 0x7D are a backslash, an at sign and the two braces.

* `Paired xs`           backslashes come in adjacent pairs only
* `Lexeme kind xs rest` the bytes `xs` are a token of this kind where `rest` follows
* `Lexemes bs ps`       the bytes `bs` are cut into the tokens `ps`, from the left

The automaton cuts a lexeme off (`cut_of_lexeme`), every non-empty byte sequence begins with one
(`exists_lexeme`), and so it begins with one only (`Lexeme.unique`).  A lexeme ends at a seam
(`Lexeme.seam`), so the tokens of a text are texts.
-/

namespace TemplateCheck.Template

/-! ## lexemes -/

/-- Backslashes come in adjacent pairs only. -/
inductive Paired : List UInt8 → Prop where
  | nil : Paired []
  | pair {xs : List UInt8} : Paired xs → Paired (0x5C :: 0x5C :: xs)
  | byte {b : UInt8} {xs : List UInt8} : b ≠ 0x5C → Paired xs → Paired (b :: xs)

/-- The bytes may be the name of a key. -/
def IsName (name : List UInt8) : Prop :=
  name ≠ [] ∧ ∀ b ∈ name, isKeyByte b = true

/-- The bytes are a token of this kind where `rest` follows. -/
inductive Lexeme : Kind → List UInt8 → List UInt8 → Prop where
  /-- a run that is ended by a single backslash or by the end of the input -/
  | content {xs rest : List UInt8} : xs ≠ [] → Paired xs →
      (rest = [] ∨ ∃ b tail, b ≠ 0x5C ∧ rest = 0x5C :: b :: tail) → Lexeme .content xs rest
  /-- the sigil and a name that ends there and is not followed by a brace -/
  | placeholderKey {name rest : List UInt8} : IsName name →
      (∀ b ∈ rest.head?, isKeyByte b = false ∧ b ≠ 0x7B) →
      Lexeme .placeholderKey (0x5C :: 0x40 :: name) rest
  /-- the sigil, a name and a brace -/
  | openKey {name rest : List UInt8} : IsName name →
      Lexeme .openKey (0x5C :: 0x40 :: (name ++ [0x7B])) rest
  /-- the sigil and the other brace -/
  | closeKey {rest : List UInt8} : Lexeme .closeKey [0x5C, 0x40, 0x7D] rest
  /-- a run with a backslash at the end of the input behind it -/
  | dangling {xs : List UInt8} : Paired xs → Lexeme .unrecognized (xs ++ [0x5C]) []
  /-- a backslash that neither is doubled nor begins a sigil -/
  | lone {b : UInt8} {tail : List UInt8} : b ≠ 0x5C → b ≠ 0x40 →
      Lexeme .unrecognized [0x5C] (b :: tail)
  /-- a sigil with nothing behind it -/
  | bareSigil {rest : List UInt8} : (∀ b ∈ rest.head?, b = 0x5C) →
      Lexeme .unrecognized [0x5C, 0x40] rest
  /-- a sigil with something behind it that is no name, up to the next backslash -/
  | brokenKey {b : UInt8} {xs rest : List UInt8} : isKeyByte b = false → b ≠ 0x7D → b ≠ 0x5C →
      0x5C ∉ xs → (∀ b ∈ rest.head?, b = 0x5C) →
      Lexeme .unrecognized (0x5C :: 0x40 :: b :: xs) rest

/-- The bytes are cut into these tokens, from the left. -/
inductive Lexemes : List UInt8 → List (Kind × List UInt8) → Prop where
  | nil : Lexemes [] []
  | cons {kind : Kind} {xs rest : List UInt8} {ps : List (Kind × List UInt8)} :
      Lexeme kind xs rest → Lexemes rest ps → Lexemes (xs ++ rest) ((kind, xs) :: ps)

theorem Lexeme.ne_nil {kind : Kind} {xs rest : List UInt8} (h : Lexeme kind xs rest) :
    xs ≠ [] := by
  cases h with
  | content hne _ _ => exact hne
  | dangling _ => exact List.append_ne_nil_of_right_ne_nil _ (List.cons_ne_nil _ _)
  | _ => exact List.cons_ne_nil _ _

theorem Lexeme.kind_ne_endOfInput {kind : Kind} {xs rest : List UInt8}
    (h : Lexeme kind xs rest) : kind ≠ .endOfInput := by
  cases h <;> exact Kind.noConfusion

theorem lexeme_content_iff {xs rest : List UInt8} :
    Lexeme .content xs rest ↔ xs ≠ [] ∧ Paired xs ∧
      (rest = [] ∨ ∃ b tail, b ≠ 0x5C ∧ rest = 0x5C :: b :: tail) := by
  refine ⟨?_, ?_⟩
  · intro h
    cases h with
    | content hne hp hr => exact ⟨hne, hp, hr⟩
  · intro h
    obtain ⟨hne, hp, hr⟩ := h
    exact .content hne hp hr

theorem lexeme_placeholderKey_iff {xs rest : List UInt8} :
    Lexeme .placeholderKey xs rest ↔ ∃ name, xs = 0x5C :: 0x40 :: name ∧ IsName name ∧
      ∀ b ∈ rest.head?, isKeyByte b = false ∧ b ≠ 0x7B := by
  refine ⟨?_, ?_⟩
  · intro h
    cases h with
    | @placeholderKey name rest hn hr => exact ⟨name, rfl, hn, hr⟩
  · intro h
    obtain ⟨name, rfl, hn, hr⟩ := h
    exact .placeholderKey hn hr

theorem lexeme_openKey_iff {xs rest : List UInt8} :
    Lexeme .openKey xs rest ↔ ∃ name, xs = 0x5C :: 0x40 :: (name ++ [0x7B]) ∧ IsName name := by
  refine ⟨?_, ?_⟩
  · intro h
    cases h with
    | @openKey name rest hn => exact ⟨name, rfl, hn⟩
  · intro h
    obtain ⟨name, rfl, hn⟩ := h
    exact .openKey hn

theorem lexeme_closeKey_iff {xs rest : List UInt8} :
    Lexeme .closeKey xs rest ↔ xs = [0x5C, 0x40, 0x7D] := by
  refine ⟨?_, ?_⟩
  · intro h
    cases h with
    | closeKey => rfl
  · rintro rfl
    exact .closeKey

theorem lexemes_cons_iff {kind : Kind} {xs bs : List UInt8} {ps : List (Kind × List UInt8)} :
    Lexemes (xs ++ bs) ((kind, xs) :: ps) ↔ Lexeme kind xs bs ∧ Lexemes bs ps := by
  refine ⟨?_, ?_⟩
  · intro h
    generalize hbs : xs ++ bs = all at h
    cases h with
    | @cons kind xs rest ps hx hps =>
      obtain rfl : bs = rest := List.append_cancel_left hbs
      exact ⟨hx, hps⟩
  · intro h
    obtain ⟨hx, hps⟩ := h
    exact .cons hx hps

theorem Lexemes.flatMap_eq {bs : List UInt8} {ps : List (Kind × List UInt8)} (h : Lexemes bs ps) :
    ps.flatMap Prod.snd = bs := by
  induction h with
  | nil => rfl
  | cons _ _ ih => rw [List.flatMap_cons, ih]

/-! ## columns and moves -/

theorem columnOf_ne_backslash {b : UInt8} (h : b ≠ 0x5C) : columnOf (some b) ≠ .backslash := by
  unfold columnOf
  grind

theorem columnOf_ne_atSign {b : UInt8} (h : b ≠ 0x40) : columnOf (some b) ≠ .atSign := by
  unfold columnOf
  grind

theorem columnOf_ne_openBrace {b : UInt8} (h : b ≠ 0x7B) : columnOf (some b) ≠ .openBrace := by
  unfold columnOf
  grind

theorem columnOf_ne_closeBrace {b : UInt8} (h : b ≠ 0x7D) : columnOf (some b) ≠ .closeBrace := by
  unfold columnOf
  grind

theorem columnOf_ne_endOfInput (b : UInt8) : columnOf (some b) ≠ .endOfInput := by
  unfold columnOf
  grind

/-- the bytes with a column of their own are no key bytes -/
theorem columnOf_eq_keyByte_iff (b : UInt8) :
    columnOf (some b) = .keyByte ↔ isKeyByte b = true := by
  refine ⟨?_, ?_⟩
  · unfold columnOf
    grind
  · intro h
    have h1 : b ≠ 0x5C := fun hb => absurd h (by rw [hb]; decide)
    have h2 : b ≠ 0x40 := fun hb => absurd h (by rw [hb]; decide)
    have h3 : b ≠ 0x7B := fun hb => absurd h (by rw [hb]; decide)
    have h4 : b ≠ 0x7D := fun hb => absurd h (by rw [hb]; decide)
    rw [columnOf, if_neg h1, if_neg h2, if_neg h3, if_neg h4, if_pos h]

section
variable {look : Option UInt8} {column : Column} {state read next : Nat} {kind : Kind}
  (hc : columnOf look = column) (hn : automaton.next? state column.index = some next)
include hc hn

theorem move_go (ha : automaton.action next = .scan) :
    automaton.move state read look = .go next := by
  subst hc
  exact Automaton.move_of_scan hn ha

theorem move_accept (ha : automaton.action next = .accept kind) (hr : read ≠ 0) :
    automaton.move state read look = .halt (.accept kind) := by
  subst hc
  exact Automaton.move_of_accept hn ha hr

theorem move_pushback (ha : automaton.action next = .acceptWithPushback kind) (hr : 2 ≤ read) :
    automaton.move state read look = .halt (.pushback kind) := by
  subst hc
  exact Automaton.move_of_pushback hn ha hr

end

/-! ## runs over content -/

theorem move_content {b : UInt8} (h : b ≠ 0x5C) (read : Nat) :
    automaton.move 3 read (some b) = .go 3 := by
  cases hc : columnOf (some b) with
  | backslash => exact absurd hc (columnOf_ne_backslash h)
  | endOfInput => exact absurd hc (columnOf_ne_endOfInput b)
  | _ => exact move_go hc rfl rfl

theorem run_paired {xs : List UInt8} (h : Paired xs) (read : Nat) (rest : List UInt8) :
    automaton.run 3 read (xs ++ rest) = automaton.run 3 (read + xs.length) rest := by
  induction h generalizing read with
  | nil => rfl
  | @pair xs _ ih =>
    have h1 : automaton.move 3 read (some 0x5C) = .go 1 := move_go rfl rfl rfl
    have h2 : automaton.move 1 (read + 1) (some 0x5C) = .go 3 := move_go rfl rfl rfl
    rw [List.cons_append, List.cons_append, Automaton.run_cons_go _ h1,
      Automaton.run_cons_go _ h2, ih, List.length_cons, List.length_cons]
    congr 1
    omega
  | @byte b xs hb _ ih =>
    rw [List.cons_append, Automaton.run_cons_go _ (move_content hb read), ih, List.length_cons]
    congr 1
    omega

/-- From the start a run of content leads to the state that reads content. -/
theorem run_start_paired {xs : List UInt8} (h : Paired xs) (hne : xs ≠ []) (rest : List UInt8) :
    automaton.run 0 0 (xs ++ rest) = automaton.run 3 xs.length rest := by
  cases h with
  | nil => exact absurd rfl hne
  | @pair xs h =>
    have h1 : automaton.move 0 0 (some 0x5C) = .go 2 := move_go rfl rfl rfl
    have h2 : automaton.move 2 1 (some 0x5C) = .go 3 := move_go rfl rfl rfl
    rw [List.cons_append, List.cons_append, Automaton.run_cons_go _ h1,
      Automaton.run_cons_go _ h2, run_paired h, List.length_cons, List.length_cons]
    congr 1
    omega
  | @byte b xs hb h =>
    have h1 : automaton.move 0 0 (some b) = .go 3 := by
      cases hc : columnOf (some b) with
      | backslash => exact absurd hc (columnOf_ne_backslash hb)
      | endOfInput => exact absurd hc (columnOf_ne_endOfInput b)
      | _ => exact move_go hc rfl rfl
    rw [List.cons_append, Automaton.run_cons_go _ h1, run_paired h, List.length_cons]
    congr 1
    omega

theorem cut_content {xs rest : List UInt8} (hne : xs ≠ []) (h : Paired xs)
    (hr : rest = [] ∨ ∃ b tail, b ≠ 0x5C ∧ rest = 0x5C :: b :: tail) :
    automaton.cut (xs ++ rest) = (.content, xs.length) := by
  have hpos : 0 < xs.length := List.length_pos_iff.mpr hne
  rcases hr with rfl | ⟨b, tail, hb, rfl⟩
  · apply Automaton.cut_of_accept
    rw [Automaton.startState, run_start_paired h hne]
    exact Automaton.run_nil_halt _ (move_accept rfl rfl rfl (by omega))
  · have h1 : automaton.move 3 xs.length (some 0x5C) = .go 1 := move_go rfl rfl rfl
    have h2 : automaton.move 1 (xs.length + 1) (some b) = .halt (.pushback .content) := by
      cases hc : columnOf (some b) with
      | backslash => exact absurd hc (columnOf_ne_backslash hb)
      | endOfInput => exact absurd hc (columnOf_ne_endOfInput b)
      | _ => exact move_pushback hc rfl rfl (by omega)
    apply Automaton.cut_of_pushback
    rw [Automaton.startState, run_start_paired h hne, Automaton.run_cons_go _ h1,
      Automaton.run_cons_halt _ h2]

/-! ## runs that begin with a backslash -/

theorem cut_dangling {xs : List UInt8} (h : Paired xs) :
    automaton.cut (xs ++ [0x5C]) = (.unrecognized, xs.length + 1) := by
  apply Automaton.cut_of_accept
  by_cases hne : xs = []
  · subst hne
    have h1 : automaton.move 0 0 (some 0x5C) = .go 2 := move_go rfl rfl rfl
    rw [Automaton.startState, List.nil_append, Automaton.run_cons_go _ h1]
    exact Automaton.run_nil_halt _ (move_accept rfl rfl rfl (by decide))
  · have h1 : automaton.move 3 xs.length (some 0x5C) = .go 1 := move_go rfl rfl rfl
    rw [Automaton.startState, run_start_paired h hne, Automaton.run_cons_go _ h1]
    exact Automaton.run_nil_halt _ (move_accept rfl rfl rfl (by omega))

theorem cut_lone {b : UInt8} {tail : List UInt8} (h1 : b ≠ 0x5C) (h2 : b ≠ 0x40) :
    automaton.cut (0x5C :: b :: tail) = (.unrecognized, 1) := by
  have hm1 : automaton.move 0 0 (some 0x5C) = .go 2 := move_go rfl rfl rfl
  have hm2 : automaton.move 2 1 (some b) = .halt (.accept .unrecognized) := by
    cases hc : columnOf (some b) with
    | backslash => exact absurd hc (columnOf_ne_backslash h1)
    | atSign => exact absurd hc (columnOf_ne_atSign h2)
    | endOfInput => exact absurd hc (columnOf_ne_endOfInput b)
    | _ => exact move_accept hc rfl rfl (by decide)
  apply Automaton.cut_of_accept
  rw [Automaton.startState, Automaton.run_cons_go _ hm1, Automaton.run_cons_halt _ hm2]

theorem run_sigil (rest : List UInt8) :
    automaton.run 0 0 (0x5C :: 0x40 :: rest) = automaton.run 4 2 rest := by
  have h1 : automaton.move 0 0 (some 0x5C) = .go 2 := move_go rfl rfl rfl
  have h2 : automaton.move 2 1 (some 0x40) = .go 4 := move_go rfl rfl rfl
  rw [Automaton.run_cons_go _ h1, Automaton.run_cons_go _ h2]

theorem cut_closeKey (rest : List UInt8) :
    automaton.cut (0x5C :: 0x40 :: 0x7D :: rest) = (.closeKey, 3) := by
  have h1 : automaton.move 4 2 (some 0x7D) = .go 6 := move_go rfl rfl rfl
  have h2 (look : Option UInt8) : automaton.move 6 3 look = .halt (.accept .closeKey) := by
    cases hc : columnOf look with
    | _ => exact move_accept hc rfl rfl (by decide)
  apply Automaton.cut_of_accept
  rw [Automaton.startState, run_sigil, Automaton.run_cons_go _ h1]
  cases rest with
  | nil => exact Automaton.run_nil_halt _ (h2 none)
  | cons b tail => exact Automaton.run_cons_halt _ (h2 (some b))

theorem cut_bareSigil {rest : List UInt8} (h : ∀ b ∈ rest.head?, b = 0x5C) :
    automaton.cut (0x5C :: 0x40 :: rest) = (.unrecognized, 2) := by
  apply Automaton.cut_of_accept
  rw [Automaton.startState, run_sigil]
  cases rest with
  | nil => exact Automaton.run_nil_halt _ (move_accept rfl rfl rfl (by decide))
  | cons b tail =>
    obtain rfl : b = 0x5C := h b rfl
    exact Automaton.run_cons_halt _ (move_accept rfl rfl rfl (by decide))

theorem run_name {name : List UInt8} (h : IsName name) (rest : List UInt8) :
    automaton.run 4 2 (name ++ rest) = automaton.run 5 (name.length + 2) rest := by
  obtain ⟨hne, hkey⟩ := h
  cases name with
  | nil => exact absurd rfl hne
  | cons b name =>
    have hcol (b' : UInt8) (hb' : b' ∈ b :: name) : columnOf (some b') = .keyByte :=
      (columnOf_eq_keyByte_iff b').mpr (hkey b' hb')
    have h1 : automaton.move 4 2 (some b) = .go 5 :=
      move_go (hcol b List.mem_cons_self) rfl rfl
    have h2 (b' : UInt8) (hb' : b' ∈ name) (read : Nat) :
        automaton.move 5 read (some b') = .go 5 :=
      move_go (hcol b' (List.mem_cons_of_mem b hb')) rfl rfl
    rw [List.cons_append, Automaton.run_cons_go _ h1, Automaton.run_loop _ h2, List.length_cons]
    congr 1
    omega

theorem cut_openKey {name : List UInt8} (h : IsName name) (rest : List UInt8) :
    automaton.cut (0x5C :: 0x40 :: (name ++ 0x7B :: rest)) = (.openKey, name.length + 3) := by
  have h1 : automaton.move 5 (name.length + 2) (some 0x7B) = .go 7 := move_go rfl rfl rfl
  have h2 (look : Option UInt8) :
      automaton.move 7 (name.length + 3) look = .halt (.accept .openKey) := by
    cases hc : columnOf look with
    | _ => exact move_accept hc rfl rfl (by omega)
  apply Automaton.cut_of_accept
  rw [Automaton.startState, run_sigil, run_name h, Automaton.run_cons_go _ h1]
  cases rest with
  | nil => exact Automaton.run_nil_halt _ (h2 none)
  | cons b tail => exact Automaton.run_cons_halt _ (h2 (some b))

theorem cut_placeholderKey {name rest : List UInt8} (h : IsName name)
    (hr : ∀ b ∈ rest.head?, isKeyByte b = false ∧ b ≠ 0x7B) :
    automaton.cut (0x5C :: 0x40 :: (name ++ rest)) = (.placeholderKey, name.length + 2) := by
  apply Automaton.cut_of_accept
  rw [Automaton.startState, run_sigil, run_name h]
  cases rest with
  | nil => exact Automaton.run_nil_halt _ (move_accept rfl rfl rfl (by omega))
  | cons b tail =>
    obtain ⟨hkey, hbrace⟩ := hr b rfl
    have hm : automaton.move 5 (name.length + 2) (some b) = .halt (.accept .placeholderKey) := by
      cases hc : columnOf (some b) with
      | openBrace => exact absurd hc (columnOf_ne_openBrace hbrace)
      | keyByte => exact absurd ((columnOf_eq_keyByte_iff b).mp hc) (by rw [hkey]; decide)
      | _ => exact move_accept hc rfl rfl (by omega)
    exact Automaton.run_cons_halt _ hm

theorem cut_brokenKey {b : UInt8} {xs rest : List UInt8} (hkey : isKeyByte b = false)
    (hclose : b ≠ 0x7D) (hback : b ≠ 0x5C) (hxs : 0x5C ∉ xs) (hr : ∀ b ∈ rest.head?, b = 0x5C) :
    automaton.cut (0x5C :: 0x40 :: b :: (xs ++ rest)) = (.unrecognized, xs.length + 3) := by
  have h1 : automaton.move 4 2 (some b) = .go 8 := by
    cases hc : columnOf (some b) with
    | backslash => exact absurd hc (columnOf_ne_backslash hback)
    | closeBrace => exact absurd hc (columnOf_ne_closeBrace hclose)
    | keyByte => exact absurd ((columnOf_eq_keyByte_iff b).mp hc) (by rw [hkey]; decide)
    | endOfInput => exact absurd hc (columnOf_ne_endOfInput b)
    | _ => exact move_go hc rfl rfl
  have h2 (b' : UInt8) (hb' : b' ∈ xs) (read : Nat) : automaton.move 8 read (some b') = .go 8 := by
    have hne : b' ≠ 0x5C := fun he => hxs (he ▸ hb')
    cases hc : columnOf (some b') with
    | backslash => exact absurd hc (columnOf_ne_backslash hne)
    | endOfInput => exact absurd hc (columnOf_ne_endOfInput b')
    | _ => exact move_go hc rfl rfl
  apply Automaton.cut_of_accept
  rw [Automaton.startState, run_sigil, Automaton.run_cons_go _ h1, Automaton.run_loop _ h2,
    Nat.add_comm 3]
  cases rest with
  | nil => exact Automaton.run_nil_halt _ (move_accept rfl rfl rfl (by omega))
  | cons b tail =>
    obtain rfl : b = 0x5C := hr b rfl
    exact Automaton.run_cons_halt _ (move_accept rfl rfl rfl (by omega))

/-! ## lexemes and the automaton -/

/-- **The automaton cuts a lexeme off.** -/
theorem cut_of_lexeme {kind : Kind} {xs rest : List UInt8} (h : Lexeme kind xs rest) :
    automaton.cut (xs ++ rest) = (kind, xs.length) := by
  cases h with
  | content hne hp hr => exact cut_content hne hp hr
  | placeholderKey hn hr => exact cut_placeholderKey hn hr
  | @openKey name rest hn =>
    have hcut := cut_openKey hn rest
    simpa using hcut
  | closeKey => exact cut_closeKey rest
  | @dangling xs hp =>
    rw [List.append_nil, List.length_append]
    exact cut_dangling hp
  | lone h1 h2 => exact cut_lone h1 h2
  | bareSigil hr => exact cut_bareSigil hr
  | brokenKey hkey hclose hback hxs hr => exact cut_brokenKey hkey hclose hback hxs hr

/-- Bytes begin with one lexeme at most. -/
theorem Lexeme.unique {kind kind' : Kind} {xs xs' rest rest' : List UInt8}
    (h : Lexeme kind xs rest) (h' : Lexeme kind' xs' rest') (heq : xs ++ rest = xs' ++ rest') :
    kind = kind' ∧ xs = xs' ∧ rest = rest' := by
  have hcut : (kind, xs.length) = (kind', xs'.length) := by
    rw [← cut_of_lexeme h, ← cut_of_lexeme h', heq]
  obtain ⟨hkind, hlen⟩ := Prod.mk.inj hcut
  obtain ⟨hxs, hrest⟩ := List.append_inj heq hlen
  exact ⟨hkind, hxs, hrest⟩

theorem Lexemes.unique {bs : List UInt8} {ps qs : List (Kind × List UInt8)}
    (h : Lexemes bs ps) (h' : Lexemes bs qs) : ps = qs := by
  induction h generalizing qs with
  | nil =>
    generalize hbs : ([] : List UInt8) = bs at h'
    cases h' with
    | nil => rfl
    | cons hx _ => exact absurd (List.append_eq_nil_iff.mp hbs.symm).1 hx.ne_nil
  | @cons kind xs rest ps hx _ ih =>
    generalize hbs : xs ++ rest = bs at h'
    cases h' with
    | nil => exact absurd (List.append_eq_nil_iff.mp hbs).1 hx.ne_nil
    | @cons kind' xs' rest' qs hx' hqs =>
      obtain ⟨rfl, rfl, rfl⟩ := hx.unique hx' hbs
      rw [ih hqs]

/-! ## every byte sequence begins with a lexeme -/

theorem exists_span (p : UInt8 → Bool) (bs : List UInt8) :
    ∃ xs rest, bs = xs ++ rest ∧ (∀ b ∈ xs, p b = true) ∧ ∀ b ∈ rest.head?, p b = false := by
  induction bs with
  | nil => exact ⟨[], [], rfl, by simp, by simp⟩
  | cons b bs ih =>
    cases hb : p b with
    | false =>
      refine ⟨[], b :: bs, rfl, by simp, ?_⟩
      intro b' hb'
      obtain rfl : b = b' := by simpa using hb'
      exact hb
    | true =>
      obtain ⟨xs, rest, rfl, hxs, hrest⟩ := ih
      refine ⟨b :: xs, rest, rfl, ?_, hrest⟩
      intro b' hb'
      rcases List.mem_cons.mp hb' with rfl | hmem
      · exact hb
      · exact hxs b' hmem

/-- the longest run of content at the front, and what ends it -/
theorem exists_paired (bs : List UInt8) :
    ∃ xs rest, bs = xs ++ rest ∧ Paired xs ∧
      (rest = [] ∨ rest = [0x5C] ∨ ∃ b tail, b ≠ 0x5C ∧ rest = 0x5C :: b :: tail) := by
  cases bs with
  | nil => exact ⟨[], [], rfl, .nil, Or.inl rfl⟩
  | cons b bs =>
    by_cases hb : b = 0x5C
    · subst hb
      cases bs with
      | nil => exact ⟨[], [0x5C], rfl, .nil, Or.inr (Or.inl rfl)⟩
      | cons b' bs =>
        by_cases hb' : b' = 0x5C
        · subst hb'
          obtain ⟨xs, rest, rfl, hxs, hrest⟩ := exists_paired bs
          exact ⟨0x5C :: 0x5C :: xs, rest, rfl, .pair hxs, hrest⟩
        · exact ⟨[], 0x5C :: b' :: bs, rfl, .nil, Or.inr (Or.inr ⟨b', bs, hb', rfl⟩)⟩
    · obtain ⟨xs, rest, rfl, hxs, hrest⟩ := exists_paired bs
      exact ⟨b :: xs, rest, rfl, .byte hb hxs, hrest⟩
termination_by bs.length

/-- bytes that begin with a key byte begin with a name -/
theorem exists_name {b : UInt8} (hb : isKeyByte b = true) (bs : List UInt8) :
    ∃ name rest, b :: bs = name ++ rest ∧ IsName name ∧
      ∀ b ∈ rest.head?, isKeyByte b = false := by
  obtain ⟨xs, rest, rfl, hxs, hrest⟩ := exists_span isKeyByte bs
  refine ⟨b :: xs, rest, rfl, ⟨List.cons_ne_nil b xs, ?_⟩, hrest⟩
  intro b' hb'
  rcases List.mem_cons.mp hb' with rfl | hmem
  · exact hb
  · exact hxs b' hmem

theorem exists_lexeme_of_sigil (bs : List UInt8) :
    ∃ kind xs rest, 0x5C :: 0x40 :: bs = xs ++ rest ∧ Lexeme kind xs rest := by
  cases bs with
  | nil => exact ⟨.unrecognized, [0x5C, 0x40], [], rfl, .bareSigil (by simp)⟩
  | cons b bs =>
    by_cases hback : b = 0x5C
    · refine ⟨.unrecognized, [0x5C, 0x40], b :: bs, rfl, .bareSigil ?_⟩
      intro b' hb'
      obtain rfl : b = b' := by simpa using hb'
      exact hback
    by_cases hclose : b = 0x7D
    · subst hclose
      exact ⟨.closeKey, [0x5C, 0x40, 0x7D], bs, rfl, .closeKey⟩
    cases hkey : isKeyByte b with
    | false =>
      obtain ⟨xs, rest, rfl, hxs, hrest⟩ := exists_span (fun b => b != 0x5C) bs
      refine ⟨.unrecognized, 0x5C :: 0x40 :: b :: xs, rest, rfl,
        .brokenKey hkey hclose hback ?_ ?_⟩
      · intro hmem
        exact absurd (hxs _ hmem) (by decide)
      · intro b' hb'
        simpa using hrest b' hb'
    | true =>
      obtain ⟨name, rest, heq, hname, hrest⟩ := exists_name hkey bs
      rw [heq]
      by_cases hopen : rest.head? = some 0x7B
      · obtain ⟨tail, rfl⟩ := List.head?_eq_some_iff.mp hopen
        refine ⟨.openKey, 0x5C :: 0x40 :: (name ++ [0x7B]), tail, ?_, .openKey hname⟩
        simp
      · refine ⟨.placeholderKey, 0x5C :: 0x40 :: name, rest, rfl, .placeholderKey hname ?_⟩
        intro b' hb'
        refine ⟨hrest b' hb', ?_⟩
        rintro rfl
        exact hopen hb'

/-- **Every byte sequence that is not empty begins with a lexeme.** -/
theorem exists_lexeme {bs : List UInt8} (h : bs ≠ []) :
    ∃ kind xs rest, bs = xs ++ rest ∧ Lexeme kind xs rest := by
  obtain ⟨xs, rest, rfl, hxs, hrest⟩ := exists_paired bs
  by_cases hne : xs = []
  · -- a backslash stands at the front
    subst hne
    rcases hrest with rfl | rfl | ⟨b, tail, hb, rfl⟩
    · exact absurd rfl h
    · exact ⟨.unrecognized, [0x5C], [], rfl, .dangling .nil⟩
    · by_cases hat : b = 0x40
      · subst hat
        exact exists_lexeme_of_sigil tail
      · exact ⟨.unrecognized, [0x5C], b :: tail, rfl, .lone hb hat⟩
  · rcases hrest with rfl | rfl | hrest
    · exact ⟨.content, xs, [], rfl, .content hne hxs (Or.inl rfl)⟩
    · exact ⟨.unrecognized, xs ++ [0x5C], [], by rw [List.append_nil], .dangling hxs⟩
    · exact ⟨.content, xs, rest, rfl, .content hne hxs (Or.inr hrest)⟩

theorem exists_lexemes (bs : List UInt8) : ∃ ps, Lexemes bs ps := by
  by_cases h : bs = []
  · subst h
    exact ⟨[], .nil⟩
  · obtain ⟨kind, xs, rest, rfl, hx⟩ := exists_lexeme h
    have hpos : 0 < xs.length := List.length_pos_iff.mpr hx.ne_nil
    have hlt : rest.length < (xs ++ rest).length := by rw [List.length_append]; omega
    obtain ⟨ps, hps⟩ := exists_lexemes rest
    exact ⟨(kind, xs) :: ps, .cons hx hps⟩
termination_by bs.length

/-! ## seams -/

theorem lt_of_isKeyByte {b : UInt8} (h : isKeyByte b = true) : b < 0x80 := by
  simp only [isKeyByte, Bool.or_eq_true, Bool.and_eq_true, decide_eq_true_eq, beq_iff_eq,
    UInt8.le_iff_toNat_le, ← UInt8.toNat_inj] at h
  rw [UInt8.lt_iff_toNat_lt]
  simp only [UInt8.reduceToNat] at h ⊢
  omega

/-- **A lexeme ends at a seam.** -/
theorem Lexeme.seam {kind : Kind} {xs rest : List UInt8} (h : Lexeme kind xs rest) :
    Utf8.Seam xs rest := by
  have hlast (ys : List UInt8) {b : UInt8} (hb : b < 0x80) : Utf8.Seam (ys ++ [b]) rest :=
    Or.inr (Or.inr (Or.inl ⟨b, by simp, hb⟩))
  have hhead (hr : ∀ b ∈ rest.head?, b = 0x5C) : Utf8.Seam xs rest := by
    cases rest with
    | nil => exact Or.inr (Or.inl rfl)
    | cons b rest =>
      obtain rfl : b = 0x5C := hr b rfl
      exact Or.inr (Or.inr (Or.inr ⟨0x5C, rfl, by decide⟩))
  cases h with
  | content _ _ hr =>
    rcases hr with rfl | ⟨b, tail, _, rfl⟩
    · exact Or.inr (Or.inl rfl)
    · exact hhead (fun b' hb' => (Option.some.inj hb').symm)
  | @placeholderKey name _ hn _ =>
    obtain ⟨hne, hkey⟩ := hn
    have hb := lt_of_isKeyByte (hkey _ (List.getLast_mem hne))
    rw [← List.dropLast_concat_getLast hne]
    exact hlast (0x5C :: 0x40 :: name.dropLast) hb
  | @openKey name _ _ => exact hlast (0x5C :: 0x40 :: name) (show (0x7B : UInt8) < 0x80 by decide)
  | closeKey => exact hlast [0x5C, 0x40] (show (0x7D : UInt8) < 0x80 by decide)
  | dangling _ => exact Or.inr (Or.inl rfl)
  | lone _ _ => exact hlast [] (show (0x5C : UInt8) < 0x80 by decide)
  | bareSigil hr => exact hhead hr
  | brokenKey _ _ _ _ hr => exact hhead hr

/-- the tokens of a text are texts -/
theorem Lexemes.exists_encode {s : String} {bs : List UInt8} {ps : List (Kind × List UInt8)}
    (h : Lexemes bs ps) (hs : bs = Utf8.encode s) : ∀ p ∈ ps, ∃ t, p.2 = Utf8.encode t := by
  induction h generalizing s with
  | nil => exact fun p hp => absurd hp List.not_mem_nil
  | cons hx _ ih =>
    obtain ⟨s₁, s₂, rfl, hs₁, hs₂⟩ := Utf8.exists_append_of_seam hs.symm hx.seam
    intro p hp
    rcases List.mem_cons.mp hp with rfl | hmem
    · exact ⟨s₁, hs₁⟩
    · exact ih hs₂ p hmem

end TemplateCheck.Template
