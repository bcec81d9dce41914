import TemplateCheck.Proofs.Template.Balance
import TemplateCheck.Proofs.Template.Lexeme
import TemplateCheck.Template.Forest

/-!
# Forests as token sequences

* `Spelled q`           a recognized token with its text as a forest has it
* `Over qs`             nothing comes, or a closing tag
* `exists_flatten`      tokens that close every tag begin with a flattened forest
* `flatten_append_inj`  and with one only
-/

namespace TemplateCheck.Template
open Utf8 (encode)

/-! ## what a flattened forest is like -/

theorem recognized_of_mem_flatten (f : Forest) : ∀ q ∈ f.flatten, q.1 ≠ .unrecognized := by
  induction f with
  | nil => exact fun q hq => absurd hq List.not_mem_nil
  | content text rest ih => exact List.forall_mem_cons.mpr ⟨nofun, ih⟩
  | placeholder key rest ih => exact List.forall_mem_cons.mpr ⟨nofun, ih⟩
  | tag key children rest ihc ihr =>
    refine List.forall_mem_cons.mpr ⟨nofun, List.forall_mem_append.mpr ⟨ihc, ?_⟩⟩
    exact List.forall_mem_cons.mpr ⟨nofun, ihr⟩

theorem flatten_tag_append (key : String) (children rest : Forest) (qs : List (Kind × String)) :
    (Forest.tag key children rest).flatten ++ qs = (.openKey, sigil ++ key ++ "\x7b") ::
      (children.flatten ++ (.closeKey, sigil ++ "\x7d") :: (rest.flatten ++ qs)) := by
  rw [Forest.flatten, List.cons_append, List.append_assoc, List.cons_append]

/-- A forest closes every tag it opens, and no other. -/
theorem closes_flatten_append_iff (f : Forest) (depth : Nat) (ks : List Kind) :
    Closes depth (f.flatten.map Prod.fst ++ ks) ↔ Closes depth ks := by
  induction f generalizing depth ks with
  | nil => exact Iff.rfl
  | content text rest ih =>
    exact (closes_cons_iff (show Kind.content ≠ _ by decide) depth _).trans (ih depth ks)
  | placeholder key rest ih =>
    exact (closes_cons_iff (show Kind.placeholderKey ≠ _ by decide) depth _).trans (ih depth ks)
  | tag key children rest ihc ihr =>
    have hkinds : (Forest.tag key children rest).flatten.map Prod.fst ++ ks =
        .openKey :: (children.flatten.map Prod.fst ++
          .closeKey :: (rest.flatten.map Prod.fst ++ ks)) := by
      simp only [Forest.flatten, List.map_cons, List.map_append, List.cons_append,
        List.append_assoc]
    rw [hkinds, closes_cons_iff (by decide), ihc]
    exact (closes_closeKey_iff depth _).trans (ihr depth ks)

/-! ## a forest for a token sequence -/

/-- A recognized token with its text as a forest has it. -/
inductive Spelled : Kind × String → Prop where
  | content (text : String) : Spelled (.content, text)
  | placeholder (key : String) : Spelled (.placeholderKey, sigil ++ key)
  | openKey (key : String) : Spelled (.openKey, sigil ++ key ++ "\x7b")
  | closeKey : Spelled (.closeKey, sigil ++ "\x7d")

/-- A text whose bytes begin with a sigil begins with one. -/
theorem exists_key {s : String} {xs : List UInt8} (h : encode s = 0x5C :: 0x40 :: xs) :
    ∃ key, s = sigil ++ key ∧ xs = encode key := by
  have hseam : Utf8.Seam [0x5C, 0x40] xs := Or.inr (Or.inr (Or.inl ⟨0x40, rfl, by decide⟩))
  obtain ⟨s₁, key, rfl, hs₁, hkey⟩ := Utf8.exists_append_of_seam h hseam
  obtain rfl : sigil = s₁ := Utf8.encode_injective hs₁
  exact ⟨key, rfl, hkey⟩

theorem Lexeme.spelled {kind : Kind} {bs : List UInt8} {text : String}
    (h : Lexeme kind (encode text) bs) (hk : kind ≠ .unrecognized) : Spelled (kind, text) := by
  cases kind with
  | content => exact .content text
  | placeholderKey =>
    obtain ⟨name, hname, -⟩ := lexeme_placeholderKey_iff.mp h
    obtain ⟨key, rfl, -⟩ := exists_key hname
    exact .placeholder key
  | openKey =>
    obtain ⟨name, hname, -⟩ := lexeme_openKey_iff.mp h
    obtain ⟨s, rfl, hs⟩ := exists_key hname
    have hseam : Utf8.Seam name [0x7B] := Or.inr (Or.inr (Or.inr ⟨0x7B, rfl, by decide⟩))
    obtain ⟨key, brace, rfl, -, hbrace⟩ := Utf8.exists_append_of_seam hs.symm hseam
    obtain rfl : "\x7b" = brace := Utf8.encode_injective hbrace
    rw [← String.append_assoc]
    exact .openKey key
  | closeKey =>
    have htext : encode text = encode (sigil ++ "\x7d") := lexeme_closeKey_iff.mp h
    obtain rfl := Utf8.encode_injective htext
    exact .closeKey
  | endOfInput => exact absurd rfl h.kind_ne_endOfInput
  | unrecognized => exact absurd rfl hk

/-- A sequence of nodes is over. -/
def Over (qs : List (Kind × String)) : Prop :=
  ∀ q ∈ qs.head?, q.1 = .closeKey

theorem over_nil : Over [] := by
  intro q hq
  exact absurd hq (Option.not_mem_none q)

theorem over_closeKey (text : String) (qs : List (Kind × String)) :
    Over ((.closeKey, text) :: qs) := by
  intro q hq
  rw [← Option.some.inj hq]

/-- **Tokens that close every tag begin with a forest**, which goes on until its sequence is over.
The children of a tag are a forest one level down, and what follows the tag is one again. -/
theorem exists_flatten {depth : Nat} {qs : List (Kind × String)} (hq : ∀ q ∈ qs, Spelled q)
    (hc : Closes depth (qs.map Prod.fst)) :
    ∃ f : Forest, ∃ qs', qs = f.flatten ++ qs' ∧ Closes depth (qs'.map Prod.fst) ∧ Over qs' := by
  cases qs with
  | nil => exact ⟨.nil, [], rfl, hc, over_nil⟩
  | cons q qs =>
    obtain ⟨hq₀, hqs⟩ := List.forall_mem_cons.mp hq
    cases hq₀ with
    | content text =>
      have hrest : Closes depth (qs.map Prod.fst) := hc.2
      obtain ⟨f, qs', rfl, hc', hover⟩ := exists_flatten hqs hrest
      exact ⟨.content text f, qs', rfl, hc', hover⟩
    | placeholder key =>
      have hrest : Closes depth (qs.map Prod.fst) := hc.2
      obtain ⟨f, qs', rfl, hc', hover⟩ := exists_flatten hqs hrest
      exact ⟨.placeholder key f, qs', rfl, hc', hover⟩
    | closeKey => exact ⟨.nil, _, rfl, hc, over_closeKey _ _⟩
    | openKey key =>
      have hinner : Closes (depth + 1) (qs.map Prod.fst) := hc.2
      obtain ⟨children, qs₁, rfl, hc₁, hover⟩ := exists_flatten hqs hinner
      cases qs₁ with
      | nil => exact absurd hc₁ (Nat.succ_ne_zero depth)
      | cons q₁ qs₂ =>
        obtain ⟨-, hqs₁⟩ := List.forall_mem_append.mp hqs
        obtain ⟨hq₁, hqs₂⟩ := List.forall_mem_cons.mp hqs₁
        have hkind : q₁.1 = .closeKey := hover q₁ rfl
        cases hq₁ with
        | closeKey =>
          have hc₂ := (closes_closeKey_iff depth _).mp hc₁
          obtain ⟨rest, qs₃, rfl, hc₃, hover₃⟩ := exists_flatten hqs₂ hc₂
          exact ⟨.tag key children rest, qs₃, (flatten_tag_append ..).symm, hc₃, hover₃⟩
        | _ => exact Kind.noConfusion hkind
termination_by qs.length

/-! ## one forest for a token sequence -/

theorem eq_nil_of_over {f : Forest} {ps qs : List (Kind × String)} (hps : Over ps)
    (h : ps = f.flatten ++ qs) : f = .nil := by
  subst h
  cases f with
  | nil => rfl
  | content text rest => exact Kind.noConfusion (hps _ rfl)
  | placeholder key rest => exact Kind.noConfusion (hps _ rfl)
  | tag key children rest => exact Kind.noConfusion (hps _ rfl)

/-- **A token sequence begins with one forest only.** -/
theorem flatten_append_inj {f g : Forest} {ps qs : List (Kind × String)} (hps : Over ps)
    (hqs : Over qs) (h : f.flatten ++ ps = g.flatten ++ qs) : f = g ∧ ps = qs := by
  induction f generalizing g ps qs with
  | nil =>
    obtain rfl := eq_nil_of_over hps h
    exact ⟨rfl, h⟩
  | content text rest ih =>
    cases g with
    | content text' rest' =>
      obtain ⟨hhead, htail⟩ := List.cons.inj h
      obtain rfl : text = text' := (Prod.mk.inj hhead).2
      obtain ⟨rfl, htails⟩ := ih hps hqs htail
      exact ⟨rfl, htails⟩
    | nil => exact Forest.noConfusion (eq_nil_of_over hqs h.symm)
    | _ => exact Kind.noConfusion (Prod.mk.inj (List.cons.inj h).1).1
  | placeholder key rest ih =>
    cases g with
    | placeholder key' rest' =>
      obtain ⟨hhead, htail⟩ := List.cons.inj h
      obtain rfl : key = key' := (String.append_right_inj sigil).mp (Prod.mk.inj hhead).2
      obtain ⟨rfl, htails⟩ := ih hps hqs htail
      exact ⟨rfl, htails⟩
    | nil => exact Forest.noConfusion (eq_nil_of_over hqs h.symm)
    | _ => exact Kind.noConfusion (Prod.mk.inj (List.cons.inj h).1).1
  | tag key children rest ihc ihr =>
    cases g with
    | tag key' children' rest' =>
      rw [flatten_tag_append, flatten_tag_append] at h
      obtain ⟨hhead, htail⟩ := List.cons.inj h
      obtain rfl : key = key' :=
        (String.append_right_inj sigil).mp ((String.append_left_inj _).mp (Prod.mk.inj hhead).2)
      obtain ⟨rfl, hclose⟩ := ihc (over_closeKey _ _) (over_closeKey _ _) htail
      obtain ⟨rfl, htails⟩ := ihr hps hqs (List.cons.inj hclose).2
      exact ⟨rfl, htails⟩
    | nil => exact Forest.noConfusion (eq_nil_of_over hqs h.symm)
    | _ => exact Kind.noConfusion (Prod.mk.inj (List.cons.inj h).1).1

end TemplateCheck.Template
