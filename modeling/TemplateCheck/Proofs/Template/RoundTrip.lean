import TemplateCheck.Proofs.Template.Flattening
import TemplateCheck.Proofs.Template.Spelling
import TemplateCheck.Proofs.Template.Verdict

/-!
# Writing a forest and reading it back

* `AtKey bs`          nothing is left, or a key comes
* `Forest.lexemes`    the tokens of a forest, as bytes

A forest is proper exactly if the tokens of its text are the tokens of the forest
(`lexemes_render_iff`); this is read from the left for the way there, and from the right for the way
back.
-/

namespace TemplateCheck.Template
open Utf8 (encode)

/-! ## a node and what follows it -/

theorem encode_placeholder (key : String) : encode (sigil ++ key) = 0x5C :: 0x40 :: encode key := by
  rw [Utf8.encode_append]
  rfl

theorem encode_openKey (key : String) :
    encode (sigil ++ key ++ "\x7b") = 0x5C :: 0x40 :: (encode key ++ [0x7B]) := by
  rw [Utf8.encode_append, encode_placeholder]
  rfl

theorem encode_closeKey : encode (sigil ++ "\x7d") = [0x5C, 0x40, 0x7D] := rfl

/-- Nothing is left, or a key comes. -/
def AtKey (bs : List UInt8) : Prop :=
  bs = [] ∨ ∃ tail, bs = 0x5C :: 0x40 :: tail

variable {f : Forest} {bs : List UInt8} {text key : String}

theorem atKey_render (hf : f.startsWithContent = false) (hbs : AtKey bs) :
    AtKey (encode f.render ++ bs) := by
  cases f with
  | nil => exact hbs
  | content text rest => exact absurd hf nofun
  | placeholder key rest =>
    rw [Forest.render, Utf8.encode_append, encode_placeholder]
    exact Or.inr ⟨_, rfl⟩
  | tag key children rest =>
    rw [Forest.render, Utf8.encode_append, Utf8.encode_append, Utf8.encode_append, encode_openKey]
    exact Or.inr ⟨_, rfl⟩

theorem not_ends_content {xs : List UInt8} (hxs : Paired xs) (hne : xs ≠ []) :
    ¬ (xs ++ bs = [] ∨ ∃ b tail, b ≠ 0x5C ∧ xs ++ bs = 0x5C :: b :: tail) := by
  intro h
  rcases h with h | ⟨b, tail, hb, h⟩
  · exact hne (List.append_eq_nil_iff.mp h).1
  · cases hxs with
    | nil => exact hne rfl
    | pair _ => exact hb (List.cons.inj (List.cons.inj h).2).1.symm
    | byte hb' _ => exact hb' (List.cons.inj h).1

/-- Content goes on until something else than content comes. -/
theorem ends_content_iff (hf : f.Proper) (hbs : AtKey bs) :
    (encode f.render ++ bs = [] ∨
        ∃ b tail, b ≠ 0x5C ∧ encode f.render ++ bs = 0x5C :: b :: tail) ↔
      f.startsWithContent = false := by
  refine ⟨?_, ?_⟩
  · intro h
    cases f with
    | content text rest =>
      obtain ⟨hne, hpaired⟩ := (isContent_iff _).mp hf.1
      rw [Forest.render, Utf8.encode_append, List.append_assoc] at h
      exact absurd h (not_ends_content hpaired hne)
    | _ => rfl
  · intro h
    rcases atKey_render h hbs with hnil | ⟨tail, htail⟩
    · exact Or.inl hnil
    · exact Or.inr ⟨0x40, tail, by decide, htail⟩

/-- A name goes on until content comes that is no part of it, or a key. -/
theorem ends_name_iff (hf : f.Proper) (hbs : AtKey bs) :
    (∀ b ∈ (encode f.render ++ bs).head?, isKeyByte b = false ∧ b ≠ 0x7B) ↔
      f.extendsName = false := by
  have hkey (hstart : f.startsWithContent = false) :
      ∀ b ∈ (encode f.render ++ bs).head?, isKeyByte b = false ∧ b ≠ 0x7B := by
    rcases atKey_render hstart hbs with hnil | ⟨tail, htail⟩
    · rw [hnil]
      exact nofun
    · rw [htail]
      intro b hb
      obtain rfl : 0x5C = b := Option.some.inj hb
      decide
  cases f with
  | content text rest =>
    obtain ⟨hne, -⟩ := (isContent_iff _).mp hf.1
    cases hcs : text.toList with
    | nil => exact absurd (by rw [hcs]; rfl) hne
    | cons c cs =>
      have hchar : String.utf8EncodeChar c ≠ [] := by simp
      obtain ⟨b, bytes, hc⟩ := List.exists_cons_of_ne_nil hchar
      have hhead : (encode (text ++ rest.render) ++ bs).head? = some b := by
        rw [Utf8.encode_append, encode, hcs, List.flatMap_cons, hc]
        rfl
      rw [Forest.render, hhead, Forest.extendsName, hcs]
      rw [← head_goes_on_iff (c := c) (b := b) (by rw [hc]; rfl)]
      exact ⟨fun h => h b rfl, fun h b' hb' => by rwa [← Option.some.inj hb']⟩
  | nil => exact ⟨fun _ => rfl, fun _ => hkey rfl⟩
  | placeholder key rest => exact ⟨fun _ => rfl, fun _ => hkey rfl⟩
  | tag key children rest => exact ⟨fun _ => rfl, fun _ => hkey rfl⟩

theorem lexeme_content_render_iff (hf : f.Proper) (hbs : AtKey bs) :
    Lexeme .content (encode text) (encode f.render ++ bs) ↔
      isContent text.toList = true ∧ f.startsWithContent = false := by
  rw [lexeme_content_iff, ends_content_iff hf hbs, ← and_assoc]
  exact and_congr_left' (isContent_iff _).symm

theorem lexeme_placeholder_render_iff (hf : f.Proper) (hbs : AtKey bs) :
    Lexeme .placeholderKey (encode (sigil ++ key)) (encode f.render ++ bs) ↔
      isName key.toList = true ∧ f.extendsName = false := by
  rw [lexeme_placeholderKey_iff, ends_name_iff hf hbs, isName_iff, encode_placeholder]
  refine ⟨?_, ?_⟩
  · intro h
    obtain ⟨name, hname, hkey, hends⟩ := h
    obtain rfl : encode key = name := (List.cons.inj (List.cons.inj hname).2).2
    exact ⟨hkey, hends⟩
  · intro h
    obtain ⟨hkey, hends⟩ := h
    exact ⟨_, rfl, hkey, hends⟩

theorem lexeme_open_iff :
    Lexeme .openKey (encode (sigil ++ key ++ "\x7b")) bs ↔ isName key.toList = true := by
  rw [lexeme_openKey_iff, isName_iff, encode_openKey]
  refine ⟨?_, ?_⟩
  · intro h
    obtain ⟨name, hname, hkey⟩ := h
    obtain rfl : encode key = name :=
      List.append_cancel_right (List.cons.inj (List.cons.inj hname).2).2
    exact hkey
  · intro hkey
    exact ⟨_, rfl, hkey⟩

/-! ## a forest and its tokens -/

/-- the tokens of a forest, as bytes -/
def Forest.lexemes (f : Forest) : List (Kind × List UInt8) :=
  f.flatten.map fun q => (q.1, encode q.2)

/-- **A forest is proper exactly if its tokens are the tokens of its text**, whatever key comes
behind it. -/
theorem lexemes_render_iff (f : Forest) {ps : List (Kind × List UInt8)} (hbs : AtKey bs) :
    Lexemes (encode f.render ++ bs) (f.lexemes ++ ps) ↔ f.Proper ∧ Lexemes bs ps := by
  induction f generalizing bs ps with
  | nil => exact ⟨fun h => ⟨trivial, h⟩, And.right⟩
  | content text rest ih =>
    have hsplit : encode (Forest.content text rest).render ++ bs =
        encode text ++ (encode rest.render ++ bs) := by
      rw [Forest.render, Utf8.encode_append, List.append_assoc]
    rw [hsplit]
    show Lexemes _ ((.content, encode text) :: (rest.lexemes ++ ps)) ↔ (_ ∧ _ ∧ rest.Proper) ∧ _
    rw [lexemes_cons_iff, ih hbs, ← and_assoc, ← and_assoc]
    refine and_congr_left' (and_congr_left fun hrest => ?_)
    exact lexeme_content_render_iff hrest hbs
  | placeholder key rest ih =>
    have hsplit : encode (Forest.placeholder key rest).render ++ bs =
        encode (sigil ++ key) ++ (encode rest.render ++ bs) := by
      rw [Forest.render, Utf8.encode_append, List.append_assoc]
    rw [hsplit]
    show Lexemes _ ((.placeholderKey, encode (sigil ++ key)) :: (rest.lexemes ++ ps)) ↔
      (_ ∧ _ ∧ rest.Proper) ∧ _
    rw [lexemes_cons_iff, ih hbs, ← and_assoc, ← and_assoc]
    refine and_congr_left' (and_congr_left fun hrest => ?_)
    exact lexeme_placeholder_render_iff hrest hbs
  | tag key children rest ihc ihr =>
    have hsplit : encode (Forest.tag key children rest).render ++ bs =
        encode (sigil ++ key ++ "\x7b") ++ (encode children.render ++
          (encode (sigil ++ "\x7d") ++ (encode rest.render ++ bs))) := by
      rw [Forest.render, Utf8.encode_append, Utf8.encode_append, Utf8.encode_append]
      simp only [List.append_assoc]
    have htokens : (Forest.tag key children rest).lexemes ++ ps =
        (.openKey, encode (sigil ++ key ++ "\x7b")) :: (children.lexemes ++
          (.closeKey, encode (sigil ++ "\x7d")) :: (rest.lexemes ++ ps)) := by
      simp only [Forest.lexemes, Forest.flatten, List.map_cons, List.map_append, List.cons_append,
        List.append_assoc]
    -- the children end at the key that closes the tag
    have hclose : AtKey (encode (sigil ++ "\x7d") ++ (encode rest.render ++ bs)) :=
      Or.inr ⟨_, by rw [encode_closeKey]; rfl⟩
    rw [hsplit, htokens, lexemes_cons_iff, ihc hclose, lexemes_cons_iff, ihr hbs, lexeme_open_iff,
      lexeme_closeKey_iff]
    show _ ↔ (_ ∧ children.Proper ∧ rest.Proper) ∧ _
    simp only [encode_closeKey, true_and, and_assoc]

/-! ## there and back -/

theorem proper_iff (f : Forest) : f.Proper ↔ Lexemes (encode f.render) f.lexemes := by
  have h : Lexemes (encode f.render ++ []) (f.lexemes ++ []) ↔ f.Proper ∧ Lexemes [] [] :=
    lexemes_render_iff f (Or.inl rfl)
  rw [List.append_nil, List.append_nil] at h
  exact ⟨fun hf => h.mpr ⟨hf, .nil⟩, fun hf => (h.mp hf).1⟩

theorem map_encode_inj {ps qs : List (Kind × String)}
    (h : (ps.map fun q => (q.1, encode q.2)) = qs.map fun q => (q.1, encode q.2)) : ps = qs := by
  refine (List.map_inj_right fun p q hpq => ?_).mp h
  obtain ⟨hkind, htext⟩ := Prod.mk.inj hpq
  exact Prod.ext hkind (Utf8.encode_injective htext)

theorem Forest.lexemes_injective {f g : Forest} (h : f.lexemes = g.lexemes) : f = g := by
  have hflat : f.flatten ++ [] = g.flatten ++ [] := by rw [map_encode_inj h]
  exact (flatten_append_inj over_nil over_nil hflat).1

/-- a forest is proper exactly if its tokens are those of its text -/
theorem Forest.Proper.map_tokens {f : Forest} (hf : f.Proper) {ts : List (Token Kind)}
    {last : Token Kind} (htok : tokenize f.render = ts ++ [last]) :
    ts.map (fun t => (t.kind, t.text)) = f.flatten := by
  have hbytes := (lexemes_of_tokenize htok).unique ((proper_iff f).mp hf)
  apply map_encode_inj
  rw [List.map_map]
  exact hbytes

theorem wellFormed_of_map_eq_flatten {f : Forest} {ts : List (Token Kind)}
    (h : ts.map (fun t => (t.kind, t.text)) = f.flatten) : WellFormed ts := by
  refine ⟨?_, ?_⟩
  · intro t ht
    exact recognized_of_mem_flatten f (t.kind, t.text) (h ▸ List.mem_map_of_mem ht)
  · have hkinds : ts.map Token.kind = f.flatten.map Prod.fst := by
      rw [← h, List.map_map]
      rfl
    rw [balanced_iff_closes, hkinds, ← List.append_nil (f.flatten.map Prod.fst),
      closes_flatten_append_iff]
    rfl

/-- the tokens of an accepted text are the tokens of a forest -/
theorem exists_forest {source : String} {ts : List (Token Kind)} {last : Token Kind}
    (htok : tokenize source = ts ++ [last]) (hw : WellFormed ts) :
    ∃ f : Forest, ts.map (fun t => (t.kind, t.text)) = f.flatten := by
  have hlex := lexemes_of_tokenize htok
  have hspelled : ∀ q ∈ ts.map (fun t => (t.kind, t.text)), Spelled q := by
    intro q hq
    obtain ⟨t, ht, rfl⟩ := List.mem_map.mp hq
    obtain ⟨bs, hx⟩ := hlex.lexeme_of_mem _ (List.mem_map_of_mem ht)
    exact hx.spelled (hw.1 t ht)
  have hcloses : Closes 0 ((ts.map fun t => (t.kind, t.text)).map Prod.fst) := by
    rw [List.map_map]
    exact (balanced_iff_closes _).mp hw.2
  obtain ⟨f, qs, hqs, hc, hover⟩ := exists_flatten hspelled hcloses
  cases qs with
  | nil => exact ⟨f, by rw [hqs, List.append_nil]⟩
  | cons q qs => exact absurd ⟨hover q rfl, rfl⟩ hc.1

theorem flatMap_lexemes (f : Forest) : f.lexemes.flatMap Prod.snd = encode f.render := by
  rw [← f.join_flatten, Utf8.encode_join, Forest.lexemes, List.flatMap_map, List.flatMap_map]

/-- **What is written is read back, and what is read was written in one way only.** -/
theorem parse_render :
    (∀ f : Forest, f.Proper →
      ∃ ts, parse f.render = .ok ts ∧ ts.map (fun t => (t.kind, t.text)) = f.flatten) ∧
    ∀ source ts, parse source = .ok ts → ∃! f : Forest, f.Proper ∧ f.render = source := by
  refine ⟨?_, ?_⟩
  · intro f hf
    obtain ⟨ts, last, htok, -⟩ := exists_tokenize f.render
    have hmap := hf.map_tokens htok
    exact ⟨ts, parse_of_wellFormed htok (wellFormed_of_map_eq_flatten hmap), hmap⟩
  · intro source result hparse
    obtain ⟨ts, last, htok, -⟩ := exists_tokenize source
    have hw := ((parse_eq_ok_iff_wellFormed htok result).mp hparse).1
    have hlex := lexemes_of_tokenize htok
    obtain ⟨f, hf⟩ := exists_forest htok hw
    have hlexemes : (ts.map fun t => (t.kind, encode t.text)) = f.lexemes := by
      rw [Forest.lexemes, ← hf, List.map_map]
      rfl
    rw [hlexemes] at hlex
    have hrender : f.render = source := by
      apply Utf8.encode_injective
      rw [← flatMap_lexemes, hlex.flatMap_eq]
    refine ⟨f, ⟨(proper_iff f).mpr (hrender ▸ hlex), hrender⟩, ?_⟩
    intro g hg
    obtain ⟨hg, hgrender⟩ := hg
    have hlex' := (proper_iff g).mp hg
    rw [hgrender] at hlex'
    exact Forest.lexemes_injective (hlex'.unique hlex)

theorem parse_render_nested :
    let f : Forest := .content "a\\\\" (.tag "t" (.placeholder "k" (.content " b" .nil)) .nil)
    f.Proper ∧ f.render = "a\\\\\\@t\x7b\\@k b\\@\x7d" ∧
      ∃ ts, parse f.render = .ok ts ∧ ts.map (fun t => (t.kind, t.text)) = f.flatten ∧
        ∃! g : Forest, g.Proper ∧ g.render = f.render := by
  intro f
  have hf : f.Proper := by decide
  obtain ⟨ts, hparse, hmap⟩ := parse_render.1 f hf
  exact ⟨hf, by decide, ts, hparse, hmap, parse_render.2 f.render ts hparse⟩

end TemplateCheck.Template
