import TemplateCheck.Proofs.Template.Placement
import TemplateCheck.Proofs.Template.RoundTrip

/-!
# One template behind another

* `glue t us`           the token `t` before the tokens `us`
* `joined ts us`        the tokens `ts` before the tokens `us`
* `Lexeme.append`       a lexeme with something behind it stays one if more comes behind that
* `lexemes_joined`      the lexemes of two byte sequences, one behind the other
* `parse_append`        the tokens of two accepted templates, one behind the other

At the seam the automaton sees the first byte of the second template where it saw the end of the
input.  Content goes on there, and so does a name, which the first byte must not be a part of.
-/

namespace TemplateCheck.Template
open Utf8 (encode)

/-- A token before others.  Content before content is one token. -/
def glue (t : Token Kind) : List (Token Kind) → List (Token Kind)
  | [] => [t]
  | u :: us =>
    if t.kind = .content ∧ u.kind = .content then { t with text := t.text ++ u.text } :: us
    else t :: u :: us

/-- Tokens before others; the last one of the former is glued to the latter. -/
def joined (ts us : List (Token Kind)) : List (Token Kind) :=
  match ts with
  | [] => us
  | [t] => glue t us
  | t :: t' :: ts => t :: joined (t' :: ts) us

theorem glue_of_content {t u : Token Kind} (ht : t.kind = .content) (hu : u.kind = .content)
    (us : List (Token Kind)) : glue t (u :: us) = { t with text := t.text ++ u.text } :: us :=
  if_pos ⟨ht, hu⟩

theorem glue_of_not_content {t u : Token Kind} (h : ¬ (t.kind = .content ∧ u.kind = .content))
    (us : List (Token Kind)) : glue t (u :: us) = t :: u :: us :=
  if_neg h

/-! ## kinds and places -/

theorem kind_of_mem_glue {t : Token Kind} {us : List (Token Kind)} {v : Token Kind}
    (hv : v ∈ glue t us) : v.kind = t.kind ∨ ∃ u ∈ us, v.kind = u.kind := by
  cases us with
  | nil => exact Or.inl (congrArg Token.kind (List.mem_singleton.mp hv))
  | cons u us =>
    by_cases h : t.kind = .content ∧ u.kind = .content
    · rw [glue_of_content h.1 h.2] at hv
      rcases List.mem_cons.mp hv with rfl | hv
      · exact Or.inl rfl
      · exact Or.inr ⟨v, List.mem_cons_of_mem u hv, rfl⟩
    · rw [glue_of_not_content h] at hv
      rcases List.mem_cons.mp hv with rfl | hv
      · exact Or.inl rfl
      · exact Or.inr ⟨v, hv, rfl⟩

theorem recognized_joined {ts us : List (Token Kind)} (ht : ∀ t ∈ ts, t.kind ≠ .unrecognized)
    (hu : ∀ u ∈ us, u.kind ≠ .unrecognized) : ∀ v ∈ joined ts us, v.kind ≠ .unrecognized := by
  induction ts using joined.induct with
  | case1 => exact hu
  | case2 t =>
    intro v hv
    rcases kind_of_mem_glue hv with h | ⟨u, hmem, h⟩
    · exact h ▸ ht t List.mem_cons_self
    · exact h ▸ hu u hmem
  | case3 t t' ts ih =>
    obtain ⟨ht₀, ht⟩ := List.forall_mem_cons.mp ht
    exact List.forall_mem_cons.mpr ⟨ht₀, ih ht⟩

theorem closes_glue_iff (depth : Nat) (t : Token Kind) (us : List (Token Kind)) :
    Closes depth ((glue t us).map Token.kind) ↔ Closes depth (t.kind :: us.map Token.kind) := by
  cases us with
  | nil => exact Iff.rfl
  | cons u us =>
    by_cases h : t.kind = .content ∧ u.kind = .content
    · obtain ⟨ht, hu⟩ := h
      rw [glue_of_content ht hu, List.map_cons, List.map_cons, ht, hu]
      exact (closes_cons_iff (show Kind.content ≠ .closeKey by decide) depth _).symm
    · rw [glue_of_not_content h]
      exact Iff.rfl

theorem closes_joined_iff (depth : Nat) (ts us : List (Token Kind)) :
    Closes depth ((joined ts us).map Token.kind) ↔
      Closes depth (ts.map Token.kind ++ us.map Token.kind) := by
  induction ts using joined.induct generalizing depth with
  | case1 => exact Iff.rfl
  | case2 t => exact closes_glue_iff depth t us
  | case3 t t' ts ih => exact and_congr_right fun _ => ih _

theorem wellFormed_joined {ts us : List (Token Kind)} (ht : WellFormed ts) (hu : WellFormed us) :
    WellFormed (joined ts us) := by
  refine ⟨recognized_joined ht.1 hu.1, ?_⟩
  rw [balanced_iff_closes, closes_joined_iff]
  exact ((balanced_iff_closes _).mp ht.2).append ((balanced_iff_closes _).mp hu.2)

theorem placed_glue {p : Position} {t : Token Kind} {us : List (Token Kind)}
    (h : Placed p (t :: us)) : Placed p (glue t us) := by
  cases us with
  | nil => exact h
  | cons u us =>
    by_cases hcontent : t.kind = .content ∧ u.kind = .content
    · obtain ⟨hline, hcolumn, -, -, hrest⟩ := h
      rw [glue_of_content hcontent.1 hcontent.2, placed_cons_iff]
      refine ⟨hline, hcolumn, ?_⟩
      show Placed (p.after (encode (t.text ++ u.text))) us
      rw [Utf8.encode_append, Position.after_append]
      exact hrest
    · rw [glue_of_not_content hcontent]
      exact h

theorem placed_joined {p : Position} {ts us : List (Token Kind)} (h : Placed p (ts ++ us)) :
    Placed p (joined ts us) := by
  induction ts using joined.induct generalizing p with
  | case1 => exact h
  | case2 t => exact placed_glue h
  | case3 t t' ts ih => exact ⟨h.1, h.2.1, ih h.2.2⟩

/-! ## lexemes -/

theorem Paired.append {xs ys : List UInt8} (hx : Paired xs) (hy : Paired ys) :
    Paired (xs ++ ys) := by
  induction hx with
  | nil => exact hy
  | pair _ ih => exact .pair ih
  | byte hb _ ih => exact .byte hb ih

/-- More may come behind what stands behind a lexeme. -/
theorem Lexeme.append {kind : Kind} {xs rest : List UInt8} (h : Lexeme kind xs rest)
    (hrest : rest ≠ []) (bs : List UInt8) : Lexeme kind xs (rest ++ bs) := by
  have hhead : (rest ++ bs).head? = rest.head? := by
    obtain ⟨b, tail, rfl⟩ := List.exists_cons_of_ne_nil hrest
    rfl
  cases h with
  | content hne hp hr =>
    rcases hr with hnil | ⟨b, tail, hb, rfl⟩
    · exact absurd hnil hrest
    · exact .content hne hp (Or.inr ⟨b, tail ++ bs, hb, rfl⟩)
  | placeholderKey hn hr => exact .placeholderKey hn (hhead ▸ hr)
  | openKey hn => exact .openKey hn
  | closeKey => exact .closeKey
  | dangling _ => exact absurd rfl hrest
  | lone h1 h2 => exact .lone h1 h2
  | bareSigil hr => exact .bareSigil (hhead ▸ hr)
  | brokenKey hkey hclose hback hxs hr => exact .brokenKey hkey hclose hback hxs (hhead ▸ hr)

theorem Lexeme.exists_sigil {kind : Kind} {xs rest : List UInt8} (h : Lexeme kind xs rest)
    (hc : kind ≠ .content) (hu : kind ≠ .unrecognized) : ∃ ys, xs = 0x5C :: 0x40 :: ys := by
  cases h with
  | content _ _ _ => exact absurd rfl hc
  | placeholderKey _ _ => exact ⟨_, rfl⟩
  | openKey _ => exact ⟨_, rfl⟩
  | closeKey => exact ⟨_, rfl⟩
  | _ => exact absurd rfl hu

/-- **The seam.**  A last token stays a token before those of another text, if the two are not both
content and the text does not go on with a name. -/
theorem Lexeme.before {kind kind' : Kind} {xs ys rest : List UInt8} (h : Lexeme kind xs [])
    (h' : Lexeme kind' ys rest) (hk : kind ≠ .unrecognized) (hk' : kind' ≠ .unrecognized)
    (hcontent : ¬ (kind = .content ∧ kind' = .content))
    (hname : kind = .placeholderKey → ∀ b ∈ (ys ++ rest).head?, isKeyByte b = false ∧ b ≠ 0x7B) :
    Lexeme kind xs (ys ++ rest) := by
  cases h with
  | content hne hp _ =>
    -- what is no content begins with a sigil, at which content ends
    obtain ⟨ys, rfl⟩ := h'.exists_sigil (fun hc => hcontent ⟨rfl, hc⟩) hk'
    exact .content hne hp (Or.inr ⟨0x40, ys ++ rest, by decide, rfl⟩)
  | placeholderKey hn _ => exact .placeholderKey hn (hname rfl)
  | openKey hn => exact .openKey hn
  | closeKey => exact .closeKey
  | _ => exact absurd rfl hk

theorem Lexeme.content_append {xs ys rest : List UInt8} (hx : Lexeme .content xs [])
    (hy : Lexeme .content ys rest) : Lexeme .content (xs ++ ys) rest := by
  obtain ⟨hne, hp, -⟩ := lexeme_content_iff.mp hx
  obtain ⟨-, hq, hr⟩ := lexeme_content_iff.mp hy
  exact .content (List.append_ne_nil_of_left_ne_nil hne ys) (hp.append hq) hr

theorem Lexemes.exists_rest {kind : Kind} {xs bs : List UInt8} {ps : List (Kind × List UInt8)}
    (h : Lexemes bs ((kind, xs) :: ps)) :
    ∃ rest, bs = xs ++ rest ∧ Lexeme kind xs rest ∧ Lexemes rest ps := by
  cases h with
  | cons hx hps => exact ⟨_, rfl, hx, hps⟩

/-- kinds and bytes of tokens -/
def lexemesOf (ts : List (Token Kind)) : List (Kind × List UInt8) :=
  ts.map fun t => (t.kind, encode t.text)

theorem lexemes_glue {bs : List UInt8} {t : Token Kind} {us : List (Token Kind)}
    (ht : Lexeme t.kind (encode t.text) []) (hu : Lexemes bs (lexemesOf us))
    (hrec : ∀ v ∈ t :: us, v.kind ≠ .unrecognized)
    (hname : t.kind = .placeholderKey → ∀ b ∈ bs.head?, isKeyByte b = false ∧ b ≠ 0x7B) :
    Lexemes (encode t.text ++ bs) (lexemesOf (glue t us)) := by
  obtain ⟨hrec₀, hrec⟩ := List.forall_mem_cons.mp hrec
  cases us with
  | nil =>
    obtain rfl : [] = bs := hu.flatMap_eq
    exact .cons ht .nil
  | cons u us =>
    obtain ⟨rest, rfl, hx, hrest⟩ := hu.exists_rest
    have hrec₁ := hrec u List.mem_cons_self
    by_cases h : t.kind = .content ∧ u.kind = .content
    · obtain ⟨hkind, hkind'⟩ := h
      rw [hkind] at ht
      rw [hkind'] at hx
      have hboth := ht.content_append hx
      rw [glue_of_content hkind hkind', ← List.append_assoc, ← Utf8.encode_append]
      rw [← Utf8.encode_append, ← hkind] at hboth
      exact .cons hboth hrest
    · rw [glue_of_not_content h]
      exact .cons (ht.before hx hrec₀ hrec₁ h hname) (.cons hx hrest)

/-- **The lexemes of two texts**, one behind the other. -/
theorem lexemes_joined {as bs : List UInt8} {ts us : List (Token Kind)}
    (ht : Lexemes as (lexemesOf ts)) (hu : Lexemes bs (lexemesOf us))
    (htrec : ∀ t ∈ ts, t.kind ≠ .unrecognized) (hurec : ∀ u ∈ us, u.kind ≠ .unrecognized)
    (hname : ts.getLast?.map Token.kind = some .placeholderKey →
      ∀ b ∈ bs.head?, isKeyByte b = false ∧ b ≠ 0x7B) :
    Lexemes (as ++ bs) (lexemesOf (joined ts us)) := by
  induction ts using joined.induct generalizing as with
  | case1 =>
    obtain rfl : [] = as := ht.flatMap_eq
    exact hu
  | case2 t =>
    obtain ⟨rest, rfl, hx, hrest⟩ := ht.exists_rest
    obtain rfl : [] = rest := hrest.flatMap_eq
    rw [List.append_nil]
    refine lexemes_glue hx hu ?_ fun hk => hname (congrArg some hk)
    exact List.forall_mem_cons.mpr ⟨htrec t List.mem_cons_self, hurec⟩
  | case3 t t' ts ih =>
    obtain ⟨rest, rfl, hx, hrest⟩ := ht.exists_rest
    obtain ⟨rest', rfl, hx', -⟩ := hrest.exists_rest
    have hne : encode t'.text ++ rest' ≠ [] := List.append_ne_nil_of_left_ne_nil hx'.ne_nil rest'
    rw [List.append_assoc]
    refine .cons (hx.append hne bs) (ih hrest (List.forall_mem_cons.mp htrec).2 ?_)
    rw [List.getLast?_cons_cons] at hname
    exact hname

/-! ## tokens of a text that begins elsewhere -/

theorem lexemesOf_shift (p : Position) (ts : List (Token Kind)) :
    lexemesOf (ts.map (Token.shift p)) = lexemesOf ts :=
  List.map_map

theorem wellFormed_shift (p : Position) {ts : List (Token Kind)} (h : WellFormed ts) :
    WellFormed (ts.map (Token.shift p)) := by
  have hkinds : (ts.map (Token.shift p)).map Token.kind = ts.map Token.kind := List.map_map
  refine ⟨?_, hkinds ▸ h.2⟩
  intro t ht
  obtain ⟨u, hu, rfl⟩ := List.mem_map.mp ht
  exact h.1 u hu

theorem placed_joined_shift {a b : String} {ts us : List (Token Kind)} {last last' : Token Kind}
    (htok : tokenize a = ts ++ [last]) (htok' : tokenize b = us ++ [last']) :
    Placed .start (joined ts (us.map (Token.shift (.after .start (encode a))))) := by
  have hbytes := (lexemes_of_tokenize htok).flatMap_eq
  rw [List.flatMap_map] at hbytes
  have hshift := (placed_of_tokenize htok').1.shift (.after .start (encode a)) (Nat.le_refl 1)
  rw [Position.shift_start (Position.one_le_line_after _) (Position.one_le_column_after _)]
    at hshift
  refine placed_joined (placed_append_iff.mpr ⟨(placed_of_tokenize htok).1, ?_⟩)
  rw [hbytes]
  exact hshift

/-- **One accepted template behind another is accepted**, unless a name at the end of the former goes
on in the latter.  Its tokens are those of the former and behind them those of the latter, which
begin where the former ends; content on both sides of the seam is one token. -/
theorem parse_append {a b : String} {ts us : List (Token Kind)} (ha : parse a = .ok ts)
    (hb : parse b = .ok us)
    (hname : ts.getLast?.map Token.kind = some .placeholderKey →
      ∀ c ∈ (encode b).head?, isKeyByte c = false ∧ c ≠ 0x7B) :
    let p := Position.start.after (encode a)
    (∃ last, tokenize a = ts ++ [last] ∧ last.line = p.line ∧ last.column = p.column) ∧
      parse (a ++ b) = .ok (joined ts (us.map (Token.shift p))) := by
  intro p
  obtain ⟨ts', last, htok, -⟩ := exists_tokenize a
  obtain ⟨us', last', htok', -⟩ := exists_tokenize b
  obtain ⟨ht, rfl⟩ := (parse_eq_ok_iff_wellFormed htok ts).mp ha
  obtain ⟨hu, rfl⟩ := (parse_eq_ok_iff_wellFormed htok' us).mp hb
  obtain ⟨-, hline, hcolumn, -⟩ := placed_of_tokenize htok
  refine ⟨⟨last, htok, hline, hcolumn⟩, ?_⟩
  have hmoved := wellFormed_shift p hu
  have hlexmoved : Lexemes (encode b) (lexemesOf (us.map (Token.shift p))) := by
    rw [lexemesOf_shift]
    exact lexemes_of_tokenize htok'
  have hlex : Lexemes (encode (a ++ b)) (lexemesOf (joined ts (us.map (Token.shift p)))) := by
    rw [Utf8.encode_append]
    exact lexemes_joined (lexemes_of_tokenize htok) hlexmoved ht.1 hmoved.1 hname
  obtain ⟨last'', htok''⟩ := tokenize_of_placed (placed_joined_shift htok htok') hlex
  exact parse_of_wellFormed htok'' (wellFormed_joined ht hmoved)

/-- A name at the end of the former, on its second line. -/
theorem parse_append_name :
    let a := "x\n\\@k"
    let b := " é\\@t\x7b\\@\x7d\nz"
    let ts : List (Token Kind) := [⟨.content, "x\n", 1, 1⟩, ⟨.placeholderKey, "\\@k", 2, 1⟩]
    let us : List (Token Kind) := [⟨.content, " é", 1, 1⟩, ⟨.openKey, "\\@t\x7b", 1, 4⟩,
      ⟨.closeKey, "\\@\x7d", 1, 8⟩, ⟨.content, "\nz", 1, 11⟩]
    let p : Position := ⟨5, 2, 4⟩
    parse a = .ok ts ∧ parse b = .ok us ∧ ts.getLast?.map Token.kind = some .placeholderKey ∧
      (∀ c ∈ (encode b).head?, isKeyByte c = false ∧ c ≠ 0x7B) ∧ .after .start (encode a) = p ∧
      parse (a ++ b) = .ok (joined ts (us.map (Token.shift p))) ∧
      joined ts (us.map (Token.shift p)) = ts ++ [⟨.content, " é", 2, 4⟩,
        ⟨.openKey, "\\@t\x7b", 2, 7⟩, ⟨.closeKey, "\\@\x7d", 2, 11⟩, ⟨.content, "\nz", 2, 14⟩] := by
  intro a b ts us p
  have ha : parse "x\n\\@k" = .ok ts := by rfl
  have hb : parse " é\\@t\x7b\\@\x7d\nz" = .ok us := by rfl
  have hhead : (encode " é\\@t\x7b\\@\x7d\nz").head? = some 0x20 := by rfl
  have hname : ∀ c ∈ (encode b).head?, isKeyByte c = false ∧ c ≠ 0x7B := by
    intro c hc
    obtain rfl : 0x20 = c := Option.some.inj (hhead.symm.trans hc)
    decide
  have hp : .after .start (encode "x\n\\@k") = p := by rfl
  obtain ⟨-, hparse⟩ := parse_append ha hb fun _ => hname
  exact ⟨ha, hb, rfl, hname, hp, hp ▸ hparse, by decide⟩

-- content on both sides of the seam
example : parse ("\\@k\nx\\\\" ++ "é\\@l\nz") =
    .ok [⟨.placeholderKey, "\\@k", 1, 1⟩, ⟨.content, "\nx\\\\é", 1, 4⟩,
      ⟨.placeholderKey, "\\@l", 2, 6⟩, ⟨.content, "\nz", 2, 9⟩] := by rfl

end TemplateCheck.Template
