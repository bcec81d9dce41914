import TemplateCheck.Proofs.Template.RoundTrip
import TemplateCheck.Template.Outline

/-!
# The outline of a forest

An outline is made token by token.  A token adds its key, if it has one and the key is new, and its
kind says whether it leads one level down or back.

* `placeholders_ofTokens`, `tags_ofTokens`   the keys of some tokens, each where it comes first
* `deepen`                what a kind does to the deepest level and to the present one
* `foldl_deepen_flatten`  a forest goes down by its height, and comes back
* `outline_render`        so the outline of a text is the one of its forest
-/

namespace TemplateCheck.Template

namespace Outline

/-! ## keys -/

theorem addNew_eraseDups (xs : List String) (x : String) :
    addNew xs.eraseDups x = (xs ++ [x]).eraseDups := by
  rw [List.eraseDups_append, addNew]
  by_cases h : x ∈ xs
  · have hnone : [x].removeAll xs = [] := by simp [List.removeAll, h]
    rw [if_pos (List.mem_eraseDups.mpr h), hnone, List.eraseDups_nil, List.append_nil]
  · have hone : [x].removeAll xs = [x] := by simp [List.removeAll, h]
    rw [if_neg (mt List.mem_eraseDups.mp h), hone]
    rfl

theorem foldl_addNew (xs ys : List String) :
    xs.foldl addNew ys.eraseDups = (ys ++ xs).eraseDups := by
  induction xs generalizing ys with
  | nil => rw [List.foldl_nil, List.append_nil]
  | cons x xs ih =>
    rw [List.foldl_cons, addNew_eraseDups, ih, List.append_assoc]
    rfl

section
variable (found : Progress → List String) {key? : Token Kind → Option String}
  (h : ∀ p t, found (p.add t) = addKey (found p) (key? t))
include h

theorem found_foldl (ts : List (Token Kind)) (p : Progress) :
    found (ts.foldl Progress.add p) = (ts.filterMap key?).foldl addNew (found p) := by
  induction ts generalizing p with
  | nil => rfl
  | cons t ts ih =>
    rw [List.foldl_cons, ih, h, List.filterMap_cons]
    cases key? t <;> rfl

theorem found_eq_eraseDups (hnil : found {} = []) (ts : List (Token Kind)) :
    found (ts.foldl Progress.add {}) = (ts.filterMap key?).eraseDups := by
  rw [found_foldl found h, hnil]
  exact foldl_addNew _ []

end

theorem placeholders_add (p : Progress) (t : Token Kind) :
    (p.add t).outline.placeholders = addKey p.outline.placeholders (placeholderKey? t) := by
  obtain ⟨kind, text, line, column⟩ := t
  cases kind <;> rfl

theorem tags_add (p : Progress) (t : Token Kind) :
    (p.add t).outline.tags = addKey p.outline.tags (openKey? t) := by
  obtain ⟨kind, text, line, column⟩ := t
  cases kind <;> rfl

theorem placeholders_ofTokens (ts : List (Token Kind)) :
    (ofTokens ts).placeholders = (ts.filterMap placeholderKey?).eraseDups :=
  found_eq_eraseDups (fun p => p.outline.placeholders) placeholders_add rfl ts

theorem tags_ofTokens (ts : List (Token Kind)) :
    (ofTokens ts).tags = (ts.filterMap openKey?).eraseDups :=
  found_eq_eraseDups (fun p => p.outline.tags) tags_add rfl ts

/-! ## levels -/

/-- The deepest level and the present one, after a token of this kind. -/
def deepen : Nat × Nat → Kind → Nat × Nat
  | (deepest, depth), .openKey => (max deepest (depth + 1), depth + 1)
  | (deepest, depth), .closeKey => (deepest, depth - 1)
  | levels, _ => levels

theorem levels_add (p : Progress) (t : Token Kind) :
    ((p.add t).outline.maxDepth, (p.add t).depth) =
      deepen (p.outline.maxDepth, p.depth) t.kind := by
  obtain ⟨kind, text, line, column⟩ := t
  cases kind <;> rfl

theorem levels_foldl (ts : List (Token Kind)) (p : Progress) :
    ((ts.foldl Progress.add p).outline.maxDepth, (ts.foldl Progress.add p).depth) =
      (ts.map Token.kind).foldl deepen (p.outline.maxDepth, p.depth) := by
  induction ts generalizing p with
  | nil => rfl
  | cons t ts ih =>
    rw [List.foldl_cons, ih, levels_add]
    rfl

theorem maxDepth_ofTokens (ts : List (Token Kind)) :
    (ofTokens ts).maxDepth = ((ts.map Token.kind).foldl deepen (0, 0)).1 :=
  congrArg Prod.fst (levels_foldl ts {})

/-- **A forest goes down by its height, and comes back.** -/
theorem foldl_deepen_flatten (f : Forest) {deepest depth : Nat} (h : depth ≤ deepest) :
    (f.flatten.map Prod.fst).foldl deepen (deepest, depth) =
      (max deepest (depth + f.height), depth) := by
  induction f generalizing deepest depth with
  | nil =>
    rw [Forest.height, Nat.add_zero, Nat.max_eq_left h]
    rfl
  | content text rest ih => exact ih h
  | placeholder key rest ih => exact ih h
  | tag key children rest ihc ihr =>
    have hopen : depth + 1 ≤ max deepest (depth + 1) := Nat.le_max_right _ _
    -- the level to which the children went down, and from which the rest goes on
    have hback : depth ≤ max (max deepest (depth + 1)) (depth + 1 + children.height) := by omega
    have hheight : max (max (max deepest (depth + 1)) (depth + 1 + children.height))
        (depth + rest.height) = max deepest (depth + max (children.height + 1) rest.height) := by
      omega
    rw [Forest.flatten, List.map_cons, List.foldl_cons, List.map_append, List.foldl_append]
    show ((rest.flatten.map Prod.fst)).foldl deepen (deepen (List.foldl deepen
      (max deepest (depth + 1), depth + 1) (children.flatten.map Prod.fst)) .closeKey) = _
    rw [ihc hopen]
    show (rest.flatten.map Prod.fst).foldl deepen
      (max (max deepest (depth + 1)) (depth + 1 + children.height), depth) = _
    rw [ihr hback, hheight]
    rfl

end Outline

/-! ## the keys of a forest -/

/-- A token of this kind and text, in no particular place. -/
def bare (q : Kind × String) : Token Kind := ⟨q.1, q.2, 1, 1⟩

theorem placeholderKey?_bare (key : String) :
    placeholderKey? (bare (.placeholderKey, sigil ++ key)) = some key := by
  show (stripSigil? (sigil ++ key).toList).map String.ofList = some key
  rw [String.toList_append, stripSigil?_append, Option.map_some, String.ofList_toList]

theorem openKey?_bare (key : String) :
    openKey? (bare (.openKey, sigil ++ key ++ "\x7b")) = some key := by
  show ((stripSigil? (sigil ++ key ++ "\x7b").toList).bind stripBrace?).map String.ofList = some key
  rw [String.append_assoc, String.toList_append, stripSigil?_append, Option.bind_some,
    String.toList_append]
  show (stripBrace? (key.toList ++ ['{'])).map String.ofList = some key
  rw [stripBrace?_append, Option.map_some, String.ofList_toList]

/-- where a token stands does not matter to its key -/
theorem filterMap_eq_of_map {key? : Token Kind → Option String}
    (h : ∀ t : Token Kind, key? t = key? (bare (t.kind, t.text))) {ts : List (Token Kind)}
    {qs : List (Kind × String)} (hmap : ts.map (fun t => (t.kind, t.text)) = qs) :
    ts.filterMap key? = qs.filterMap fun q => key? (bare q) := by
  rw [← hmap, List.filterMap_map]
  exact congrArg (List.filterMap · ts) (funext h)

theorem filterMap_placeholderKey?_flatten (f : Forest) :
    f.flatten.filterMap (fun q => placeholderKey? (bare q)) = f.placeholders := by
  induction f with
  | nil => rfl
  | content text rest ih => exact ih
  | placeholder key rest ih =>
    rw [Forest.flatten, List.filterMap_cons, placeholderKey?_bare, ih]
    rfl
  | tag key children rest ihc ihr =>
    rw [Forest.flatten, List.filterMap_cons]
    show (children.flatten ++ _ :: rest.flatten).filterMap _ = _
    rw [List.filterMap_append, List.filterMap_cons, ihc]
    show children.placeholders ++ rest.flatten.filterMap _ = _
    rw [ihr]
    rfl

theorem filterMap_openKey?_flatten (f : Forest) :
    f.flatten.filterMap (fun q => openKey? (bare q)) = f.tags := by
  induction f with
  | nil => rfl
  | content text rest ih => exact ih
  | placeholder key rest ih => exact ih
  | tag key children rest ihc ihr =>
    rw [Forest.flatten, List.filterMap_cons, openKey?_bare]
    show key :: (children.flatten ++ _ :: rest.flatten).filterMap _ = _
    rw [List.filterMap_append, List.filterMap_cons, ihc]
    show key :: (children.tags ++ rest.flatten.filterMap _) = _
    rw [ihr]
    rfl

/-! ## outlines -/

/-- tokens that are those of a forest have its outline -/
theorem ofTokens_of_map_eq_flatten {f : Forest} {ts : List (Token Kind)}
    (h : ts.map (fun t => (t.kind, t.text)) = f.flatten) :
    Outline.ofTokens ts = ⟨f.placeholders.eraseDups, f.tags.eraseDups, f.height⟩ := by
  have hplaceholders : (Outline.ofTokens ts).placeholders = f.placeholders.eraseDups := by
    rw [Outline.placeholders_ofTokens, filterMap_eq_of_map (fun _ => rfl) h,
      filterMap_placeholderKey?_flatten]
  have htags : (Outline.ofTokens ts).tags = f.tags.eraseDups := by
    rw [Outline.tags_ofTokens, filterMap_eq_of_map (fun _ => rfl) h, filterMap_openKey?_flatten]
  have hkinds : ts.map Token.kind = f.flatten.map Prod.fst := by
    rw [← h, List.map_map]
    rfl
  have hdepth : (Outline.ofTokens ts).maxDepth = f.height := by
    rw [Outline.maxDepth_ofTokens, hkinds, Outline.foldl_deepen_flatten f (Nat.le_refl 0),
      Nat.zero_add, Nat.zero_max]
  rw [← hplaceholders, ← htags, ← hdepth]

/-- **The outline of what is written from a forest.**  The text is accepted, and its outline has the
names of the placeholders and of the tags in the order of the text, each where it comes first, and
the height of the forest. -/
theorem outline_render (f : Forest) (hf : f.Proper) :
    (parse f.render).map Outline.ofTokens =
      .ok ⟨f.placeholders.eraseDups, f.tags.eraseDups, f.height⟩ := by
  obtain ⟨ts, last, htok, -⟩ := exists_tokenize f.render
  have hmap := hf.map_tokens htok
  rw [parse_of_wellFormed htok (wellFormed_of_map_eq_flatten hmap)]
  exact congrArg Except.ok (ofTokens_of_map_eq_flatten hmap)

/-- Keys that come again, one of them as the name of a placeholder and of a tag, and tags side by
side and in one another. -/
theorem outline_render_again :
    let f : Forest := .placeholder "a" (.content " " (.tag "b" (.placeholder "c" (.tag "a"
      (.placeholder "c" .nil) .nil)) (.placeholder "a" (.tag "b" .nil .nil))))
    f.Proper ∧ f.render = "\\@a \\@b\x7b\\@c\\@a\x7b\\@c\\@\x7d\\@\x7d\\@a\\@b\x7b\\@\x7d" ∧
      (parse f.render).map Outline.ofTokens = .ok ⟨["a", "c"], ["b", "a"], 2⟩ := by
  intro f
  have hf : f.Proper := by decide
  exact ⟨hf, by decide, outline_render f hf⟩

end TemplateCheck.Template
