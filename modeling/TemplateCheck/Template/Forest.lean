import TemplateCheck.Template.Kind

/-!
# Templates as forests

What a template means, apart from how it is written: a sequence of content, placeholders, and tags
around further such sequences.

* `Forest`             such a sequence
* `Forest.render`      its text
* `Forest.flatten`     its tokens, as kinds and texts
* `Forest.Proper`      the text can be read back: content is written as it has to be, and no two
                       neighbours run into each other
* `Forest.placeholders`, `Forest.tags`, `Forest.height`   the keys in it and how deep tags nest
-/

namespace TemplateCheck.Template

inductive Forest where
  | nil
  /-- text between keys, as it is written -/
  | content (text : String) (rest : Forest)
  | placeholder (key : String) (rest : Forest)
  | tag (key : String) (children rest : Forest)
  deriving DecidableEq, Repr

/-- The character may stand in the name of a key. -/
def isKeyChar (c : Char) : Bool :=
  c.isAlphanum || c = '.' || c = '-' || c = '_'

/-- The characters may be the name of a key: there is one, and each may stand there. -/
def isName (cs : List Char) : Bool :=
  !cs.isEmpty && cs.all isKeyChar

/-- Backslashes come in adjacent pairs only. -/
def isPaired : List Char → Bool
  | [] => true
  | '\\' :: '\\' :: cs => isPaired cs
  | c :: cs => c ≠ '\\' && isPaired cs

/-- The characters may be content: there is one, and backslashes come in pairs. -/
def isContent (cs : List Char) : Bool :=
  !cs.isEmpty && isPaired cs

namespace Forest

def render : Forest → String
  | nil => ""
  | content text rest => text ++ rest.render
  | placeholder key rest => sigil ++ key ++ rest.render
  | tag key children rest =>
    sigil ++ key ++ "\x7b" ++ children.render ++ (sigil ++ "\x7d") ++ rest.render

/-- The tokens of a forest, a tag around those of its children. -/
def flatten : Forest → List (Kind × String)
  | nil => []
  | content text rest => (.content, text) :: rest.flatten
  | placeholder key rest => (.placeholderKey, sigil ++ key) :: rest.flatten
  | tag key children rest =>
    (.openKey, sigil ++ key ++ "\x7b") ::
      (children.flatten ++ (.closeKey, sigil ++ "\x7d") :: rest.flatten)

/-- the first node is content -/
def startsWithContent : Forest → Bool
  | content _ _ => true
  | _ => false

/-- the first node is content that would lengthen a name before it, or open it as a tag -/
def extendsName : Forest → Bool
  | content text _ =>
    match text.toList with
    | c :: _ => isKeyChar c || c = '{'
    | [] => false
  | _ => false

/-- The text of the forest can be read back. -/
def Proper : Forest → Prop
  | nil => True
  | content text rest =>
    isContent text.toList = true ∧ rest.startsWithContent = false ∧ rest.Proper
  | placeholder key rest =>
    isName key.toList = true ∧ rest.extendsName = false ∧ rest.Proper
  | tag key children rest => isName key.toList = true ∧ children.Proper ∧ rest.Proper

instance decidableProper : (f : Forest) → Decidable f.Proper
  | nil => isTrue trivial
  | content text rest =>
    have := decidableProper rest
    inferInstanceAs (Decidable (isContent text.toList = true ∧ _))
  | placeholder key rest =>
    have := decidableProper rest
    inferInstanceAs (Decidable (isName key.toList = true ∧ _))
  | tag key children rest =>
    have := decidableProper children
    have := decidableProper rest
    inferInstanceAs (Decidable (isName key.toList = true ∧ _))

def placeholders : Forest → List String
  | nil => []
  | content _ rest => rest.placeholders
  | placeholder key rest => key :: rest.placeholders
  | tag _ children rest => children.placeholders ++ rest.placeholders

def tags : Forest → List String
  | nil => []
  | content _ rest => rest.tags
  | placeholder _ rest => rest.tags
  | tag key children rest => key :: (children.tags ++ rest.tags)

def height : Forest → Nat
  | nil => 0
  | content _ rest => rest.height
  | placeholder _ rest => rest.height
  | tag _ children rest => max (children.height + 1) rest.height

/-- the texts of the tokens, one after the other, are the text of the forest -/
theorem join_flatten (f : Forest) : String.join (f.flatten.map Prod.snd) = f.render := by
  induction f with
  | nil => rfl
  | content text rest ih => simp [flatten, render, ih]
  | placeholder key rest ih => simp [flatten, render, ih]
  | tag key children rest ihc ihr => simp [flatten, render, ihc, ihr, String.append_assoc]

end Forest

end TemplateCheck.Template
