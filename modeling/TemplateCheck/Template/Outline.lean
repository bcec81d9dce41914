import TemplateCheck.Template.Key

/-!
# Outlines

The keys that a token sequence uses, each once and in the order of its first use, and how deep its
tags are nested.  The sequence need not be balanced: a closing tag without an opening one is passed
over.

* `Outline`            the keys and the depth
* `Outline.Progress`   an outline in the making, with the number of tags that are open
* `Outline.ofTokens`   the outline of a token sequence
-/

namespace TemplateCheck.Template

structure Outline where
  /-- names of placeholders -/
  placeholders : List String := []
  /-- names of tags -/
  tags : List String := []
  /-- the deepest nesting of tags -/
  maxDepth : Nat := 0
  deriving DecidableEq, Repr

namespace Outline

/-- the list with `x` at its end, unless it is already there -/
def addNew (xs : List String) (x : String) : List String :=
  if x ∈ xs then xs else xs ++ [x]

/-- the list with a key, if there is one -/
def addKey (xs : List String) : Option String → List String
  | none => xs
  | some x => addNew xs x

structure Progress where
  /-- the outline of the tokens so far -/
  outline : Outline := {}
  /-- tags that are open -/
  depth : Nat := 0
  deriving DecidableEq, Repr

/-- the outline with one more token -/
def Progress.add (p : Progress) (t : Token Kind) : Progress :=
  match t.kind with
  | .placeholderKey =>
    { p with
      outline.placeholders := addKey p.outline.placeholders (placeholderKey? t) }
  | .openKey =>
    { outline :=
        { p.outline with
          tags := addKey p.outline.tags (openKey? t)
          maxDepth := max p.outline.maxDepth (p.depth + 1) }
      depth := p.depth + 1 }
  | .closeKey => { p with depth := p.depth - 1 }
  | _ => p

def ofTokens (tokens : List (Token Kind)) : Outline :=
  (tokens.foldl Progress.add {}).outline

end Outline

end TemplateCheck.Template
