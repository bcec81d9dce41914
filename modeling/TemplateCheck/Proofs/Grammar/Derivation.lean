import Mathlib.Logic.Relation
import TemplateCheck.Grammar

/-!
# Derivations

* `Rules K`           which right-hand sides a nonterminal has
* `Rules.Step`        one nonterminal of a list of symbols is replaced, wherever it stands
* `Rules.Derives`     any number of steps
* `Rules.Yields`      what the leftmost derivation of a word does, symbol by symbol
* `Rules.First`, `Rules.Nullable`, `Rules.Follow`   what derivations can begin with, end in, and put
                      behind a nonterminal
* `Grammar.rules`     the rules that the cells of a parse table stand for
* `Grammar.rulesOf`   the rules of the right-hand sides, where each has its nonterminal
* `Grammar.EndFree`   the end of the input is in no right-hand side
* `Grammar.Predicts`  the table has every entry that looking one token ahead asks for

Steps are taken in any order, but the order does not matter for what is derived in the end:
`Derives.yields` finds a leftmost derivation for every word.
-/

namespace TemplateCheck

variable {K : Type}

/-- Which right-hand sides a nonterminal has. -/
def Rules (K : Type) : Type :=
  Nat → List (Symbol K) → Prop

namespace Rules

/-- one nonterminal is replaced by one of its right-hand sides -/
inductive Step (R : Rules K) : List (Symbol K) → List (Symbol K) → Prop where
  | replace (u v : List (Symbol K)) {n : Nat} {rhs : List (Symbol K)} (rule : R n rhs) :
    Step R (u ++ .nonterminal n :: v) (u ++ (rhs ++ v))

def Derives (R : Rules K) : List (Symbol K) → List (Symbol K) → Prop :=
  Relation.ReflTransGen R.Step

/-- The symbols are replaced from the left until the word is there. -/
inductive Yields (R : Rules K) : List (Symbol K) → List K → Prop where
  | nil : Yields R [] []
  | terminal (k : K) {ss : List (Symbol K)} {w : List K} (rest : Yields R ss w) :
    Yields R (.terminal k :: ss) (k :: w)
  | nonterminal {n : Nat} {rhs ss : List (Symbol K)} {w : List K} (rule : R n rhs)
    (rest : Yields R (rhs ++ ss) w) : Yields R (.nonterminal n :: ss) w

def Nullable (R : Rules K) (ss : List (Symbol K)) : Prop :=
  R.Derives ss []

/-- the kinds that something derived from the symbols can begin with -/
def First (R : Rules K) (ss : List (Symbol K)) (k : K) : Prop :=
  ∃ rest, R.Derives ss (.terminal k :: rest)

/-- The kinds that can stand right behind a nonterminal, the end of the input being behind the start
symbol. -/
def Follow [TokenKind K] (R : Rules K) (start n : Nat) (k : K) : Prop :=
  ∃ u v, R.Derives [.nonterminal start, .terminal TokenKind.endOfInput]
    (u ++ .nonterminal n :: .terminal k :: v)

variable {R : Rules K}

/-! ## steps in a context -/

theorem Step.append_left {ss ss' : List (Symbol K)} (h : R.Step ss ss') (u : List (Symbol K)) :
    R.Step (u ++ ss) (u ++ ss') := by
  cases h with
  | replace u' v rule =>
    rw [← List.append_assoc u u', ← List.append_assoc u u']
    exact .replace (u ++ u') v rule

theorem Step.append_right {ss ss' : List (Symbol K)} (h : R.Step ss ss') (v : List (Symbol K)) :
    R.Step (ss ++ v) (ss' ++ v) := by
  cases h with
  | replace u v' rule =>
    rw [List.append_assoc, List.cons_append, List.append_assoc, List.append_assoc]
    exact .replace u (v' ++ v) rule

theorem Derives.append_left {ss ss' : List (Symbol K)} (h : R.Derives ss ss')
    (u : List (Symbol K)) : R.Derives (u ++ ss) (u ++ ss') := by
  induction h with
  | refl => exact .refl
  | tail _ hstep ih => exact .tail ih (hstep.append_left u)

theorem Derives.append_right {ss ss' : List (Symbol K)} (h : R.Derives ss ss')
    (v : List (Symbol K)) : R.Derives (ss ++ v) (ss' ++ v) := by
  induction h with
  | refl => exact .refl
  | tail _ hstep ih => exact .tail ih (hstep.append_right v)

/-- one more replacement behind what is derived -/
theorem Derives.replace {ss u v rhs : List (Symbol K)} {n : Nat}
    (h : R.Derives ss (u ++ .nonterminal n :: v)) (rule : R n rhs) :
    R.Derives ss (u ++ (rhs ++ v)) :=
  Relation.ReflTransGen.tail h (.replace u v rule)

/-- a terminal at the front stays there -/
theorem Derives.exists_of_terminal {k : K} {ss vs : List (Symbol K)}
    (h : R.Derives (.terminal k :: ss) vs) : ∃ ss', vs = .terminal k :: ss' ∧ R.Derives ss ss' := by
  induction h with
  | refl => exact ⟨ss, rfl, .refl⟩
  | @tail vs vs' _ hstep ih =>
    obtain ⟨ss', rfl, hd⟩ := ih
    generalize hall : Symbol.terminal k :: ss' = all at hstep
    cases hstep with
    | @replace u v n rhs rule =>
      cases u with
      | nil => cases hall
      | cons s u =>
        obtain ⟨rfl, rfl⟩ := List.cons.inj hall
        exact ⟨u ++ (rhs ++ v), rfl, hd.replace rule⟩

/-- nothing is derived from nothing -/
theorem Derives.eq_nil_of_nil {vs : List (Symbol K)} (h : R.Derives [] vs) : vs = [] := by
  induction h with
  | refl => rfl
  | tail _ hstep ih =>
    subst ih
    generalize hall : ([] : List (Symbol K)) = all at hstep
    cases hstep with
    | replace u v rule => cases u <;> cases hall

/-! ## leftmost derivations -/

theorem Yields.word (w : List K) : R.Yields (w.map .terminal) w := by
  induction w with
  | nil => exact .nil
  | cons k w ih => exact .terminal k ih

theorem Yields.append {ss vs : List (Symbol K)} {w x : List K} (h : R.Yields ss w)
    (h' : R.Yields vs x) : R.Yields (ss ++ vs) (w ++ x) := by
  induction h with
  | nil => exact h'
  | terminal k _ ih => exact .terminal k ih
  | nonterminal rule _ ih =>
    rw [List.append_assoc] at ih
    exact .nonterminal rule ih

theorem Yields.exists_append {ss vs : List (Symbol K)} {w : List K} (h : R.Yields (ss ++ vs) w) :
    ∃ w₁ w₂, w = w₁ ++ w₂ ∧ R.Yields ss w₁ ∧ R.Yields vs w₂ := by
  generalize hall : ss ++ vs = all at h
  induction h generalizing ss with
  | nil =>
    obtain ⟨rfl, rfl⟩ := List.append_eq_nil_iff.mp hall
    exact ⟨[], [], rfl, .nil, .nil⟩
  | @terminal k all w rest ih =>
    cases ss with
    | nil =>
      obtain rfl : vs = .terminal k :: all := hall
      exact ⟨[], k :: w, rfl, .nil, .terminal k rest⟩
    | cons s ss =>
      obtain ⟨rfl, htail⟩ := List.cons.inj hall
      obtain ⟨w₁, w₂, rfl, h₁, h₂⟩ := ih htail
      exact ⟨k :: w₁, w₂, rfl, .terminal k h₁, h₂⟩
  | @nonterminal n rhs all w rule rest ih =>
    cases ss with
    | nil =>
      obtain rfl : vs = .nonterminal n :: all := hall
      exact ⟨[], w, rfl, .nil, .nonterminal rule rest⟩
    | cons s ss =>
      obtain ⟨rfl, rfl⟩ := List.cons.inj hall
      obtain ⟨w₁, w₂, rfl, h₁, h₂⟩ := ih (List.append_assoc rhs ss vs)
      exact ⟨w₁, w₂, rfl, .nonterminal rule h₁, h₂⟩

/-- a word of what comes after a step is a word of what was before it -/
theorem Step.yields {ss ss' : List (Symbol K)} {w : List K} (h : R.Step ss ss')
    (hw : R.Yields ss' w) : R.Yields ss w := by
  cases h with
  | replace u v rule =>
    obtain ⟨w₁, w₂, rfl, h₁, h₂⟩ := hw.exists_append
    exact h₁.append (.nonterminal rule h₂)

theorem Derives.yields {ss : List (Symbol K)} {w : List K}
    (h : R.Derives ss (w.map .terminal)) : R.Yields ss w := by
  induction h using Relation.ReflTransGen.head_induction_on with
  | refl => exact .word w
  | head hstep _ ih => exact hstep.yields ih

theorem Yields.derives {ss : List (Symbol K)} {w : List K} (h : R.Yields ss w) :
    R.Derives ss (w.map .terminal) := by
  induction h with
  | nil => exact .refl
  | terminal k _ ih => exact ih.append_left [.terminal k]
  | nonterminal rule _ ih => exact .head (.replace [] _ rule) ih

end Rules

namespace Grammar

/-- The rules that the table stands for: a nonterminal has the right-hand sides whose numbers are in
its row. -/
def rules (g : Grammar K) : Rules K := fun n rhs =>
  ∃ row p, g.table[n]? = some row ∧ some p ∈ row ∧ g.productions[p]? = some rhs

/-- The rules of all right-hand sides, where `lhs` is the nonterminal of each. -/
def rulesOf (g : Grammar K) (lhs : Nat → Nat) : Rules K := fun n rhs =>
  ∃ p, lhs p = n ∧ g.productions[p]? = some rhs

def EndFree [TokenKind K] (g : Grammar K) : Prop :=
  ∀ rhs ∈ g.productions, .terminal TokenKind.endOfInput ∉ rhs

instance [DecidableEq K] [TokenKind K] (g : Grammar K) : Decidable g.EndFree :=
  inferInstanceAs (Decidable (∀ rhs ∈ g.productions, .terminal TokenKind.endOfInput ∉ rhs))

/-- For the kinds that a right-hand side can begin with, and if it can vanish for those that can
follow its nonterminal, the table names it. -/
def Predicts [TokenKind K] (g : Grammar K) (lhs : Nat → Nat) : Prop :=
  ∀ p rhs, g.productions[p]? = some rhs → ∀ k,
    (g.rulesOf lhs).First rhs k ∨
      (g.rulesOf lhs).Nullable rhs ∧ (g.rulesOf lhs).Follow g.start (lhs p) k →
    g.cell? (lhs p) (g.terminalClass k) = some p

theorem cell?_eq_some {g : Grammar K} {row column p : Nat} (h : g.cell? row column = some p) :
    ∃ cells, g.table[row]? = some cells ∧ some p ∈ cells := by
  unfold cell? at h
  split at h
  · cases h
  · next cells hrow =>
    split at h
    · cases h
    · next cell hcell =>
      subst h
      exact ⟨cells, hrow, List.mem_of_getElem? hcell⟩

theorem productionFor?_eq_some {g : Grammar K} {n : Nat} {k : K} {rhs : List (Symbol K)}
    (h : g.productionFor? n k = some rhs) :
    ∃ p, g.cell? n (g.terminalClass k) = some p ∧ g.productions[p]? = some rhs := by
  unfold productionFor? at h
  split at h
  · cases h
  · next p hcell => exact ⟨p, hcell, h⟩

theorem productionFor?_of_cell? {g : Grammar K} {n p : Nat} {k : K}
    (h : g.cell? n (g.terminalClass k) = some p) : g.productionFor? n k = g.productions[p]? := by
  simp only [productionFor?, h]

theorem rules_of_productionFor? {g : Grammar K} {n : Nat} {k : K} {rhs : List (Symbol K)}
    (h : g.productionFor? n k = some rhs) : g.rules n rhs := by
  obtain ⟨p, hcell, hp⟩ := productionFor?_eq_some h
  obtain ⟨row, hrow, hmem⟩ := cell?_eq_some hcell
  exact ⟨row, p, hrow, hmem, hp⟩

theorem mem_productions_of_productionFor? {g : Grammar K} {n : Nat} {k : K}
    {rhs : List (Symbol K)} (h : g.productionFor? n k = some rhs) : rhs ∈ g.productions := by
  obtain ⟨p, -, hp⟩ := productionFor?_eq_some h
  exact List.mem_of_getElem? hp

/-- a nonterminal that has a right-hand side has a row -/
theorem lt_length_of_productionFor? {g : Grammar K} {n : Nat} {k : K} {rhs : List (Symbol K)}
    (h : g.productionFor? n k = some rhs) : n < g.table.length := by
  obtain ⟨p, hcell, -⟩ := productionFor?_eq_some h
  obtain ⟨row, hrow, -⟩ := cell?_eq_some hcell
  exact (List.getElem?_eq_some_iff.mp hrow).1

end Grammar

end TemplateCheck
