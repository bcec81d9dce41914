/-!
# Stacks

A last-in, first-out store.  `items` lists it from the top down, and every operation is described
by what it does to that list.
-/

namespace TemplateCheck

/-- A stack of values. -/
structure Stack (α : Type) where
  /-- the values, the top first -/
  items : List α
  deriving BEq, ReflBEq, LawfulBEq, Repr

namespace Stack

variable {α : Type}

/-- the stack without values -/
def empty : Stack α := ⟨[]⟩

/-- the stack with the values pushed in the given order, so that the last one is on top -/
def ofList (xs : List α) : Stack α := ⟨xs.reverse⟩

def push (s : Stack α) (x : α) : Stack α := ⟨x :: s.items⟩

/-- the top value and the stack below it -/
def pop? (s : Stack α) : Option (α × Stack α) :=
  match s.items with
  | [] => none
  | x :: rest => some (x, ⟨rest⟩)

def top? (s : Stack α) : Option α := s.items.head?

def size (s : Stack α) : Nat := s.items.length

def isEmpty (s : Stack α) : Bool := s.items.isEmpty

/-- What is left when the top is popped; nothing is left of nothing. -/
def dropTop (s : Stack α) : Stack α :=
  match s.pop? with
  | none => s
  | some (_, rest) => rest

/-- The values of `xs` pushed, the last one first, so that the first one ends up on top. -/
def pushAll (s : Stack α) (xs : List α) : Stack α :=
  xs.foldr (fun x s => s.push x) s

/-- The values of `xs` in place of the top: it is popped, and they are pushed. -/
def replaceTop (s : Stack α) (xs : List α) : Stack α := s.dropTop.pushAll xs

@[simp] theorem items_ofList (xs : List α) : (ofList xs).items = xs.reverse := rfl

@[simp] theorem items_push (s : Stack α) (x : α) : (s.push x).items = x :: s.items := rfl

@[simp] theorem items_dropTop (s : Stack α) : s.dropTop.items = s.items.tail := by
  obtain ⟨items⟩ := s
  cases items <;> rfl

@[simp] theorem items_pushAll (s : Stack α) (xs : List α) :
    (s.pushAll xs).items = xs ++ s.items := by
  induction xs with
  | nil => rfl
  | cons x xs ih =>
    show ((s.pushAll xs).push x).items = _
    rw [items_push, ih, List.cons_append]

@[simp] theorem items_replaceTop (s : Stack α) (xs : List α) :
    (s.replaceTop xs).items = xs ++ s.items.tail := by
  rw [replaceTop, items_pushAll, items_dropTop]

end Stack

end TemplateCheck
