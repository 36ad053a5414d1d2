/-!
# Arenas

An arena holds items that are numbered in the order in which they were added and
never removed. They are referred to by ids of 32 bits: the id of an item is its
number cut down to 32 bits, which is the number itself up to the first `2 ^ 32`
items. Later items are there but no id of their own names them.
-/

namespace Deduction

/-- Items numbered from zero. -/
structure Arena (α : Type) where
  /-- The items in the order of their numbers. -/
  items : List α
  deriving DecidableEq, Repr, Inhabited

namespace Arena

variable {α : Type}

/-- The arena without items. -/
def empty : Arena α := ⟨[]⟩

/-- The id of the item with a number. -/
def idOf (i : Nat) : Nat := i % UInt32.size

/-- The number of items, which is also the number of the next one. -/
def size (a : Arena α) : Nat := a.items.length

/-- The id of the next item. -/
def nextId (a : Arena α) : Nat := idOf a.size

/-- Whether there are no items. -/
def isEmpty (a : Arena α) : Bool := a.items.isEmpty

/-- Add an item; its id is the next one before. -/
def push (a : Arena α) (x : α) : Arena α := ⟨a.items ++ [x]⟩

/-- The item with a number. -/
def get? (a : Arena α) (i : Nat) : Option α := a.items[i]?

/-- Whether a number refers to an item. -/
def contains (a : Arena α) (i : Nat) : Bool := i < a.size

/-- The id that a number from outside gives, if it is one and names an item. -/
def id? (a : Arena α) (i : Nat) : Option Nat :=
  if i < UInt32.size ∧ a.contains i then some i else none

/-- The item that a number from outside names. -/
def named? (a : Arena α) (i : Nat) : Option α := (a.id? i).bind a.get?

/-- Change the item with a number, if there is one. -/
def modify (a : Arena α) (i : Nat) (f : α → α) : Arena α := ⟨a.items.modify i f⟩

/-- Change all items. -/
def map (a : Arena α) (f : α → α) : Arena α := ⟨a.items.map f⟩

/-- The id of the last item. -/
def lastId? (a : Arena α) : Option Nat := if a.isEmpty then none else some (idOf (a.size - 1))

/-- The ids below the next one. -/
def ids (a : Arena α) : List Nat := List.range a.nextId

end Arena

end Deduction
