import Deduction.Arena

/-!
# Proof trees

The nodes of a proof tree live in an arena and refer to their parent and their
children by id; node 0 is the root. A leaf is closed by a rule, and an inner
node is closed as soon as all its children are.

A tree may also come from outside, with references that lead nowhere or in a
circle. Following such a reference gives `none`; no path through a tree is
longer than its number of nodes, which bounds every walk.
-/

namespace Deduction

/-- A node of a proof tree. -/
structure Node (α : Type) where
  /-- The node above, none for the root. -/
  parent : Option Nat
  /-- What the node says. -/
  label : α
  /-- Whether everything below the node is closed. -/
  isClosed : Bool
  /-- The nodes below, from left to right. -/
  children : List Nat
  deriving DecidableEq, Repr, Inhabited

/-- Whether a node has no children. -/
def Node.isLeaf {α : Type} (n : Node α) : Bool := n.children.isEmpty

/-- A proof tree. -/
abbrev Tree (α : Type) := Arena (Node α)

namespace Tree

variable {α : Type}

/-- The number of the root. -/
def root : Nat := 0

/-- The tree with one node. -/
def single (label : α) : Tree α := ⟨[⟨none, label, false, []⟩]⟩

/-- Add a node below another one, which lists its id behind the children it has. -/
def grow (t : Tree α) (parent : Nat) (label : α) : Tree α :=
  Arena.modify (Arena.push t ⟨some parent, label, false, []⟩) parent fun n =>
    { n with children := n.children ++ [Arena.nextId t] }

/-- The nodes met on the way up, nearest first, and whether the way ends at a node without
parent. -/
structure Ascent where
  /-- The numbers of the nodes. -/
  ids : List Nat
  /-- Whether the way ends at a node without parent. -/
  complete : Bool
  deriving DecidableEq, Repr

/-- The way up from a reference, over at most the given number of nodes. -/
def ascend (t : Tree α) : Nat → Option Nat → Ascent
  | _, none => ⟨[], true⟩
  | 0, some _ => ⟨[], false⟩
  | fuel + 1, some i =>
    match Arena.get? t i with
    | none => ⟨[], false⟩
    | some n =>
      let above := ascend t fuel n.parent
      ⟨i :: above.ids, above.complete⟩

/-- The way up from a node, without the node itself. -/
def ancestors (t : Tree α) (i : Nat) : Ascent :=
  match Arena.get? t i with
  | none => ⟨[], false⟩
  | some n => ascend t (Arena.size t) n.parent

/-- Whether some node on the way up has a property; an incomplete way is an answer only if such
a node is met before it breaks off. -/
def Ascent.any (a : Ascent) (p : Nat → Bool) : Option Bool :=
  if a.ids.any p then some true else if a.complete then some false else none

/-- Whether all of the given nodes are closed, looked at from left to right. -/
def allClosed (t : Tree α) : List Nat → Option Bool
  | [] => some true
  | i :: is =>
    match Arena.get? t i with
    | none => none
    | some n => if n.isClosed then allClosed t is else some false

/-- Mark a node as closed. -/
def mark (t : Tree α) (i : Nat) : Tree α := Arena.modify t i fun n => { n with isClosed := true }

/-- Close the nodes on the way up from a reference, as far as all their children are closed. -/
def closeUp (t : Tree α) : Nat → Option Nat → Option (Tree α)
  | _, none => some t
  | 0, some _ => none
  | fuel + 1, some i => do
    let n ← Arena.get? t i
    if ← allClosed t n.children then closeUp (mark t i) fuel n.parent else return t

/-- Close a leaf, and every node above it whose children are then all closed. -/
def closeLeaf (t : Tree α) (i : Nat) : Option (Tree α) := do
  let n ← Arena.get? t i
  closeUp (mark t i) (Arena.size t) n.parent

/-- The open leaves at or below a node, from left to right, over paths of at most the given
length. -/
def openLeavesWithin (t : Tree α) : Nat → Nat → Option (List Nat)
  | 0, _ => none
  | fuel + 1, i => do
    let n ← Arena.get? t i
    if n.isLeaf then return if n.isClosed then [] else [i]
    else
      let below ← n.children.mapM (openLeavesWithin t fuel)
      return below.flatten

/-- The open leaves at or below a node, from left to right. -/
def openLeaves (t : Tree α) (i : Nat) : Option (List Nat) :=
  openLeavesWithin t (Arena.size t) i

/-- Change what every node says. -/
def mapLabels (t : Tree α) (f : α → α) : Tree α :=
  Arena.map t fun n => { n with label := f n.label }

end Tree

end Deduction
