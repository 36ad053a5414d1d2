import Deduction.Rules
import Deduction.Text.Quoted

/-!
# Clausal tableaux

A tableau is a tree whose nodes carry atoms. An open leaf is expanded by a
clause, one child for each atom, and closed against a node above it that carries
the complement. The tableau may be required to be regular, so that no branch
repeats an atom, and connected, so that each clause can close against the branch
it extends. With backtracking the moves are kept and the last one can be taken
back.
-/

namespace Deduction.Tableau

/-- A literal that can be connected to another one. -/
class Connectable (L : Type) extends Literal L where
  /-- Whether atoms of opposite sign over two literals can be closed, if need be after
  instantiation. -/
  connects : L → L → Bool

instance : Connectable String where
  connects x y := x = y

instance : Connectable Relation where
  connects r s := (unify r s).isOk

/-- A move in a clausal tableau. -/
inductive Move where
  /-- Expand a leaf by a clause. -/
  | expand (id clause : Nat)
  /-- Close a leaf against a node above it, under a substitution if one is given. -/
  | close (leaf partner : Nat) (assignment : Option (KeyMap String String))
  /-- Take the last move back. -/
  | undo
  deriving DecidableEq

/-- What a node says. -/
structure Label (L : Type) where
  /-- The atom, none at the root. -/
  atom : Option (Atom L)
  /-- The node against which a leaf is closed. -/
  closeRef : Option Nat
  deriving DecidableEq, Repr

/-- A clausal tableau. -/
structure State (L : Type) where
  /-- The clauses to expand by. -/
  clauses : ClauseSet L
  /-- How clauses must be connected. -/
  kind : Connectedness
  /-- Whether branches must not repeat an atom. -/
  regular : Bool
  /-- Whether moves are kept and can be taken back. -/
  backtracking : Bool
  /-- Whether a substitution must be given to close a leaf. -/
  manual : Bool
  /-- The tree. -/
  tree : Tree (Label L)
  /-- The moves made so far. -/
  history : List Move
  /-- The number of expansions. -/
  expansions : Nat
  deriving DecidableEq

/-- Refuse a move. -/
def refuse {α : Type} (cause : Refusal) : Outcome α := .error (.move (.tableau cause))

namespace State

variable {L : Type}

/-- The tableau before the first move. -/
def initial (clauses : ClauseSet L) (kind : Connectedness) (regular backtracking manual : Bool) :
    State L :=
  ⟨clauses, kind, regular, backtracking, manual, Tree.single ⟨none, none⟩, [], 0⟩

/-- The same proof before the first move. -/
def fresh (s : State L) : State L :=
  initial s.clauses s.kind s.regular s.backtracking s.manual

/-- The node with an id. -/
def node (s : State L) (id : Nat) : Outcome (Node (Label L)) :=
  .ofLookup (.tableau (.noNode id)) (s.tree.named? id)

/-- The clause with a number. -/
def clause (s : State L) (id : Nat) : Outcome (Clause L) :=
  .ofLookup (.tableau (.noClause id)) (s.clauses.get? id)

/-- Whether a node has an atom with a property. -/
def hasAtom (s : State L) (p : Atom L → Bool) (id : Nat) : Bool :=
  ((s.tree.get? id).bind fun n => n.label.atom).any p

/-- Whether an atom with a property stands on the branch down to a node. -/
def onBranch (s : State L) (leaf : Nat) (p : Atom L → Bool) : Outcome Bool :=
  if s.hasAtom p leaf then return true
  else Outcome.ofReference ((Tree.ancestors s.tree leaf).any (s.hasAtom p))

/-- Refuse the first atom that stands earlier in the clause or on the branch. -/
def checkRegular [DecidableEq L] [Literal L] (s : State L) (leaf : Nat)
    (seen : List (Atom L)) : List (Atom L) → Outcome Unit
  | [] => return ()
  | a :: rest => do
    if seen.contains a then refuse (.irregular a.render)
    if ← s.onBranch leaf fun b => b = a then refuse (.irregular a.render)
    s.checkRegular leaf (a :: seen) rest

/-- Refuse a clause that is not connected to the branch. -/
def checkConnected [Connectable L] (s : State L) (leaf : Nat) (c : Clause L) : Outcome Unit := do
  let closes := fun b : Atom L =>
    c.atoms.any fun a => a.negated != b.negated && Connectable.connects a.lit b.lit
  let connected ←
    match s.kind with
    | .unconnected => pure true
    | .weak => s.onBranch leaf closes
    | .strong => pure (s.hasAtom closes leaf)
  if !connected then refuse (.disconnected s.kind)

/-- The open leaf with a number. -/
def checkOpenLeaf (n : Node (Label L)) (id : Nat) : Outcome Unit := do
  if !n.isLeaf then refuse (.notLeaf id)
  if n.isClosed then refuse (.alreadyClosed id)

/-- Expand an open leaf by a clause. -/
def expand [DecidableEq L] [Connectable L] (s : State L) (n : Node (Label L)) (leaf : Nat)
    (c : Clause L) : Outcome (State L) := do
  checkOpenLeaf n leaf
  if c.isEmpty then refuse .emptyClause
  if s.regular then s.checkRegular leaf [] c.atoms
  if leaf ≠ Tree.root then s.checkConnected leaf c
  let count ← Outcome.ofCount (s.expansions + 1)
  return { s with
    tree := c.atoms.foldl (fun t a => Tree.grow t leaf ⟨some a, none⟩) s.tree
    expansions := count }

/-- The atoms of a leaf and of a node above it, if they have opposite signs. -/
def closePair [Literal L] (s : State L) (leaf partner : Nat) :
    Outcome (Atom L × Atom L) := do
  let n ← s.node leaf
  let other ← s.node partner
  checkOpenLeaf n leaf
  if !(← Outcome.ofReference ((Tree.ancestors s.tree leaf).any (· == partner))) then
    refuse (.notAncestor partner leaf)
  match n.label.atom, other.label.atom with
  | some a, some b =>
    if a.negated = b.negated then refuse (.sameSign a.render b.render)
    return (a, b)
  | _, _ => refuse .rootNode

/-- Close an open leaf against a node above it. -/
def close [DecidableEq L] [Literal L] (s : State L) (leaf partner : Nat) :
    Outcome (State L) := do
  let (a, b) ← s.closePair leaf partner
  if a.lit ≠ b.lit then refuse (.notComplementary a.render b.render)
  if !(Tree.ancestors s.tree leaf).complete then .error .brokenState
  let tree := s.tree.modify leaf fun n =>
    { n with label := { n.label with closeRef := some partner } }
  let tree ← Outcome.ofReference (Tree.closeLeaf tree leaf)
  return { s with tree := tree }

/-- Keep a move, if moves are kept. -/
def record (s : State L) (m : Move) : State L :=
  { s with history := keepMove s.backtracking s.history m }

/-- The tableau before the first move and the moves without the last one. -/
def earlier (s : State L) : Outcome (State L × List Move) := do
  if !s.backtracking then refuse .noBacktracking
  if s.history.isEmpty then refuse .nothingToUndo
  return (s.fresh, s.history.dropLast)

/-- Whether the proof is finished. -/
def verdict (s : State L) : Outcome Verdict :=
  let regular := if s.regular then "regular " else ""
  let backtracking := if s.backtracking then "with" else "without"
  Verdict.ofRoot s.tree ("The proof tree is closed and valid in " ++ regular ++ s.kind.describe ++
    " tableaux " ++ backtracking ++ " backtracking") "The proof tree is not closed"

end State

/-- The rules of a calculus for tableaux, given what its moves do that take none back. -/
def rules {L : Type} (advance : State L → Move → Outcome (State L)) : Rules (State L) Move :=
  ⟨advance, .undo, State.history, State.earlier⟩

/-- The word for a kind of connectedness in sealed texts. -/
def Connectedness.sealText : Connectedness → String
  | unconnected => "Unconnected"
  | weak => "WeaklyConnected"
  | strong => "StronglyConnected"

/-- The text of a move in sealed texts. -/
def Move.sealText : Move → String
  | expand id clause =>
    "Expand \x7b id: " ++ Decimal.render id ++ ", clause: " ++ Decimal.render clause ++ " \x7d"
  | close leaf partner assignment =>
    "Close \x7b id1: " ++ Decimal.render leaf ++ ", id2: " ++ Decimal.render partner ++
      ", var_assign: " ++ Quoted.option Quoted.map assignment ++ " \x7d"
  | undo => "Undo"

/-- The text of a node in sealed texts. -/
def nodeSealText {L : Type} [Literal L] (n : Node (Label L)) : String :=
  "(" ++ Quoted.option Quoted.id n.parent ++ ";" ++
    Quoted.option Quoted.string (n.label.atom.map Atom.render) ++ ";" ++
    Quoted.bool n.isClosed ++ ";" ++ Quoted.option Quoted.id n.label.closeRef ++ ";" ++
    Quoted.list Quoted.id n.children ++ ")"

/-- The text over which a tableau is sealed. -/
def State.sealText {L : Type} [Literal L] (s : State L) : String :=
  (Literal.logic L).word ++ "-tableauxstate|" ++ s.kind.sealText ++ "|" ++
    Quoted.bool s.regular ++ "|" ++ Quoted.bool s.backtracking ++ "|" ++ Quoted.bool s.manual ++
    "|" ++ Decimal.render s.expansions ++ "|" ++ s.clauses.render ++ "|[" ++
    String.join (s.tree.items.map nodeSealText) ++ "]|" ++ Quoted.list Move.sealText s.history

end Deduction.Tableau
