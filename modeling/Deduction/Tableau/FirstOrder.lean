import Deduction.Tableau.Basic

/-!
# First-order tableaux

The variables of a clause are renamed apart on each expansion, by the number of
the expansion. Closing a leaf instantiates the whole tree, either by the most
general substitution or by a given one, and the substitution used is kept with
the move.
-/

namespace Deduction.Tableau.FirstOrder

/-- The parameters of a proof. -/
structure Params where
  /-- How clauses must be connected. -/
  kind : Connectedness := .unconnected
  /-- Whether branches must not repeat an atom. -/
  regular : Bool := false
  /-- Whether moves are kept and can be taken back. -/
  backtracking : Bool := false
  /-- Whether a substitution must be given to close a leaf. -/
  manual : Bool := false
  deriving DecidableEq, Repr

/-- Start a proof from a closed formula. -/
def start (params : Params) (text : String) : Outcome (State Relation) := do
  let clauses ← ClauseSet.ofFirstOrderText text
  return .initial clauses params.kind params.regular params.backtracking params.manual

/-- The tableau with every atom instantiated. -/
def instantiate (s : State Relation) (σ : Substitution) : State Relation :=
  { s with
    tree := Tree.mapLabels s.tree fun label =>
      { label with atom := label.atom.map fun a => a.instantiate σ } }

/-- The substitution under which a leaf is to be closed: the given one, or else the most general
one unless substitutions must be given. -/
def closingSubstitution (s : State Relation) (a b : Atom Relation)
    (assignment : Option (KeyMap String String)) : Outcome Substitution :=
  match assignment with
  | some assignment => .ofText (Substitution.parse assignment)
  | none =>
    if s.manual then refuse .substitutionNeeded
    else
      match unify a.lit b.lit with
      | .ok σ => .ok σ
      | .error e => refuse (.notUnifiable a.render b.render e)

/-- Instantiate the tableau so that a leaf can be closed, and close it. -/
def close (s : State Relation) (leaf partner : Nat)
    (assignment : Option (KeyMap String String)) : Outcome (State Relation) := do
  let (a, b) ← s.closePair leaf partner
  let σ ← closingSubstitution s a b assignment
  let s' ← (instantiate s σ).close leaf partner
  return s'.record (.close leaf partner (some σ.texts))

/-- Make a move that takes none back. -/
def advance (s : State Relation) : Move → Outcome (State Relation)
  | .expand id clause => do
    let n ← s.node id
    let c ← s.clause clause
    let count ← Outcome.ofCount (s.expansions + 1)
    let s' ← s.expand n id (c.withSuffix (Decimal.render count))
    return s'.record (.expand id clause)
  | .close leaf partner assignment => close s leaf partner assignment
  | .undo => .error .brokenState

/-- Make a move. -/
def step (s : State Relation) (m : Move) : Outcome (State Relation) := (rules advance).step s m

end Deduction.Tableau.FirstOrder
