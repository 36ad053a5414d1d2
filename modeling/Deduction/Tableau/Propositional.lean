import Deduction.Tableau.Basic

/-!
# Propositional tableaux

A leaf is closed against a node with the same variable and the other sign.
-/

namespace Deduction.Tableau.Propositional

/-- The parameters of a proof. -/
structure Params where
  /-- How clauses must be connected. -/
  kind : Connectedness := .unconnected
  /-- Whether branches must not repeat an atom. -/
  regular : Bool := false
  /-- Whether moves are kept and can be taken back. -/
  backtracking : Bool := false
  /-- How a formula is brought into clause form. -/
  strategy : Strategy := .optimal
  deriving DecidableEq, Repr

/-- Start a proof from clauses or a formula. -/
def start (params : Params) (text : String) : Outcome (State String) := do
  let clauses ← ClauseSet.ofText params.strategy text
  return .initial clauses params.kind params.regular params.backtracking false

/-- Make a move that takes none back. -/
def advance (s : State String) : Move → Outcome (State String)
  | .expand id clause => do
    let n ← s.node id
    let c ← s.clause clause
    let s' ← s.expand n id c
    return s'.record (.expand id clause)
  | .close leaf partner assignment => do
    let s' ← s.close leaf partner
    return s'.record (.close leaf partner assignment)
  | .undo => .error .brokenState

/-- Make a move. -/
def step (s : State String) (m : Move) : Outcome (State String) := (rules advance).step s m

end Deduction.Tableau.Propositional
