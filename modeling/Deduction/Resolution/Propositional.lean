import Deduction.Resolution.Basic

/-!
# Propositional resolution

Clauses are resolved on a variable that occurs in them with opposite signs, and
repeated atoms of a clause are merged.
-/

namespace Deduction.Resolution.Propositional

/-- The parameters of a proof. -/
structure Params where
  /-- How a formula is brought into clause form. -/
  strategy : Strategy := .optimal
  /-- Whether the user is shown which clauses can be chosen. -/
  highlight : Bool := false
  deriving DecidableEq, Repr

/-- Start a proof from clauses or a formula. -/
def start (params : Params) (text : String) : Outcome (State String) := do
  let clauses ← ClauseSet.ofText params.strategy text
  return .initial clauses params.highlight

/-- Resolve two clauses on a variable, or on the first atom of the first clause whose complement
is in the second. -/
def resolve (s : State String) (c1 c2 : Nat) (literal : Option String) :
    Outcome (State String) := do
  if c1 = c2 then refuse .sameClause
  let first ← s.clause c1
  let second ← s.clause c2
  match literal with
  | some lit =>
    match first.atoms.find? fun a => a.lit = lit && second.contains a.complement with
    | some a => return s.push (resolvent first second a)
    | none => refuse (.notOpposed first.render second.render lit)
  | none =>
    match first.atoms.find? fun a => second.contains a.complement with
    | some a => return s.push (resolvent first second a)
    | none => refuse (.noComplement first.render second.render)

/-- Resolve a main premiss with side premisses. -/
def hyper (s : State String) (main : Nat) (atoms : KeyMap Nat (Nat × Nat)) :
    Outcome (State String) := do
  let (mainClause, sides) ← premisses s main atoms
  let c ← hyperResolvent mainClause sides
  return s.push c

/-- Merge the repeated atoms of a clause. -/
def factorize (s : State String) (c1 : Nat) : Outcome (State String) := do
  let c ← s.clause c1
  if !c.isFactorizable then refuse .nothingToFactorize
  return s.replace c1 c c.factorized

/-- Make a move. The remark on the move before is dropped. -/
def step (state : State String) (m : Move) : Outcome (State String) :=
  let s := { state with status := none }
  match m with
  | .resolve c1 c2 literal => do
    let lit ← Outcome.ofText (literal.mapM parseVariable)
    resolve s c1 c2 lit
  | .hide c1 => s.hide c1
  | .reveal => return s.reveal
  | .hyper main atoms => hyper s main atoms
  | .factorize c1 _ => factorize s c1
  | _ => refuse .unavailable

end Deduction.Resolution.Propositional
