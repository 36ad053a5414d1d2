import Deduction.Resolution.Basic
import Deduction.Variant

/-!
# First-order resolution

Clauses are resolved on atoms that a substitution makes complementary. The
variables of every derived clause get the number of the clause as a suffix, which
keeps them apart from those of other clauses.
-/

namespace Deduction.Resolution.FirstOrder

/-- The parameters of a proof. -/
structure Params where
  /-- Whether the user is shown which clauses can be chosen. -/
  highlight : Bool := false
  deriving DecidableEq, Repr

/-- Start a proof from a closed formula. -/
def start (params : Params) (text : String) : Outcome (State Relation) := do
  let clauses ← ClauseSet.ofFirstOrderText text
  return .initial clauses params.highlight

/-- The most general substitution that makes two literals equal. -/
def unifier (left right : Relation) : Outcome Substitution :=
  match unify left right with
  | .ok s => .ok s
  | .error e => refuse (.notUnifiable left right e)

/-- The remark on a substitution that is more special than necessary. -/
def notMostGeneral : String := "The unifier you specified is not an MGU"

/-- Resolve two clauses on chosen atoms, with a given substitution or the most general one. -/
def resolveOn (s : State Relation) (c1 c2 l1 l2 : Nat) (given : Option Substitution) :
    Outcome (State Relation) := do
  if c1 = c2 then refuse .sameClause
  let left ← s.atom c1 l1
  let right ← s.atom c2 l2
  if left.negated = right.negated then refuse (.sameSign left.render right.render)
  let σ ←
    match given with
    | some σ => pure σ
    | none => unifier left.lit right.lit
  if left.lit.instantiate σ ≠ right.lit.instantiate σ then
    refuse (.notUnified left.render right.render)
  let first ← s.clause c1
  let second ← s.clause c2
  let c := resolvent (first.instantiate σ) (second.instantiate σ) (left.instantiate σ)
  let next := s.push (c.withSuffix (Decimal.render s.clauses.size))
  match given with
  | some σ =>
    return if isMostGeneral σ left.lit right.lit then next
      else { next with status := some notMostGeneral }
  | none => return next

/-- The first two atoms of opposite sign that can be made equal, where both literals must be
the given one if there is one. -/
def firstPair (first second : Clause Relation) (literal : Option Relation) :
    Option (Nat × Nat) :=
  let selected := fun r : Relation => literal.all fun lit => lit = r
  first.atoms.zipIdx.findSome? fun (a, i) =>
    second.atoms.zipIdx.findSome? fun (b, j) =>
      if a.negated != b.negated && selected a.lit && selected b.lit &&
          (unify a.lit b.lit).isOk then
        some (i, j)
      else none

/-- Resolve two clauses on the first atoms possible. -/
def resolve (s : State Relation) (c1 c2 : Nat) (literal : Option Relation) :
    Outcome (State Relation) := do
  if c1 = c2 then refuse .sameClause
  let first ← s.clause c1
  let second ← s.clause c2
  match firstPair first second literal with
  | some (l1, l2) => resolveOn s c1 c2 l1 l2 none
  | none => refuse (.noUnifiablePair first.render second.render)

/-- The instance of a side premiss under a substitution. -/
def instantiatePremiss (σ : Substitution) (side : Premiss Relation) : Premiss Relation :=
  { side with
    mainAtom := side.mainAtom.instantiate σ
    clause := side.clause.instantiate σ
    sideAtom := side.sideAtom.instantiate σ }

/-- Resolve a main premiss with side premisses under one substitution. -/
def hyper (s : State Relation) (main : Nat) (atoms : KeyMap Nat (Nat × Nat)) :
    Outcome (State Relation) := do
  let (mainClause, sides) ← premisses s main atoms
  match unifyAll (sides.map fun side => (side.mainAtom.lit, side.sideAtom.lit)) with
  | .error e => refuse (.premissesNotUnifiable mainClause.render e)
  | .ok σ =>
    let c ← hyperResolvent (mainClause.instantiate σ) (sides.map (instantiatePremiss σ))
    return s.push (c.withSuffix (Decimal.render s.clauses.size))

/-- Make the chosen atoms of a clause equal, each one to the one before it. -/
def mergeAtoms (c : Clause Relation) : List Nat → Outcome (Clause Relation)
  | i :: j :: rest => do
    if i = j then refuse .repeatedAtom
    let first ← State.atomOf c i
    let second ← State.atomOf c j
    if first.negated ≠ second.negated then refuse (.differentSigns first.render second.render)
    let σ ← unifier first.lit second.lit
    mergeAtoms (c.instantiate σ) (j :: rest)
  | _ => .ok c

/-- Make chosen atoms of a clause equal and keep only the first of them. -/
def factorize (s : State Relation) (c1 : Nat) (atoms : List Nat) : Outcome (State Relation) := do
  if atoms.length < 2 then refuse .tooFewAtoms
  let c ← s.clause c1
  let _ ← atoms.mapM (State.atomOf c)
  let merged ← mergeAtoms c atoms
  let kept := atoms.head?.bind fun i => merged.atoms[i]?
  let remaining := merged.atoms.zipIdx.filter fun (a, i) =>
    !(atoms.tail.contains i && kept = some a)
  let result : Clause Relation := ⟨remaining.map Prod.fst⟩
  return s.replace c1 c (result.withSuffix (Decimal.render c1))

/-- Make a move. The remark on the move before is dropped. -/
def step (state : State Relation) (m : Move) : Outcome (State Relation) :=
  let s := { state with status := none }
  match m with
  | .resolve c1 c2 literal => do
    let lit ← Outcome.ofText (literal.mapM Relation.parse)
    resolve s c1 c2 lit
  | .resolveUnify c1 c2 l1 l2 => resolveOn s c1 c2 l1 l2 none
  | .resolveCustom c1 c2 l1 l2 assignment => do
    let σ ← Outcome.ofText (Substitution.parse assignment)
    resolveOn s c1 c2 l1 l2 (some σ)
  | .instantiate c1 assignment => do
    let σ ← Outcome.ofText (Substitution.parse assignment)
    let c ← s.clause c1
    return s.push (c.instantiate σ)
  | .hide c1 => s.hide c1
  | .reveal => return s.reveal
  | .hyper main atoms => hyper s main atoms
  | .factorize c1 atoms => factorize s c1 atoms

end Deduction.Resolution.FirstOrder
