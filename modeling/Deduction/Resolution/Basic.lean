import Deduction.Error
import Deduction.Text.Quoted

/-!
# Resolution proofs

A resolution proof is a growing clause set. Clauses can be hidden and brought
back; the proof is finished when the visible clauses contain the empty one. What
the two logics share is here: the state, its bookkeeping, and the resolvents of
clauses that already agree on the literal.
-/

namespace Deduction.Resolution

/-- A move in a resolution proof. Clauses and atoms are chosen by number. -/
inductive Move where
  /-- Resolve two clauses on a literal, or on the first one possible. -/
  | resolve (c1 c2 : Nat) (literal : Option String)
  /-- Resolve two clauses on chosen atoms, with the most general substitution. -/
  | resolveUnify (c1 c2 l1 l2 : Nat)
  /-- Resolve two clauses on chosen atoms, with a given substitution. -/
  | resolveCustom (c1 c2 l1 l2 : Nat) (assignment : KeyMap String String)
  /-- Add an instance of a clause. -/
  | instantiate (c1 : Nat) (assignment : KeyMap String String)
  /-- Hide a clause. -/
  | hide (c1 : Nat)
  /-- Bring all hidden clauses back. -/
  | reveal
  /-- Resolve several atoms of a main premiss at once: under the number of each atom stand the
  numbers of the side premiss and of the atom in it. -/
  | hyper (main : Nat) (atoms : KeyMap Nat (Nat × Nat))
  /-- Merge atoms of a clause. -/
  | factorize (c1 : Nat) (atoms : List Nat)
  deriving DecidableEq

/-- A resolution proof. -/
structure State (L : Type) where
  /-- The visible clauses. -/
  clauses : ClauseSet L
  /-- The hidden clauses. -/
  hidden : ClauseSet L
  /-- Whether the user is shown which clauses can be chosen. -/
  highlight : Bool
  /-- The number of the clause that was derived last. -/
  newest : Option Nat
  /-- A remark on the last move. -/
  status : Option String
  deriving DecidableEq, Repr

/-- Refuse a move. -/
def refuse {α : Type} (cause : Refusal) : Outcome α := .error (.move (.resolution cause))

namespace State

variable {L : Type}

/-- The proof before the first move. -/
def initial (clauses : ClauseSet L) (highlight : Bool) : State L :=
  ⟨clauses, .empty, highlight, none, none⟩

/-- The clause with a number. -/
def clause (s : State L) (id : Nat) : Outcome (Clause L) :=
  .ofLookup (.resolution (.noClause id)) (s.clauses.get? id)

/-- The atom with a number in a clause. -/
def atomOf [Literal L] (c : Clause L) (id : Nat) : Outcome (Atom L) :=
  .ofLookup (.resolution (.noAtom id c.render)) c.atoms[id]?

/-- The atom with a number in the clause with a number. -/
def atom [Literal L] (s : State L) (clauseId id : Nat) : Outcome (Atom L) := do
  atomOf (← s.clause clauseId) id

/-- Add a derived clause. -/
def push (s : State L) (c : Clause L) : State L :=
  { s with clauses := s.clauses.add c, newest := some s.clauses.size }

/-- Put a clause in the place of another one, which is hidden. -/
def replace (s : State L) (id : Nat) (old new : Clause L) : State L :=
  { s with
    clauses := ⟨s.clauses.clauses.set id new⟩
    hidden := s.hidden.add old
    newest := some id }

/-- Hide a clause. -/
def hide (s : State L) (id : Nat) : Outcome (State L) := do
  let c ← s.clause id
  return { s with
    clauses := ⟨s.clauses.clauses.eraseIdx id⟩
    hidden := s.hidden.add c
    newest := none }

/-- Bring all hidden clauses back, behind the visible ones. -/
def reveal (s : State L) : State L :=
  { s with clauses := s.clauses.unite s.hidden, hidden := .empty, newest := none }

/-- Whether the proof is finished. -/
def verdict (s : State L) : Verdict :=
  if s.clauses.hasEmptyClause then ⟨true, "The proof is closed"⟩
  else ⟨false, "The proof is not closed"⟩

/-- The text over which a proof is sealed. -/
def sealText [Literal L] (s : State L) : String :=
  (Literal.logic L).word ++ "-resolutionstate|" ++ s.clauses.render ++ "|" ++
    s.hidden.render ++ "|" ++ Quoted.bool s.highlight ++ "|" ++
    Quoted.option Decimal.render s.newest ++ "|" ++ Quoted.option Quoted.string s.status

end State

section Resolvents

variable {L : Type} [DecidableEq L]

/-- The resolvent of two clauses on an atom of the first: all copies of the atom and of its
complement are dropped, and no other atom is repeated. -/
def resolvent (first second : Clause L) (a : Atom L) : Clause L :=
  Clause.factorized
    ⟨(first.atoms.filter fun b => b ≠ a) ++ second.atoms.filter fun b => b ≠ a.complement⟩

/-- A side premiss of a hyper resolution. -/
structure Premiss (L : Type) where
  /-- The number of the atom in the main premiss. -/
  index : Nat
  /-- That atom. -/
  mainAtom : Atom L
  /-- The side premiss. -/
  clause : Clause L
  /-- The atom of the side premiss. -/
  sideAtom : Atom L
  deriving DecidableEq, Repr

/-- The main premiss and the side premisses of a hyper resolution. -/
def premisses [Literal L] (s : State L) (main : Nat) (atoms : KeyMap Nat (Nat × Nat)) :
    Outcome (Clause L × List (Premiss L)) := do
  if atoms.entries.isEmpty then refuse .noSidePremisses
  let mainClause ← s.clause main
  let sides ← atoms.entries.mapM fun (index, side, sideIndex) => do
    let mainAtom ← State.atomOf mainClause index
    let clause ← s.clause side
    let sideAtom ← State.atomOf clause sideIndex
    return ⟨index, mainAtom, clause, sideAtom⟩
  return (mainClause, sides)

/-- Refuse a side premiss that does not fit the main premiss. -/
def checkPremiss [Literal L] (main : Clause L) (side : Premiss L) : Outcome Unit := do
  if !side.clause.isPositive then refuse (.sideNotPositive side.clause.render)
  if !side.mainAtom.negated then refuse (.mainNotNegative side.mainAtom.render main.render)
  if side.mainAtom.lit ≠ side.sideAtom.lit then
    refuse (.literalMismatch side.mainAtom.render side.sideAtom.render)

/-- The resolvent of a main premiss with all its side premisses. The chosen literals must be
equal already. -/
def hyperResolvent [Literal L] (main : Clause L) (sides : List (Premiss L)) :
    Outcome (Clause L) := do
  let kept := main.atoms.zipIdx.filter fun a => !sides.any fun side => side.index == a.2
  let _ ← sides.mapM (checkPremiss main)
  let added := sides.flatMap fun side => side.clause.atoms.filter fun a => a ≠ side.sideAtom
  let result := Clause.factorized ⟨kept.map Prod.fst ++ added⟩
  if !result.isPositive then refuse (.resultNotPositive result.render)
  return result

end Resolvents

end Deduction.Resolution
