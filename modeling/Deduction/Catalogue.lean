import Deduction.Calculus
import Deduction.Document.SequentProof
import Deduction.Document.NonClausal
import Deduction.Document.Resolution
import Deduction.Document.Tableau

/-!
# The calculi

The seven calculi under their names, and the operations that pick one by name.
-/

namespace Deduction

namespace Calculus

/-- Resolution on propositional clauses. -/
def propositionalResolution : Calculus where
  Params := Resolution.Propositional.Params
  State := Resolution.State String
  Move := Resolution.Move
  name := "prop-resolution"
  defaults := {}
  paramsOfJson := Resolution.Propositional.Params.ofJson
  stateToJson := Resolution.State.toJson
  stateOfJson := Resolution.State.ofJson
  moveOfText := Resolution.Move.ofText
  sealText := Resolution.State.sealText
  start := Resolution.Propositional.start
  step := Resolution.Propositional.step
  verdict s := .ok s.verdict

/-- Resolution on first-order clauses. -/
def firstOrderResolution : Calculus where
  Params := Resolution.FirstOrder.Params
  State := Resolution.State Relation
  Move := Resolution.Move
  name := "fo-resolution"
  defaults := {}
  paramsOfJson := Resolution.FirstOrder.Params.ofJson
  stateToJson := Resolution.State.toJson
  stateOfJson := Resolution.State.ofJson
  moveOfText := Resolution.Move.ofText
  sealText := Resolution.State.sealText
  start := Resolution.FirstOrder.start
  step := Resolution.FirstOrder.step
  verdict s := .ok s.verdict

/-- Clausal tableaux on propositional clauses. -/
def propositionalTableaux : Calculus where
  Params := Tableau.Propositional.Params
  State := Tableau.State String
  Move := Tableau.Move
  name := "prop-tableaux"
  defaults := {}
  paramsOfJson := Tableau.Propositional.Params.ofJson
  stateToJson := Tableau.State.toJson
  stateOfJson := Tableau.State.ofJson
  moveOfText := Tableau.Move.ofJson.ofText .move
  sealText := Tableau.State.sealText
  start := Tableau.Propositional.start
  step := Tableau.Propositional.step
  verdict := Tableau.State.verdict

/-- Clausal tableaux on first-order clauses. -/
def firstOrderTableaux : Calculus where
  Params := Tableau.FirstOrder.Params
  State := Tableau.State Relation
  Move := Tableau.Move
  name := "fo-tableaux"
  defaults := {}
  paramsOfJson := Tableau.FirstOrder.Params.ofJson
  stateToJson := Tableau.State.toJson
  stateOfJson := Tableau.State.ofJson
  moveOfText := Tableau.Move.ofJson.ofText .move
  sealText := Tableau.State.sealText
  start := Tableau.FirstOrder.start
  step := Tableau.FirstOrder.step
  verdict := Tableau.State.verdict

/-- Tableaux on first-order formulas. -/
def nonClausalTableaux : Calculus where
  Params := NonClausal.Params
  State := NonClausal.State
  Move := NonClausal.Move
  name := "nc-tableaux"
  defaults := {}
  paramsOfJson := NonClausal.Params.ofJson
  stateToJson := NonClausal.State.toJson
  stateOfJson := NonClausal.State.ofJson
  moveOfText := NonClausal.Move.ofJson.ofText .move
  sealText := NonClausal.State.sealText
  start := NonClausal.start
  step := NonClausal.step
  verdict := NonClausal.State.verdict

/-- The sequent calculus of a logic. -/
def sequent (name : String) (logic : Logic) : Calculus where
  Params := SequentProof.Params
  State := SequentProof.State
  Move := SequentProof.Move
  name := name
  defaults := {}
  paramsOfJson := SequentProof.Params.ofJson
  stateToJson := SequentProof.State.toJson
  stateOfJson := SequentProof.State.ofJson
  moveOfText := SequentProof.Move.ofJson.ofText .move
  sealText := SequentProof.State.sealText
  start := SequentProof.start logic
  step := SequentProof.step logic
  verdict s := s.verdict logic

/-- The sequent calculus of propositional logic. -/
def propositionalSequent : Calculus := sequent "prop-sequent" .propositional

/-- The sequent calculus of first-order logic. -/
def firstOrderSequent : Calculus := sequent "fo-sequent" .firstOrder

/-- All calculi, in the order in which they are listed. -/
def all : List Calculus :=
  [propositionalResolution, firstOrderResolution, propositionalTableaux, firstOrderTableaux,
    nonClausalTableaux, propositionalSequent, firstOrderSequent]

/-- The names of all calculi. -/
def names : List String := all.map Calculus.name

/-- The calculus with a name. -/
def find? (name : String) : Option Calculus := all.find? fun C => C.name == name

/-- Do something in the calculus with a name. -/
def within {α : Type} (name : String) (act : Calculus → Outcome α) : Outcome α :=
  match find? name with
  | some C => act C
  | none => .error (.document (.unknownCalculus name))

end Calculus

/-- The first state of a proof in the named calculus. -/
def parse (calculus formula : String) (params : Option String) : Outcome Json :=
  Calculus.within calculus fun C => C.parse formula params

/-- The state after a move in the named calculus. -/
def applyMove (calculus state move : String) : Outcome Json :=
  Calculus.within calculus fun C => C.applyMove state move

/-- The verdict on a state of the named calculus. -/
def checkClose (calculus state : String) : Outcome Json :=
  Calculus.within calculus fun C => C.checkClose state

end Deduction
