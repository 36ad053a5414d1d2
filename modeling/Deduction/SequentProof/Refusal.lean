import Deduction.Sequent
import Deduction.Text.Decimal

/-!
# Refused moves of the sequent calculus

The reasons for which a rule of the sequent calculus is refused. Rules are named
by their texts.
-/

namespace Deduction.SequentProof

/-- Why a move is refused. -/
inductive Refusal where
  /-- No node has the number. -/
  | noNode (id : Nat)
  /-- The node has children. -/
  | notLeaf (sequent : Sequent)
  /-- The node is closed already. -/
  | alreadyClosed (sequent : Sequent)
  /-- The side has no formula at the position. -/
  | noFormula (index : Nat) (side : Side) (sequent : Sequent)
  /-- No formula stands on both sides. -/
  | noSharedFormula (sequent : Sequent)
  /-- The formula does not have the connective of the rule. -/
  | wrongConnective (rule : String) (f : Formula)
  /-- The formula does not have the quantifier of the rule. -/
  | wrongQuantifier (rule : String) (universal : Bool)
  /-- Nothing is given for the bound variable. -/
  | noConstant (x : String)
  /-- The constant has no name. -/
  | emptyConstant
  /-- The name of the constant starts with something else than a lower-case letter. -/
  | notLowercase (name : String)
  /-- A character may not stand in the name of a constant. -/
  | badCharacter (position : Nat) (name : String)
  /-- The constant is not new. -/
  | usedConstant (name : String)
  /-- Propositional logic has no quantifier rules. -/
  | unavailable (rule : String)
  /-- There is no move to take back. -/
  | nothingToUndo
  deriving DecidableEq, Repr

/-- The wording of a refusal. -/
def Refusal.message : Refusal → String
  | noNode id => "Node with ID " ++ Decimal.render id ++ " does not exist"
  | notLeaf sequent => "Node '" ++ sequent.render ++ "' is not a leaf"
  | alreadyClosed sequent => "Node '" ++ sequent.render ++ "' is already closed"
  | noFormula index side sequent =>
    "There is no formula with index " ++ Decimal.render index ++ " on the " ++ side.describe ++
      " side of '" ++ sequent.render ++ "'"
  | noSharedFormula sequent =>
    "Axiom is not applicable: no formula occurs on both sides of '" ++ sequent.render ++ "'"
  | wrongConnective rule f => "Rule " ++ rule ++ " can not be applied on '" ++ f.render ++ "'"
  | wrongQuantifier rule universal =>
    "Rule " ++ rule ++ " can only be applied on " ++
      (if universal then "a universal" else "an existential") ++ " quantifier"
  | noConstant x => "No constant given to instantiate '" ++ x ++ "' with"
  | emptyConstant => "Can't instantiate with empty identifier"
  | notLowercase name => "Constant '" ++ name ++ "' does not start with a lowercase letter"
  | badCharacter position name =>
    "Character at position " ++ Decimal.render position ++ " in '" ++ name ++
      "' is not allowed in constants"
  | usedConstant name => "Identifier '" ++ name ++ "' is already in use"
  | unavailable rule =>
    "Rule " ++ rule ++ " is not available in propositional sequent calculus"
  | nothingToUndo => "Can't undo in initial state"

end Deduction.SequentProof
