import Deduction.Substitution

/-!
# Formulas

Propositional and first-order formulas share one type. A formula is atomic if it
is a propositional variable or a relation. Equality of formulas is equality of
spelling.
-/

namespace Deduction

/-- The two languages in which formulas are written. -/
inductive Logic where
  /-- Atoms are propositional variables, and there are no quantifiers. -/
  | propositional
  /-- Atoms are relations, and variables are bound by quantifiers. -/
  | firstOrder
  deriving DecidableEq, Repr, Inhabited

/-- The short word for a logic. -/
def Logic.word : Logic → String
  | propositional => "prop"
  | firstOrder => "fo"

/-- A propositional or first-order formula. -/
inductive Formula where
  /-- A propositional variable. -/
  | var (name : String)
  /-- A negation. -/
  | not (child : Formula)
  /-- A conjunction. -/
  | and (left right : Formula)
  /-- A disjunction. -/
  | or (left right : Formula)
  /-- An implication. -/
  | imp (left right : Formula)
  /-- An equivalence. -/
  | iff (left right : Formula)
  /-- A relation between terms. -/
  | rel (relation : Relation)
  /-- A universal quantifier. -/
  | all (x : String) (body : Formula)
  /-- An existential quantifier. -/
  | ex (x : String) (body : Formula)
  deriving DecidableEq, Repr, Inhabited

namespace Formula

/-- The text of a formula: every binary connective and every quantifier is bracketed. -/
def render : Formula → String
  | var name => name
  | not f => "!" ++ f.render
  | and f g => "(" ++ f.render ++ " ∧ " ++ g.render ++ ")"
  | or f g => "(" ++ f.render ++ " ∨ " ++ g.render ++ ")"
  | imp f g => "(" ++ f.render ++ " --> " ++ g.render ++ ")"
  | iff f g => "(" ++ f.render ++ " <=> " ++ g.render ++ ")"
  | rel r => r.render
  | all x f => "(∀" ++ x ++ ": " ++ f.render ++ ")"
  | ex x f => "(∃" ++ x ++ ": " ++ f.render ++ ")"

/-- Write implications as `!a | b` and equivalences as `(a & b) | (!a & !b)`, everywhere. -/
def basicOps : Formula → Formula
  | var name => var name
  | not f => not f.basicOps
  | and f g => and f.basicOps g.basicOps
  | or f g => or f.basicOps g.basicOps
  | imp f g => or (not f.basicOps) g.basicOps
  | iff f g => or (and f.basicOps g.basicOps) (and (not f.basicOps) (not g.basicOps))
  | rel r => rel r
  | all x f => all x f.basicOps
  | ex x f => ex x f.basicOps

/-- Write equivalences as a conjunction of two implications, everywhere. -/
def splitIff : Formula → Formula
  | var name => var name
  | not f => not f.splitIff
  | and f g => and f.splitIff g.splitIff
  | or f g => or f.splitIff g.splitIff
  | imp f g => imp f.splitIff g.splitIff
  | iff f g => and (imp f.splitIff g.splitIff) (imp g.splitIff f.splitIff)
  | rel r => rel r
  | all x f => all x f.splitIff
  | ex x f => ex x f.splitIff

/-- Whether a formula has no quantifier. -/
def quantifierFree : Formula → Bool
  | var _ => true
  | not f => f.quantifierFree
  | and f g => f.quantifierFree && g.quantifierFree
  | or f g => f.quantifierFree && g.quantifierFree
  | imp f g => f.quantifierFree && g.quantifierFree
  | iff f g => f.quantifierFree && g.quantifierFree
  | rel _ => true
  | all _ _ => false
  | ex _ _ => false

/-- Remove up to `n` outermost quantifiers, leaving their variables free. -/
def strip : Nat → Formula → Formula
  | n + 1, all _ f => strip n f
  | n + 1, ex _ f => strip n f
  | _, f => f

end Formula

end Deduction
