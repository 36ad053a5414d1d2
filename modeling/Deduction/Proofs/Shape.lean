import Deduction.Formula

/-!
# The shapes of formulas

The four connectives between two formulas are one shape, and so are the two
quantifiers. Most properties of formulas treat all formulas of a shape alike, and
induction over shapes proves them with one case for each.
-/

namespace Deduction.Formula

/-- The connectives between two formulas. -/
inductive Connective where
  | and
  | or
  | imp
  | iff

/-- The formula that a connective makes of two. -/
def Connective.apply : Connective → Formula → Formula → Formula
  | and => .and
  | or => .or
  | imp => .imp
  | iff => .iff

/-- A universal or existential quantifier. -/
def quantify (universal : Bool) (x : String) (f : Formula) : Formula :=
  if universal then .all x f else .ex x f

/-- Induction over formulas in which all connectives are one case and both quantifiers are. -/
@[elab_as_elim] theorem shapeInduction {P : Formula → Prop} (var : ∀ name, P (.var name))
    (rel : ∀ r, P (.rel r)) (not : ∀ f, P f → P (.not f))
    (connective : ∀ (k : Connective) f g, P f → P g → P (k.apply f g))
    (quantifier : ∀ universal x f, P f → P (quantify universal x f)) : ∀ f, P f := by
  intro f
  induction f with
  | var name => exact var name
  | not f ih => exact not f ih
  | and f g ihf ihg => exact connective .and f g ihf ihg
  | or f g ihf ihg => exact connective .or f g ihf ihg
  | imp f g ihf ihg => exact connective .imp f g ihf ihg
  | iff f g ihf ihg => exact connective .iff f g ihf ihg
  | rel r => exact rel r
  | all x f ih => exact quantifier true x f ih
  | ex x f ih => exact quantifier false x f ih

end Deduction.Formula
