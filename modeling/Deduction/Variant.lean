import Deduction.Unify

/-!
# Equality up to the names of variables

Two relations are variants if a one-to-one renaming of variables turns one into
the other. The check walks both in step and keeps the pairs of variables met so
far; a new pair must agree with every earlier one in both directions.
-/

namespace Deduction

/-- Variables of two sides that stand for each other. -/
abbrev Pairing := List (String × String)

/-- Let two variables stand for each other, unless one of them already stands for another. -/
def Pairing.link (p : Pairing) (x y : String) : Option Pairing :=
  if p.all fun q => decide (q.1 = x) == decide (q.2 = y) then some ((x, y) :: p) else none

mutual

/-- Extend a pairing so that it carries the first term to the second. -/
def Term.pairUp : Term → Term → Pairing → Option Pairing
  | .var x, .var y, p => p.link x y
  | .const a, .const b, p => if a = b then some p else none
  | .app f as, .app g bs, p =>
    if f = g ∧ as.length = bs.length then Term.pairUpList as bs p else none
  | _, _, _ => none

/-- Extend a pairing so that it carries the first terms to the second ones, in order. -/
def Term.pairUpList : List Term → List Term → Pairing → Option Pairing
  | s :: ss, t :: ts, p => (Term.pairUp s t p).bind (Term.pairUpList ss ts)
  | _, _, p => some p

end

/-- Whether two relations differ only in the names of their variables. -/
def isVariant (left right : Relation) : Bool :=
  left.sameSymbol right && (Term.pairUpList left.args right.args []).isSome

/-- Whether a substitution makes two relations equal and is as general as any that does;
relations that cannot be made equal leave nothing to check. -/
def isMostGeneral (s : Substitution) (left right : Relation) : Bool :=
  match unify left right with
  | .error _ => true
  | .ok mgu =>
    left.instantiate s = right.instantiate s ∧
      isVariant (left.instantiate s) (left.instantiate mgu)

end Deduction
