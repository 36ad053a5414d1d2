import Deduction.Formula

/-!
# Negation normal form

Implications and equivalences are written out and negations are pushed down to
the atoms. Quantifiers stay where they are and change kind under a negation.
-/

namespace Deduction.Formula

/-- The atomic formula itself, or its negation if the sign is negative. -/
def signed (sign : Bool) (atom : Formula) : Formula := if sign then atom else not atom

/-- The normal form of a formula, or of its negation if the sign is negative. -/
def normalize (sign : Bool) : Formula → Formula
  | var name => signed sign (var name)
  | rel r => signed sign (rel r)
  | not f => f.normalize (!sign)
  | and f g =>
    if sign then and (f.normalize true) (g.normalize true)
    else or (f.normalize false) (g.normalize false)
  | or f g =>
    if sign then or (f.normalize true) (g.normalize true)
    else and (f.normalize false) (g.normalize false)
  | imp f g =>
    if sign then or (f.normalize false) (g.normalize true)
    else and (f.normalize true) (g.normalize false)
  | iff f g =>
    or (and (f.normalize true) (g.normalize sign))
      (and (f.normalize false) (g.normalize (!sign)))
  | all x f => if sign then all x (f.normalize true) else ex x (f.normalize false)
  | ex x f => if sign then ex x (f.normalize true) else all x (f.normalize false)

/-- The negation normal form of a formula. -/
def negationNormal (f : Formula) : Formula := f.normalize true

end Deduction.Formula
