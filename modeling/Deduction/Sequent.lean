import Deduction.Formula

/-!
# Sequents

A sequent says that if all formulas on its left hold, then one on its right
does.
-/

namespace Deduction

/-- One of the two lists of a sequent. -/
inductive Side where
  /-- The assumptions. -/
  | left
  /-- The alternatives. -/
  | right
  deriving DecidableEq, Repr

/-- The word for a side. -/
def Side.describe : Side → String
  | left => "left"
  | right => "right"

/-- Two lists of formulas. -/
structure Sequent where
  /-- The assumptions. -/
  left : List Formula
  /-- The alternatives. -/
  right : List Formula
  deriving DecidableEq, Repr, Inhabited

namespace Sequent

/-- The formulas on a side. -/
def onSide (s : Sequent) : Side → List Formula
  | .left => s.left
  | .right => s.right

/-- All formulas, those on the left first. -/
def formulas (s : Sequent) : List Formula := s.left ++ s.right

/-- The sequent without the formula at a position of a side. -/
def eraseAt (s : Sequent) (index : Nat) : Side → Sequent
  | .left => ⟨s.left.eraseIdx index, s.right⟩
  | .right => ⟨s.left, s.right.eraseIdx index⟩

/-- The sequent with a formula behind the others on a side. -/
def add (s : Sequent) (f : Formula) : Side → Sequent
  | .left => ⟨s.left ++ [f], s.right⟩
  | .right => ⟨s.left, s.right ++ [f]⟩

/-- The sequent without repetitions on either side. -/
def distinct (s : Sequent) : Sequent := ⟨s.left.eraseDups, s.right.eraseDups⟩

/-- The sequent with its equivalences as pairs of implications. -/
def splitIff (s : Sequent) : Sequent :=
  ⟨s.left.map Formula.splitIff, s.right.map Formula.splitIff⟩

/-- The texts of formulas with commas between them. -/
def renderFormulas (fs : List Formula) : String :=
  String.intercalate ", " (fs.map Formula.render)

/-- The text of a sequent. -/
def render (s : Sequent) : String := renderFormulas s.left ++ " ⊢ " ++ renderFormulas s.right

end Sequent

end Deduction
