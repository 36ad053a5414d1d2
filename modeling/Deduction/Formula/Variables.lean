import Deduction.Formula

/-!
# Variables and symbols of a formula

The free variables of a formula are those with an occurrence outside every
quantifier of the same name. Instantiation replaces free occurrences only;
it does not rename quantifiers, so a replacement may be captured.
-/

namespace Deduction.Formula

/-- The variable occurrences outside `bound` and outside every quantifier of the same name,
from left to right. -/
def freeOccurrences (bound : List String) : Formula → List String
  | var _ => []
  | not f => f.freeOccurrences bound
  | and f g => f.freeOccurrences bound ++ g.freeOccurrences bound
  | or f g => f.freeOccurrences bound ++ g.freeOccurrences bound
  | imp f g => f.freeOccurrences bound ++ g.freeOccurrences bound
  | iff f g => f.freeOccurrences bound ++ g.freeOccurrences bound
  | rel r => r.vars.filter fun x => x ∉ bound
  | all x f => f.freeOccurrences (x :: bound)
  | ex x f => f.freeOccurrences (x :: bound)

/-- The free variables in order of first occurrence, each once. -/
def freeVars (f : Formula) : List String := (f.freeOccurrences []).eraseDups

/-- Every variable name in a formula, bound or free, quantifiers before their bodies. -/
def varNames : Formula → List String
  | var _ => []
  | not f => f.varNames
  | and f g => f.varNames ++ g.varNames
  | or f g => f.varNames ++ g.varNames
  | imp f g => f.varNames ++ g.varNames
  | iff f g => f.varNames ++ g.varNames
  | rel r => r.vars
  | all x f => x :: f.varNames
  | ex x f => x :: f.varNames

/-- Every constant and function symbol in a formula. -/
def symbols : Formula → List String
  | var _ => []
  | not f => f.symbols
  | and f g => f.symbols ++ g.symbols
  | or f g => f.symbols ++ g.symbols
  | imp f g => f.symbols ++ g.symbols
  | iff f g => f.symbols ++ g.symbols
  | rel r => r.symbols
  | all _ f => f.symbols
  | ex _ f => f.symbols

/-- A replacement that leaves one variable alone. -/
def shadow (σ : String → Term) (x : String) : String → Term := fun y =>
  if y = x then .var y else σ y

/-- Replace the free occurrences of every variable `x` by `σ x`. -/
def bind (σ : String → Term) : Formula → Formula
  | var name => var name
  | not f => not (f.bind σ)
  | and f g => and (f.bind σ) (g.bind σ)
  | or f g => or (f.bind σ) (g.bind σ)
  | imp f g => imp (f.bind σ) (g.bind σ)
  | iff f g => iff (f.bind σ) (g.bind σ)
  | rel r => rel (r.bind σ)
  | all x f => all x (f.bind (shadow σ x))
  | ex x f => ex x (f.bind (shadow σ x))

/-- The instance of a formula under a substitution. -/
def instantiate (f : Formula) (s : Substitution) : Formula := f.bind s.apply

/-- The body of a quantifier with a term for the bound variable. -/
def instantiateBound (x : String) (body : Formula) (t : Term) : Formula :=
  body.bind (Term.single x t)

/-- Rename all variable occurrences in relations; quantifiers keep their names. -/
def rename (ρ : String → String) : Formula → Formula
  | var name => var name
  | not f => not (f.rename ρ)
  | and f g => and (f.rename ρ) (g.rename ρ)
  | or f g => or (f.rename ρ) (g.rename ρ)
  | imp f g => imp (f.rename ρ) (g.rename ρ)
  | iff f g => iff (f.rename ρ) (g.rename ρ)
  | rel r => rel (r.bind fun x => .var (ρ x))
  | all x f => all x (f.rename ρ)
  | ex x f => ex x (f.rename ρ)

end Deduction.Formula
