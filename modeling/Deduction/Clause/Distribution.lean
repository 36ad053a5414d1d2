import Deduction.Clause
import Deduction.Formula.Skolem

/-!
# Clause form by distribution

Disjunctions are multiplied out over conjunctions. The clause set is equivalent
to the formula and may be exponentially larger, so a limit on the number of
clauses can be set; it holds for every intermediate result as well.
-/

namespace Deduction

/-- Why a formula has no clause form of the wanted kind. -/
inductive ConversionError where
  /-- An atomic formula belongs to the other logic. -/
  | wrongAtom (f : Formula)
  /-- A quantifier is left. -/
  | quantified (f : Formula)
  /-- Names for subformulas are given in propositional logic only. -/
  | notPropositional (f : Formula)
  /-- Distribution gives more clauses than allowed. -/
  | tooLarge (limit : Nat)
  deriving DecidableEq, Repr

/-- The wording of a failed conversion. -/
def ConversionError.message : ConversionError → String
  | .wrongAtom f => "'" ++ f.render ++ "' is not an atomic formula of this logic"
  | .quantified f => "Cannot convert formula with quantifiers to CNF: '" ++ f.render ++ "'"
  | .notPropositional f =>
    "Tseytin transformation is only defined for propositional formulas, found '" ++
      f.render ++ "'"
  | .tooLarge limit => "Naive CNF exceeds " ++ Decimal.render limit ++ " clauses"

namespace ClauseSet

variable {L : Type}

/-- Refuse a number of clauses above the limit. -/
def checkLimit (limit : Option Nat) (n : Nat) : Except ConversionError Unit :=
  match limit with
  | some bound => if n > bound then .error (.tooLarge bound) else .ok ()
  | none => .ok ()

/-- The clauses of a conjunction. -/
def conj (limit : Option Nat) (s t : ClauseSet L) : Except ConversionError (ClauseSet L) := do
  checkLimit limit (s.size + t.size)
  return s.unite t

/-- The clauses of a disjunction: every clause of the one set joined to every clause of the
other. -/
def disj (limit : Option Nat) (s t : ClauseSet L) : Except ConversionError (ClauseSet L) := do
  checkLimit limit (s.size * t.size)
  return ⟨s.clauses.flatMap fun c => t.clauses.map fun d => ⟨c.atoms ++ d.atoms⟩⟩

/-- The clause set of one signed atomic formula. -/
def ofAtom [Literal L] (sign : Bool) (f : Formula) : Except ConversionError (ClauseSet L) :=
  match Literal.ofFormula? f with
  | some lit => .ok ⟨[⟨[⟨lit, !sign⟩]⟩]⟩
  | none => .error (.wrongAtom f)

/-- Distribute a formula, or its negation if the sign is negative. Once a positive implication
or equivalence has been met, all below it is read with implications and equivalences written
out (`basic`); a negated equivalence that is not written out is the disjunction of the two
failing implications. -/
def distribute [Literal L] (limit : Option Nat) (basic sign : Bool) :
    Formula → Except ConversionError (ClauseSet L)
  | .var name => ofAtom sign (.var name)
  | .rel r => ofAtom sign (.rel r)
  | .not f => distribute limit basic (!sign) f
  | .and f g => do
    let s ← distribute limit basic sign f
    let t ← distribute limit basic sign g
    if sign then conj limit s t else disj limit s t
  | .or f g => do
    let s ← distribute limit basic sign f
    let t ← distribute limit basic sign g
    if sign then disj limit s t else conj limit s t
  | .imp f g => do
    if sign then
      let s ← distribute limit true false f
      let t ← distribute limit true true g
      disj limit s t
    else
      let s ← distribute limit basic true f
      let t ← distribute limit basic false g
      conj limit s t
  | .iff f g => do
    if sign then
      let both ← conj limit (← distribute limit true true f) (← distribute limit true true g)
      let neither ← conj limit (← distribute limit true false f) (← distribute limit true false g)
      disj limit both neither
    else if basic then
      let notBoth ← disj limit (← distribute limit true false f) (← distribute limit true false g)
      let some ← disj limit (← distribute limit true true f) (← distribute limit true true g)
      conj limit notBoth some
    else
      let left ← conj limit (← distribute limit false true f) (← distribute limit false false g)
      let right ← conj limit (← distribute limit false true g) (← distribute limit false false f)
      disj limit left right
  | .all x f => .error (.quantified (if basic then (Formula.all x f).basicOps else .all x f))
  | .ex x f => .error (.quantified (if basic then (Formula.ex x f).basicOps else .ex x f))

/-- The clause set that distribution gives, of any size. -/
def distributed [Literal L] (f : Formula) : Except ConversionError (ClauseSet L) :=
  distribute none false true f

/-- The clause set of a first-order formula: its Skolem form, distributed. -/
def ofFirstOrder (f : Formula) : Except ConversionError (ClauseSet Relation) :=
  distributed f.skolemForm

end ClauseSet

end Deduction
