import Deduction.Formula.NegationNormal
import Deduction.Formula.Variables
import Deduction.Text.Decimal

/-!
# Skolem form

A formula is brought into negation normal form while its quantifiers are
removed. A variable that is universal at its place stays free under a name of
its own: the first quantifier over `X` keeps `X`, later ones get `X_1`, `X_2`
and so on. A variable that is existential at its place becomes a Skolem symbol
`sk1`, `sk2`, … applied to the universal variables in whose scope it stands.
-/

namespace Deduction.Formula

/-- The names handed out so far. -/
structure SkolemNames where
  /-- The variables of the universal quantifiers met so far. -/
  universal : List String
  /-- The number of Skolem symbols handed out. -/
  symbolCount : Nat
  deriving DecidableEq, Repr, Inhabited

/-- The name of a universal variable, told apart from earlier quantifiers over it. -/
def nameUniversal (x : String) : StateM SkolemNames String := do
  let names ← get
  set { names with universal := x :: names.universal }
  match names.universal.count x with
  | 0 => return x
  | n => return x ++ "_" ++ Decimal.render n

/-- The Skolem term for an existential variable under universal ones. -/
def skolemTerm (scope : List String) : StateM SkolemNames Term := do
  let names ← get
  let n := names.symbolCount + 1
  set { names with symbolCount := n }
  let symbol := "sk" ++ Decimal.render n
  if scope.isEmpty then return .const symbol
  else return .app symbol (scope.map .var)

/-- A replacement with one more binding in front. -/
def extendEnv (env : String → Term) (x : String) (t : Term) : String → Term := fun y =>
  if y = x then t else env y

/-- The Skolem form of a formula, or of its negation if the sign is negative, under the
universal variables `scope` and the replacements `env` of the quantifiers around it. -/
def skolemWith (sign : Bool) (scope : List String) (env : String → Term) :
    Formula → StateM SkolemNames Formula
  | var name => return signed sign (var name)
  | rel r => return signed sign (rel (r.bind env))
  | not f => f.skolemWith (!sign) scope env
  | and f g => do
    let p ← f.skolemWith sign scope env
    let q ← g.skolemWith sign scope env
    return if sign then and p q else or p q
  | or f g => do
    let p ← f.skolemWith sign scope env
    let q ← g.skolemWith sign scope env
    return if sign then or p q else and p q
  | imp f g => do
    let p ← f.skolemWith (!sign) scope env
    let q ← g.skolemWith sign scope env
    return if sign then or p q else and p q
  | iff f g => do
    let p ← f.skolemWith sign scope env
    let q ← g.skolemWith sign scope env
    let p' ← f.skolemWith (!sign) scope env
    let q' ← g.skolemWith (!sign) scope env
    return if sign then or (and p q) (and p' q') else and (or p q) (or p' q')
  | all x f => do
    if sign then
      let name ← nameUniversal x
      f.skolemWith sign (scope ++ [name]) (extendEnv env x (.var name))
    else
      let t ← skolemTerm scope
      f.skolemWith sign scope (extendEnv env x t)
  | ex x f => do
    if sign then
      let t ← skolemTerm scope
      f.skolemWith sign scope (extendEnv env x t)
    else
      let name ← nameUniversal x
      f.skolemWith sign (scope ++ [name]) (extendEnv env x (.var name))

/-- The Skolem form of a formula: quantifier-free, its free variables read as universal. -/
def skolemForm (f : Formula) : Formula := ((f.skolemWith true [] .var).run ⟨[], 0⟩).1

end Deduction.Formula
