import Deduction.Clause.Definition

/-!
# Choice of the clause form

The default strategy distributes as long as this gives no more clauses than
definition does, and never more than a fixed number.
-/

namespace Deduction

/-- How a propositional formula is brought into clause form. -/
inductive Strategy where
  /-- By distribution. -/
  | naive
  /-- By definition. -/
  | tseytin
  /-- By distribution unless definition gives fewer clauses. -/
  | optimal
  deriving DecidableEq, Repr, Inhabited

namespace Strategy

/-- The number of clauses above which the optimal strategy never distributes. -/
def blowupLimit : Nat := 10000

/-- The clause set of a propositional formula. -/
def clauses (strategy : Strategy) (f : Formula) : Except ConversionError (ClauseSet String) :=
  match strategy with
  | naive => ClauseSet.distributed f
  | tseytin => ClauseSet.defined f
  | optimal => do
    let defined ← ClauseSet.defined f
    match ClauseSet.distribute (some (min defined.size blowupLimit)) false true f with
    | .ok distributed => return distributed
    | .error _ => return defined

end Strategy

end Deduction
