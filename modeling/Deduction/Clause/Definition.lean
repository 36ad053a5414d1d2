import Deduction.Clause.Distribution

/-!
# Clause form by definition

Every subformula gets a name, and clauses state what the name stands for in
terms of the names of its parts. The first clause asserts the name of the whole
formula. The clauses are satisfiable together if and only if the formula is, and
there are at most four for each connective.
-/

namespace Deduction.ClauseSet

/-- The name of a propositional subformula at a position; a variable has the same name at every
position. Other formulas have no name. -/
def label (i : Nat) : Formula → String
  | .var name => "var" ++ name
  | .not _ => "not" ++ Decimal.render i
  | .and _ _ => "and" ++ Decimal.render i
  | .or _ _ => "or" ++ Decimal.render i
  | .imp _ _ => "impl" ++ Decimal.render i
  | .iff _ _ => "equiv" ++ Decimal.render i
  | _ => ""

/-- A clause over names, each with its sign. -/
def ofNames (atoms : List (String × Bool)) : Clause String :=
  ⟨atoms.map fun a => ⟨a.1, !a.2⟩⟩

/-- The clauses saying that `s` is the negation of `c`. -/
def defineNot (s c : String) : List (Clause String) :=
  [ofNames [(c, false), (s, false)], ofNames [(c, true), (s, true)]]

/-- The clauses saying that `s` is the conjunction of `l` and `r`. -/
def defineAnd (s l r : String) : List (Clause String) :=
  [ofNames [(l, true), (s, false)], ofNames [(r, true), (s, false)],
    ofNames [(l, false), (r, false), (s, true)]]

/-- The clauses saying that `s` is the disjunction of `l` and `r`. -/
def defineOr (s l r : String) : List (Clause String) :=
  [ofNames [(l, false), (s, true)], ofNames [(r, false), (s, true)],
    ofNames [(l, true), (r, true), (s, false)]]

/-- The clauses saying that `s` is the implication from `l` to `r`. -/
def defineImp (s l r : String) : List (Clause String) :=
  [ofNames [(l, true), (s, true)], ofNames [(r, false), (s, true)],
    ofNames [(l, false), (r, true), (s, false)]]

/-- The clauses saying that `s` is the equivalence of `l` and `r`. -/
def defineIff (s l r : String) : List (Clause String) :=
  [ofNames [(l, true), (r, false), (s, false)], ofNames [(l, false), (r, true), (s, false)],
    ofNames [(l, false), (r, false), (s, true)], ofNames [(l, true), (r, true), (s, true)]]

/-- The clauses that define the names of all subformulas, and the next free position.
Positions are numbered with a formula before its parts and the left part before the right. -/
def define (i : Nat) : Formula → Except ConversionError (List (Clause String) × Nat)
  | .var _ => .ok ([], i + 1)
  | .not f => do
    let (cs, j) ← define (i + 1) f
    return (cs ++ defineNot (label i (.not f)) (label (i + 1) f), j)
  | .and f g => do
    let (cs, j) ← define (i + 1) f
    let (ds, k) ← define j g
    return (cs ++ ds ++ defineAnd (label i (.and f g)) (label (i + 1) f) (label j g), k)
  | .or f g => do
    let (cs, j) ← define (i + 1) f
    let (ds, k) ← define j g
    return (cs ++ ds ++ defineOr (label i (.or f g)) (label (i + 1) f) (label j g), k)
  | .imp f g => do
    let (cs, j) ← define (i + 1) f
    let (ds, k) ← define j g
    return (cs ++ ds ++ defineImp (label i (.imp f g)) (label (i + 1) f) (label j g), k)
  | .iff f g => do
    let (cs, j) ← define (i + 1) f
    let (ds, k) ← define j g
    return (cs ++ ds ++ defineIff (label i (.iff f g)) (label (i + 1) f) (label j g), k)
  | .rel r => .error (.notPropositional (.rel r))
  | .all x f => .error (.quantified (.all x f))
  | .ex x f => .error (.quantified (.ex x f))

/-- The clause set that definition gives: the formula is asserted, then its names defined. -/
def defined (f : Formula) : Except ConversionError (ClauseSet String) := do
  let (clauses, _) ← define 0 f
  return ⟨ofNames [(label 0 f, true)] :: clauses⟩

end Deduction.ClauseSet
