/-!
# First-order terms and relations

A term is a variable, a constant or a function applied to arguments; a relation
is a predicate symbol applied to terms. `Term.bind` replaces all variables at
once, and every other replacement of variables is an instance of it.
-/

namespace Deduction

/-- A first-order term. -/
inductive Term where
  /-- A variable, bound by a quantifier or read as universally quantified. -/
  | var (name : String)
  /-- A constant symbol. -/
  | const (name : String)
  /-- A function symbol with its arguments. -/
  | app (symbol : String) (args : List Term)
  deriving Repr, Inhabited

namespace Term

mutual

/-- Decide whether two terms are spelled alike. -/
def decEq : (s t : Term) → Decidable (s = t)
  | .var x, .var y => decidable_of_iff (x = y) (by simp)
  | .const a, .const b => decidable_of_iff (a = b) (by simp)
  | .app f as, .app g bs =>
    have := decEqList as bs
    decidable_of_iff (f = g ∧ as = bs) (by simp)
  | .var _, .const _ => .isFalse (by simp)
  | .var _, .app _ _ => .isFalse (by simp)
  | .const _, .var _ => .isFalse (by simp)
  | .const _, .app _ _ => .isFalse (by simp)
  | .app _ _, .var _ => .isFalse (by simp)
  | .app _ _, .const _ => .isFalse (by simp)

/-- Decide whether two argument lists are spelled alike. -/
def decEqList : (ss ts : List Term) → Decidable (ss = ts)
  | [], [] => .isTrue rfl
  | [], _ :: _ => .isFalse (by simp)
  | _ :: _, [] => .isFalse (by simp)
  | s :: ss, t :: ts =>
    have := decEq s t
    have := decEqList ss ts
    decidable_of_iff (s = t ∧ ss = ts) (by simp)

end

instance : DecidableEq Term := decEq

/-- Whether a term is a variable. -/
def isVar : Term → Bool
  | .var _ => true
  | _ => false

mutual

/-- The variables of a term from left to right, with repetitions. -/
def vars : Term → List String
  | .var x => [x]
  | .const _ => []
  | .app _ args => varsList args

/-- The variables of an argument list from left to right, with repetitions. -/
def varsList : List Term → List String
  | [] => []
  | t :: ts => vars t ++ varsList ts

end

/-- Whether a variable occurs in a term. -/
def occurs (t : Term) (x : String) : Bool := t.vars.contains x

mutual

/-- The constant and function symbols of a term from left to right, with repetitions. -/
def symbols : Term → List String
  | .var _ => []
  | .const a => [a]
  | .app f args => f :: symbolsList args

/-- The constant and function symbols of an argument list. -/
def symbolsList : List Term → List String
  | [] => []
  | t :: ts => symbols t ++ symbolsList ts

end

mutual

/-- The number of symbols and variables in a term. -/
def size : Term → Nat
  | .var _ => 1
  | .const _ => 1
  | .app _ args => sizeList args + 1

/-- The number of symbols and variables in an argument list. -/
def sizeList : List Term → Nat
  | [] => 0
  | t :: ts => size t + sizeList ts

end

mutual

/-- Replace every variable `x` by `σ x`, all at once. -/
def bind (σ : String → Term) : Term → Term
  | .var x => σ x
  | .const a => .const a
  | .app f args => .app f (bindList σ args)

/-- Replace every variable of an argument list. -/
def bindList (σ : String → Term) : List Term → List Term
  | [] => []
  | t :: ts => bind σ t :: bindList σ ts

end

/-- The replacement of one variable by a term. -/
def single (x : String) (t : Term) : String → Term := fun y => if y = x then t else .var y

/-- The replacement given by a list of bindings, where the last binding of a variable counts. -/
def latest (bindings : List (String × Term)) : String → Term := fun x =>
  ((bindings.reverse.find? fun b => b.1 = x).map Prod.snd).getD (.var x)

mutual

/-- The text of a term, such as `f(a, X)`. -/
def render : Term → String
  | .var x => x
  | .const a => a
  | .app f args => f ++ "(" ++ String.intercalate ", " (renderList args) ++ ")"

/-- The texts of the arguments. -/
def renderList : List Term → List String
  | [] => []
  | t :: ts => render t :: renderList ts

end

theorem varsList_eq_flatMap (ts : List Term) : varsList ts = ts.flatMap vars := by
  induction ts with
  | nil => rfl
  | cons t ts ih => simp [varsList, ih]

theorem symbolsList_eq_flatMap (ts : List Term) : symbolsList ts = ts.flatMap symbols := by
  induction ts with
  | nil => rfl
  | cons t ts ih => simp [symbolsList, ih]

theorem bindList_eq_map (σ : String → Term) (ts : List Term) :
    bindList σ ts = ts.map (bind σ) := by
  induction ts with
  | nil => rfl
  | cons t ts ih => simp [bindList, ih]

theorem renderList_eq_map (ts : List Term) : renderList ts = ts.map render := by
  induction ts with
  | nil => rfl
  | cons t ts ih => simp [renderList, ih]

theorem size_pos (t : Term) : 0 < t.size := by
  cases t <;> simp [size]

end Term

/-- A predicate symbol applied to terms. -/
structure Relation where
  /-- The predicate symbol. -/
  name : String
  /-- Its arguments. -/
  args : List Term
  deriving DecidableEq, Repr, Inhabited

namespace Relation

/-- The variables of a relation from left to right, with repetitions. -/
def vars (r : Relation) : List String := Term.varsList r.args

/-- The constant and function symbols of a relation from left to right. -/
def symbols (r : Relation) : List String := Term.symbolsList r.args

/-- Replace every variable of a relation. -/
def bind (σ : String → Term) (r : Relation) : Relation := ⟨r.name, Term.bindList σ r.args⟩

/-- Whether two relations agree in name and number of arguments. -/
def sameSymbol (r s : Relation) : Bool := r.name == s.name && r.args.length == s.args.length

/-- The text of a relation; the brackets stand even when there are no arguments. -/
def render (r : Relation) : String :=
  r.name ++ "(" ++ String.intercalate ", " (Term.renderList r.args) ++ ")"

end Relation

end Deduction
