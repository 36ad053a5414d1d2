import Deduction.Clause
import Deduction.Proofs.Shape

/-!
# Truth under a valuation

A formula without quantifiers is true or false as soon as its atoms are. A
valuation gives a truth value to every literal of one of the two logics, and with
it to clauses and clause sets over these literals. The value of a formula depends
on the values of its own atoms only.
-/

namespace Deduction

variable {L : Type}

namespace Formula

/-- The atomic subformulas of a formula from left to right, with repetitions. -/
def atoms : Formula → List Formula
  | var name => [var name]
  | not f => f.atoms
  | and f g => f.atoms ++ g.atoms
  | or f g => f.atoms ++ g.atoms
  | imp f g => f.atoms ++ g.atoms
  | iff f g => f.atoms ++ g.atoms
  | rel r => [rel r]
  | all _ f => f.atoms
  | ex _ f => f.atoms

theorem atoms_apply (k : Connective) (f g : Formula) :
    (k.apply f g).atoms = f.atoms ++ g.atoms := by
  cases k <;> rfl

theorem atoms_quantify (universal : Bool) (x : String) (f : Formula) :
    (quantify universal x f).atoms = f.atoms := by
  cases universal <;> rfl

/-- The value of an atomic formula under a valuation; one of the other logic is false. -/
def atomValue [Literal L] (val : L → Bool) (f : Formula) : Bool :=
  ((Literal.ofFormula? f).map val).getD false

/-- The value of a formula without quantifiers under a valuation of its atoms. -/
def eval [Literal L] (val : L → Bool) : Formula → Bool
  | var name => atomValue val (var name)
  | not f => !f.eval val
  | and f g => f.eval val && g.eval val
  | or f g => f.eval val || g.eval val
  | imp f g => !f.eval val || g.eval val
  | iff f g => f.eval val == g.eval val
  | rel r => atomValue val (rel r)
  | all _ _ => false
  | ex _ _ => false

/-- The truth value that a connective makes of two. -/
def Connective.truth : Connective → Bool → Bool → Bool
  | and, a, b => a && b
  | or, a, b => a || b
  | imp, a, b => !a || b
  | iff, a, b => a == b

theorem eval_apply [Literal L] (val : L → Bool) (k : Connective) (f g : Formula) :
    (k.apply f g).eval val = k.truth (f.eval val) (g.eval val) := by
  cases k <;> rfl

@[simp] theorem eval_var (val : String → Bool) (x : String) : (var x).eval val = val x := rfl

/-- The value of a formula depends on the values of its own variables only. -/
theorem eval_congr {f : Formula} {v w : String → Bool} (h : ∀ x, var x ∈ f.atoms → v x = w x) :
    f.eval v = f.eval w := by
  induction f using shapeInduction with
  | var name => exact h name (by simp [atoms])
  | rel r => rfl
  | not f ih => rw [eval, eval, ih h]
  | connective k f g ihf ihg =>
    simp only [atoms_apply, List.mem_append, or_imp, forall_and] at h
    rw [eval_apply, eval_apply, ihf h.1, ihg h.2]
  | quantifier universal x f => cases universal <;> rfl

/-- The atomic formulas of propositional logic. -/
def IsVariable (f : Formula) : Prop := ∃ x, f = var x

/-- The atomic formulas of first-order logic. -/
def IsRelation (f : Formula) : Prop := ∃ r, f = rel r

/-- A formula without quantifiers whose atoms all have a property. -/
def Composed (isAtom : Formula → Prop) (f : Formula) : Prop :=
  f.quantifierFree = true ∧ ∀ a ∈ f.atoms, isAtom a

section Composed

variable {p : Formula → Prop} {f g : Formula}

@[simp] theorem composed_var {name : String} : Composed p (var name) ↔ p (var name) := by
  simp [Composed, quantifierFree, atoms]

@[simp] theorem composed_rel {r : Relation} : Composed p (rel r) ↔ p (rel r) := by
  simp [Composed, quantifierFree, atoms]

@[simp] theorem composed_not : Composed p (not f) ↔ Composed p f := Iff.rfl

theorem composed_apply {k : Connective} :
    Composed p (k.apply f g) ↔ Composed p f ∧ Composed p g := by
  have hboth : ((f.quantifierFree && g.quantifierFree) = true ∧
      ∀ a ∈ f.atoms ++ g.atoms, p a) ↔ Composed p f ∧ Composed p g := by
    simp only [Composed, Bool.and_eq_true, List.mem_append, or_imp, forall_and]
    exact and_and_and_comm
  cases k <;> exact hboth

@[simp] theorem not_composed_all {x : String} : ¬ Composed p (all x f) := by
  simp [Composed, quantifierFree]

@[simp] theorem not_composed_ex {x : String} : ¬ Composed p (ex x f) := by
  simp [Composed, quantifierFree]

end Composed

end Formula

/-- The value of an atom under a valuation. -/
def Atom.eval (val : L → Bool) (a : Atom L) : Bool := val a.lit != a.negated

/-- Of an atom and its complement exactly one is true. -/
theorem Atom.eval_complement (val : L → Bool) (a : Atom L) :
    a.complement.eval val = true ↔ ¬ a.eval val = true := by
  cases hval : val a.lit <;> cases hneg : a.negated <;> simp [eval, complement, hval, hneg]

/-- The value of a clause under a valuation: one of its atoms is true. -/
def Clause.eval (val : L → Bool) (c : Clause L) : Bool := c.atoms.any (Atom.eval val)

theorem Clause.eval_eq_true {val : L → Bool} {c : Clause L} :
    c.eval val = true ↔ ∃ a ∈ c.atoms, a.eval val = true := List.any_eq_true

/-- The value of a clause set under a valuation: all its clauses are true. -/
def ClauseSet.eval (val : L → Bool) (s : ClauseSet L) : Bool := s.clauses.all (Clause.eval val)

theorem ClauseSet.eval_eq_true {val : L → Bool} {s : ClauseSet L} :
    s.eval val = true ↔ ∀ c ∈ s.clauses, ∃ a ∈ c.atoms, a.eval val = true := by
  simp only [eval, Clause.eval, List.all_eq_true, List.any_eq_true]

end Deduction
