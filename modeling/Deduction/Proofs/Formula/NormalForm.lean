import Deduction.Proofs.Formula.Meaning

/-!
# Negation normal forms

In a negation normal form there are no implications and no equivalences, and only atomic
formulas are negated. The normal form that is computed for a formula is of this kind, it
says the same as the formula about the same free variables, and a formula that is of
this kind already is left as it is.
-/

namespace Deduction.Formula

universe u

/-- Whether a formula is a propositional variable or a relation. -/
def isAtomic : Formula → Bool
  | var _ => true
  | rel _ => true
  | _ => false

/-- Whether a formula has no implications and no equivalences, and negations of atomic formulas
only. -/
def isNegationNormal : Formula → Bool
  | var _ => true
  | rel _ => true
  | not f => f.isAtomic
  | and f g => f.isNegationNormal && g.isNegationNormal
  | or f g => f.isNegationNormal && g.isNegationNormal
  | imp _ _ => false
  | iff _ _ => false
  | all _ f => f.isNegationNormal
  | ex _ f => f.isNegationNormal

/-- Normal forms of a formula and of its negation are negation normal forms. -/
theorem isNegationNormal_normalize (sign : Bool) (f : Formula) :
    (f.normalize sign).isNegationNormal = true := by
  induction f generalizing sign with
  | var name | rel r => cases sign <;> rfl
  | not f ih => exact ih !sign
  | and f g ihf ihg | or f g ihf ihg | imp f g ihf ihg =>
    cases sign <;> simp [normalize, isNegationNormal, ihf, ihg]
  | iff f g ihf ihg => simp [normalize, isNegationNormal, ihf, ihg]
  | all x f ih | ex x f ih => cases sign <;> simp [normalize, isNegationNormal, ih]

/-- The negation of an atomic formula is its own normal form. -/
theorem normalize_not_of_isAtomic {f : Formula} (h : f.isAtomic = true) :
    (not f).normalize true = not f := by
  cases f with
  | var name | rel r => rfl
  | not | and | or | imp | iff | all | ex => cases h

/-- A negation normal form is its own normal form. -/
theorem normalize_of_isNegationNormal {f : Formula} (h : f.isNegationNormal = true) :
    f.normalize true = f := by
  induction f with
  | var name | rel r => rfl
  | not f => exact normalize_not_of_isAtomic h
  | and f g ihf ihg | or f g ihf ihg =>
    obtain ⟨hf, hg⟩ := Bool.and_eq_true_iff.mp h
    simp [normalize, ihf hf, ihg hg]
  | imp f g | iff f g => cases h
  | all x f ih | ex x f ih => simp [normalize, ih h]

/-- The formulas that are left as they are, are the negation normal forms. -/
theorem negationNormal_eq_self_iff {f : Formula} :
    f.negationNormal = f ↔ f.isNegationNormal = true := by
  refine ⟨fun h => ?_, normalize_of_isNegationNormal⟩
  rw [← h]
  exact isNegationNormal_normalize true f

/-- The negation normal form of a formula holds in every interpretation, whichever propositional
variables are true, under the same assignments as the formula. It is a negation normal form, has
the same free variables, and is its own normal form. -/
theorem negationNormal_equivalent (f : Formula) :
    (∀ (D : Type u) (M : Interpretation D) (truth : String → Prop) (v : String → D),
      f.negationNormal.HoldsWith M truth v ↔ f.HoldsWith M truth v) ∧
    f.negationNormal.isNegationNormal = true ∧
    (∀ x, x ∈ f.negationNormal.freeVars ↔ x ∈ f.freeVars) ∧
    f.negationNormal.negationNormal = f.negationNormal := by
  have hnormal := isNegationNormal_normalize true f
  refine ⟨fun D M truth v => (holdsWith_normalize M truth v f).1, hnormal, fun x => ?_,
    negationNormal_eq_self_iff.mpr hnormal⟩
  rw [mem_freeVars, mem_freeVars]
  exact free_normalize

/-- A negated equivalence under a negated quantifier. -/
example :
    (not (all "X" (iff (rel ⟨"P", [.var "X"]⟩) (not (var "q"))))).negationNormal =
      ex "X" (or (and (rel ⟨"P", [.var "X"]⟩) (var "q"))
        (and (not (rel ⟨"P", [.var "X"]⟩)) (not (var "q")))) := by
  decide

end Deduction.Formula
