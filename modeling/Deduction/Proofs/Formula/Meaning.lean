import Deduction.Formula.NegationNormal
import Deduction.Formula.Variables
import Deduction.Proofs.Semantics
import Deduction.Proofs.Shape
import Deduction.Proofs.Valuation
import Mathlib.Logic.Function.Basic

/-!
# Meaning of first-order formulas

A formula holds or fails in an interpretation under an assignment of its variables.
Only the values of its free variables and the meanings of its own symbols count, and
the negation normal form of a formula holds exactly where the formula does. Without
quantifiers, a formula holds where it is true as its atoms are.
-/

namespace Deduction

universe u

variable {D : Type u} (M : Interpretation D)

namespace Term

variable {M} in
/-- Only the values of variables that occur in a term count. -/
theorem value_congr {v w : String → D} {t : Term} (h : ∀ x ∈ t.vars, v x = w x) :
    t.value M v = t.value M w := by
  induction t using Term.induction with
  | var x => exact h x (by simp [vars])
  | const a => rfl
  | app f args ih =>
    simp only [value, valueList_eq_map]
    refine congrArg (M.func f) (List.map_congr_left fun t ht => ih t ht fun x hx => h x ?_)
    rw [vars, varsList_eq_flatMap]
    exact List.mem_flatMap.mpr ⟨t, ht, hx⟩

end Term

/-- Only the values of variables that occur in a relation count. -/
theorem Relation.holds_congr {v w : String → D} {r : Relation} (h : ∀ x ∈ r.vars, v x = w x) :
    r.Holds M v ↔ r.Holds M w := by
  have hargs : Term.valueList M v r.args = Term.valueList M w r.args := by
    simp only [Term.valueList_eq_map]
    refine List.map_congr_left fun t ht => Term.value_congr fun x hx => h x ?_
    rw [vars, Term.varsList_eq_flatMap]
    exact List.mem_flatMap.mpr ⟨t, ht, hx⟩
  rw [Holds, Holds, hargs]

/-- Assignments that agree at other variables agree after the same change of one. -/
theorem update_congr {v w : String → D} {x y : String} (d : D) (h : y ≠ x → v y = w y) :
    Function.update v x d y = Function.update w x d y := by
  by_cases hyx : y = x
  · rw [hyx, Function.update_self, Function.update_self]
  · rw [Function.update_of_ne hyx, Function.update_of_ne hyx]
    exact h hyx

namespace Formula

/-- Whether a formula holds under an assignment. A propositional variable is read as a relation
without arguments. -/
def Holds : (String → D) → Formula → Prop
  | _, var name => M.rel name []
  | v, not f => ¬ f.Holds v
  | v, and f g => f.Holds v ∧ g.Holds v
  | v, or f g => f.Holds v ∨ g.Holds v
  | v, imp f g => f.Holds v → g.Holds v
  | v, iff f g => f.Holds v ↔ g.Holds v
  | v, rel r => r.Holds M v
  | v, all x f => ∀ d, f.Holds (Function.update v x d)
  | v, ex x f => ∃ d, f.Holds (Function.update v x d)

/-- Whether a formula holds under an assignment, with truth values of their own for propositional
variables. -/
def HoldsWith (truth : String → Prop) : (String → D) → Formula → Prop
  | _, var name => truth name
  | v, not f => ¬ f.HoldsWith truth v
  | v, and f g => f.HoldsWith truth v ∧ g.HoldsWith truth v
  | v, or f g => f.HoldsWith truth v ∨ g.HoldsWith truth v
  | v, imp f g => f.HoldsWith truth v → g.HoldsWith truth v
  | v, iff f g => f.HoldsWith truth v ↔ g.HoldsWith truth v
  | v, rel r => r.Holds M v
  | v, all x f => ∀ d, f.HoldsWith truth (Function.update v x d)
  | v, ex x f => ∃ d, f.HoldsWith truth (Function.update v x d)

/-- What a connective says of two statements. -/
def Connective.Joins : Connective → Prop → Prop → Prop
  | and, p, q => p ∧ q
  | or, p, q => p ∨ q
  | imp, p, q => p → q
  | iff, p, q => p ↔ q

/-- What a quantifier says of the elements of a domain. -/
def Quantifies (universal : Bool) (p : D → Prop) : Prop := if universal then ∀ d, p d else ∃ d, p d

theorem holds_apply (v : String → D) (k : Connective) (f g : Formula) :
    (k.apply f g).Holds M v ↔ k.Joins (f.Holds M v) (g.Holds M v) := by
  cases k <;> rfl

theorem holds_quantify (v : String → D) (universal : Bool) (x : String) (f : Formula) :
    (quantify universal x f).Holds M v ↔
      Quantifies universal fun d => f.Holds M (Function.update v x d) := by
  cases universal <;> rfl

theorem holdsWith_apply (truth : String → Prop) (v : String → D) (k : Connective)
    (f g : Formula) :
    (k.apply f g).HoldsWith M truth v ↔
      k.Joins (f.HoldsWith M truth v) (g.HoldsWith M truth v) := by
  cases k <;> rfl

theorem holdsWith_quantify (truth : String → Prop) (v : String → D) (universal : Bool)
    (x : String) (f : Formula) :
    (quantify universal x f).HoldsWith M truth v ↔
      Quantifies universal fun d => f.HoldsWith M truth (Function.update v x d) := by
  cases universal <;> rfl

/-- Reading propositional variables as relations gives them truth values. -/
theorem holdsWith_rel (v : String → D) (f : Formula) :
    f.HoldsWith M (fun name => M.rel name []) v ↔ f.Holds M v := by
  induction f generalizing v with
  | var name | rel r => rfl
  | not f ih => exact not_congr (ih v)
  | and f g ihf ihg => exact and_congr (ihf v) (ihg v)
  | or f g ihf ihg => exact or_congr (ihf v) (ihg v)
  | imp f g ihf ihg => exact imp_congr (ihf v) (ihg v)
  | iff f g ihf ihg => exact iff_congr (ihf v) (ihg v)
  | all x f ih => exact forall_congr' fun d => ih _
  | ex x f ih => exact exists_congr fun d => ih _

theorem Connective.joins_congr (k : Connective) {p p' q q' : Prop} (hp : p ↔ p') (hq : q ↔ q') :
    k.Joins p q ↔ k.Joins p' q' := by
  rw [hp, hq]

theorem quantifies_congr (universal : Bool) {p q : D → Prop} (h : ∀ d, p d ↔ q d) :
    Quantifies universal p ↔ Quantifies universal q := by
  rw [funext fun d => propext (h d)]

/-- Whether a variable has an occurrence outside every quantifier of the same name. -/
def Free (x : String) : Formula → Prop
  | var _ => False
  | not f => f.Free x
  | and f g => f.Free x ∨ g.Free x
  | or f g => f.Free x ∨ g.Free x
  | imp f g => f.Free x ∨ g.Free x
  | iff f g => f.Free x ∨ g.Free x
  | rel r => x ∈ r.vars
  | all y f => x ≠ y ∧ f.Free x
  | ex y f => x ≠ y ∧ f.Free x

theorem free_apply {x : String} {k : Connective} {f g : Formula} :
    (k.apply f g).Free x ↔ f.Free x ∨ g.Free x := by
  cases k <;> rfl

theorem free_quantify {x y : String} {universal : Bool} {f : Formula} :
    (quantify universal y f).Free x ↔ x ≠ y ∧ f.Free x := by
  cases universal <;> rfl

theorem freeOccurrences_apply (bound : List String) (k : Connective) (f g : Formula) :
    (k.apply f g).freeOccurrences bound = f.freeOccurrences bound ++ g.freeOccurrences bound := by
  cases k <;> rfl

theorem freeOccurrences_quantify (bound : List String) (universal : Bool) (x : String)
    (f : Formula) :
    (quantify universal x f).freeOccurrences bound = f.freeOccurrences (x :: bound) := by
  cases universal <;> rfl

theorem mem_freeOccurrences {x : String} {bound : List String} {f : Formula} :
    x ∈ f.freeOccurrences bound ↔ f.Free x ∧ x ∉ bound := by
  induction f using shapeInduction generalizing bound with
  | var name => simp [freeOccurrences, Free]
  | rel r => simp [freeOccurrences, Free]
  | not f ih => exact ih
  | connective k f g ihf ihg =>
    rw [freeOccurrences_apply, free_apply, List.mem_append, ihf, ihg, or_and_right]
  | quantifier universal y f ih =>
    rw [freeOccurrences_quantify, free_quantify, ih, List.mem_cons, not_or]
    exact ⟨fun ⟨hf, hne, hb⟩ => ⟨⟨hne, hf⟩, hb⟩, fun ⟨⟨hne, hf⟩, hb⟩ => ⟨hf, hne, hb⟩⟩

/-- The free variables that are listed are those with a free occurrence. -/
theorem mem_freeVars {x : String} {f : Formula} : x ∈ f.freeVars ↔ f.Free x := by
  rw [freeVars, List.mem_eraseDups, mem_freeOccurrences, and_iff_left List.not_mem_nil]

theorem not_free_of_closed {f : Formula} (h : f.freeVars = []) (x : String) : ¬ f.Free x := by
  rw [← mem_freeVars, h]
  exact List.not_mem_nil

/-- Only the values of free variables count, whichever propositional variables are true. -/
theorem holdsWith_congr (truth : String → Prop) {v w : String → D} {f : Formula}
    (h : ∀ x, f.Free x → v x = w x) : f.HoldsWith M truth v ↔ f.HoldsWith M truth w := by
  induction f using shapeInduction generalizing v w with
  | var name => rfl
  | rel r => exact Relation.holds_congr M h
  | not f ih => exact not_congr (ih h)
  | connective k f g ihf ihg =>
    rw [holdsWith_apply, holdsWith_apply]
    exact k.joins_congr (ihf fun x hx => h x (free_apply.mpr (Or.inl hx)))
      (ihg fun x hx => h x (free_apply.mpr (Or.inr hx)))
  | quantifier universal y f ih =>
    rw [holdsWith_quantify, holdsWith_quantify]
    refine quantifies_congr universal fun d => ih fun x hx => update_congr d fun hxy => ?_
    exact h x (free_quantify.mpr ⟨hxy, hx⟩)

/-- Only the values of free variables count. -/
theorem holds_congr {v w : String → D} {f : Formula} (h : ∀ x, f.Free x → v x = w x) :
    f.Holds M v ↔ f.Holds M w := by
  rw [← holdsWith_rel, ← holdsWith_rel]
  exact holdsWith_congr M _ h

/-- Where no variable is free the assignment does not count. -/
theorem holds_of_closed {f : Formula} (hf : ∀ x, ¬ f.Free x) {v : String → D}
    (h : f.Holds M v) (w : String → D) : f.Holds M w :=
  (holds_congr M fun x hx => absurd hx (hf x)).mp h

/-- Whether a formula holds under every assignment. -/
def TrueIn (f : Formula) : Prop := ∀ v : String → D, f.Holds M v

/-- Whether a formula holds nowhere. -/
def Unsatisfiable (f : Formula) : Prop :=
  ∀ (D : Type u) [Nonempty D] (M : Interpretation D) (v : String → D), ¬ f.Holds M v

/-- The normal form of a formula holds where the formula does, that of its negation where it
fails. -/
theorem holdsWith_normalize (truth : String → Prop) (v : String → D) (f : Formula) :
    ((f.normalize true).HoldsWith M truth v ↔ f.HoldsWith M truth v) ∧
      ((f.normalize false).HoldsWith M truth v ↔ ¬ f.HoldsWith M truth v) := by
  induction f generalizing v with
  | var name => exact ⟨Iff.rfl, Iff.rfl⟩
  | rel r => exact ⟨Iff.rfl, Iff.rfl⟩
  | not f ih => exact ⟨(ih v).2, (ih v).1.trans not_not.symm⟩
  | and f g ihf ihg =>
    simp only [normalize, if_true, Bool.false_eq_true, if_false, HoldsWith, ihf, ihg, true_and]
    exact not_and_or.symm
  | or f g ihf ihg =>
    simp only [normalize, if_true, Bool.false_eq_true, if_false, HoldsWith, ihf, ihg, true_and]
    exact not_or.symm
  | imp f g ihf ihg =>
    simp only [normalize, if_true, Bool.false_eq_true, if_false, HoldsWith, ihf, ihg]
    exact ⟨imp_iff_not_or.symm, Classical.not_imp.symm⟩
  | iff f g ihf ihg =>
    simp only [normalize, Bool.not_true, Bool.not_false, HoldsWith, ihf, ihg]
    exact ⟨iff_iff_and_or_not_and_not.symm, by grind⟩
  | all x f ih =>
    simp only [normalize, if_true, Bool.false_eq_true, if_false, HoldsWith, ih, true_and]
    exact not_forall.symm
  | ex x f ih =>
    simp only [normalize, if_true, Bool.false_eq_true, if_false, HoldsWith, ih, true_and]
    exact not_exists.symm

/-- The negation normal form holds exactly where the formula does. -/
theorem holds_negationNormal (v : String → D) (f : Formula) :
    f.negationNormal.Holds M v ↔ f.Holds M v := by
  rw [← holdsWith_rel, ← holdsWith_rel]
  exact (holdsWith_normalize M _ v f).1

/-- Normal forms have the same free variables. -/
theorem free_normalize {x : String} {sign : Bool} {f : Formula} :
    (f.normalize sign).Free x ↔ f.Free x := by
  induction f generalizing sign with
  | var name => cases sign <;> rfl
  | rel r => cases sign <;> rfl
  | not f ih => exact ih
  | and f g ihf ihg | or f g ihf ihg | imp f g ihf ihg =>
    cases sign <;> simp [normalize, Free, ihf, ihg]
  | iff f g ihf ihg => simp [normalize, Free, ihf, ihg]
  | all y f ih | ex y f ih => cases sign <;> simp [normalize, Free, ih]

/-- A formula without quantifiers holds where a valuation makes it true that agrees on its atoms. -/
theorem holds_iff_eval {L : Type} [Literal L] {val : L → Bool} {v : String → D}
    {isAtom : Formula → Prop} (hatom : ∀ a, isAtom a → (a.Holds M v ↔ a.eval val = true))
    {f : Formula} (hf : f.Composed isAtom) : f.Holds M v ↔ f.eval val = true := by
  induction f using shapeInduction with
  | var name => exact hatom _ (composed_var.mp hf)
  | rel r => exact hatom _ (composed_rel.mp hf)
  | not f ih =>
    rw [Holds, ih (composed_not.mp hf), eval]
    simp
  | connective k f g ihf ihg =>
    obtain ⟨hf, hg⟩ := composed_apply.mp hf
    rw [holds_apply, k.joins_congr (ihf hf) (ihg hg), eval_apply]
    cases k <;> cases f.eval val <;> cases g.eval val <;> simp [Connective.Joins, Connective.truth]
  | quantifier universal x f =>
    cases universal with
    | true => exact absurd hf not_composed_all
    | false => exact absurd hf not_composed_ex

end Formula

end Deduction
