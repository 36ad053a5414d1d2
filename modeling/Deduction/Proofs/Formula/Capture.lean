import Deduction.Proofs.Formula.Meaning

/-!
# Replacing free variables without capture

Quantifiers keep their names when free variables are replaced, so a variable of a
replacement can fall under a quantifier that has nothing to do with it. Where this
does not happen, replacing variables in a formula is changing the assignment.
-/

namespace Deduction.Formula

universe u

/-- The variables that quantifiers of a formula bind. -/
def binders : Formula → List String
  | var _ => []
  | not f => f.binders
  | and f g => f.binders ++ g.binders
  | or f g => f.binders ++ g.binders
  | imp f g => f.binders ++ g.binders
  | iff f g => f.binders ++ g.binders
  | rel _ => []
  | all x f => x :: f.binders
  | ex x f => x :: f.binders

/-- Whether no variable of a replacement is captured: no quantifier binds a variable of the term
that replaces a free variable of its body. -/
def Admits : (String → Term) → Formula → Prop
  | _, var _ => True
  | σ, not f => f.Admits σ
  | σ, and f g => f.Admits σ ∧ g.Admits σ
  | σ, or f g => f.Admits σ ∧ g.Admits σ
  | σ, imp f g => f.Admits σ ∧ g.Admits σ
  | σ, iff f g => f.Admits σ ∧ g.Admits σ
  | _, rel _ => True
  | σ, all x f => f.Admits (shadow σ x) ∧ ∀ y, f.Free y → y ≠ x → x ∉ (σ y).vars
  | σ, ex x f => f.Admits (shadow σ x) ∧ ∀ y, f.Free y → y ≠ x → x ∉ (σ y).vars

section Shapes

variable (σ : String → Term) (k : Connective) (universal : Bool) (x : String) (f g : Formula)

@[simp] theorem binders_apply : (k.apply f g).binders = f.binders ++ g.binders := by
  cases k <;> rfl

@[simp] theorem binders_quantify : (quantify universal x f).binders = x :: f.binders := by
  cases universal <;> rfl

@[simp] theorem bind_apply : (k.apply f g).bind σ = k.apply (f.bind σ) (g.bind σ) := by
  cases k <;> rfl

@[simp] theorem bind_quantify :
    (quantify universal x f).bind σ = quantify universal x (f.bind (shadow σ x)) := by
  cases universal <;> rfl

@[simp] theorem admits_apply : (k.apply f g).Admits σ ↔ f.Admits σ ∧ g.Admits σ := by
  cases k <;> rfl

@[simp] theorem admits_quantify :
    (quantify universal x f).Admits σ ↔
      f.Admits (shadow σ x) ∧ ∀ y, f.Free y → y ≠ x → x ∉ (σ y).vars := by
  cases universal <;> rfl

end Shapes

theorem shadow_self (σ : String → Term) (x : String) : shadow σ x x = .var x := if_pos rfl

theorem shadow_of_ne {σ : String → Term} {x y : String} (h : y ≠ x) : shadow σ x y = σ y := if_neg h

/-- Under a quantifier the replaced variables have the values that the bound variable leaves
them. -/
theorem value_shadow {D : Type u} {M : Interpretation D} {v : String → D} {σ : String → Term}
    {x y : String} {d : D} (h : y ≠ x → x ∉ (σ y).vars) :
    (shadow σ x y).value M (Function.update v x d) =
      Function.update (fun z => (σ z).value M v) x d y := by
  by_cases hyx : y = x
  · rw [hyx, shadow_self, Term.value, Function.update_self, Function.update_self]
  · rw [shadow_of_ne hyx, Function.update_of_ne hyx]
    refine Term.value_congr fun z hz => Function.update_of_ne ?_ d v
    rintro rfl
    exact h hyx hz

/-- Where nothing is captured, an instance of a formula holds exactly if the formula does under
the assignment of what is put in, whichever propositional variables are true. -/
theorem holdsWith_bind {D : Type u} {M : Interpretation D} {truth : String → Prop}
    {v : String → D} {σ : String → Term} {f : Formula} (h : f.Admits σ) :
    (f.bind σ).HoldsWith M truth v ↔ f.HoldsWith M truth fun x => (σ x).value M v := by
  induction f using shapeInduction generalizing v σ with
  | var name => rfl
  | rel r => exact Relation.holds_bind M v σ r
  | not f ih => exact not_congr (ih h)
  | connective k f g ihf ihg =>
    obtain ⟨hf, hg⟩ := (admits_apply σ k f g).mp h
    rw [bind_apply, holdsWith_apply, holdsWith_apply]
    exact k.joins_congr (ihf hf) (ihg hg)
  | quantifier universal x f ih =>
    obtain ⟨hf, hx⟩ := (admits_quantify σ universal x f).mp h
    rw [bind_quantify, holdsWith_quantify, holdsWith_quantify]
    refine quantifies_congr universal fun d => (ih hf).trans ?_
    exact holdsWith_congr M truth fun y hy => value_shadow (hx y hy)

/-- Where nothing is captured, an instance of a formula holds exactly if the formula does under
the assignment of what is put in. -/
theorem holds_bind {D : Type u} {M : Interpretation D} {v : String → D} {σ : String → Term}
    {f : Formula} (h : f.Admits σ) :
    (f.bind σ).Holds M v ↔ f.Holds M fun x => (σ x).value M v := by
  rw [← holdsWith_rel, ← holdsWith_rel]
  exact holdsWith_bind h

/-- Nothing is captured if every free variable stays what it is or is replaced by a term without
bound names. -/
theorem admits_of_disjoint {σ : String → Term} {f : Formula}
    (h : ∀ y, f.Free y → σ y = .var y ∨ ∀ z ∈ (σ y).vars, z ∉ f.binders) : f.Admits σ := by
  induction f using shapeInduction generalizing σ with
  | var name => trivial
  | rel r => trivial
  | not f ih => exact ih h
  | connective k f g ihf ihg =>
    refine (admits_apply σ k f g).mpr ⟨ihf fun y hy => ?_, ihg fun y hy => ?_⟩
    · refine (h y (free_apply.mpr (Or.inl hy))).imp_right fun hσ z hz hb => hσ z hz ?_
      exact (binders_apply k f g).symm ▸ List.mem_append_left _ hb
    · refine (h y (free_apply.mpr (Or.inr hy))).imp_right fun hσ z hz hb => hσ z hz ?_
      exact (binders_apply k f g).symm ▸ List.mem_append_right _ hb
  | quantifier universal x f ih =>
    rw [binders_quantify] at h
    refine (admits_quantify σ universal x f).mpr ⟨ih fun y hy => ?_, fun y hy hyx hx => ?_⟩
    · by_cases hyx : y = x
      · exact Or.inl (hyx ▸ shadow_self σ x)
      · rw [shadow_of_ne hyx]
        exact (h y (free_quantify.mpr ⟨hyx, hy⟩)).imp_right fun hσ z hz hb =>
          hσ z hz (List.mem_cons_of_mem x hb)
    · rcases h y (free_quantify.mpr ⟨hyx, hy⟩) with hσ | hσ
      · rw [hσ, Term.vars, List.mem_singleton] at hx
        exact hyx hx.symm
      · exact hσ x hx List.mem_cons_self

/-- Replacing free variables keeps all quantifiers. -/
@[simp] theorem binders_bind (σ : String → Term) (f : Formula) :
    (f.bind σ).binders = f.binders := by
  induction f using shapeInduction generalizing σ with
  | var name => rfl
  | rel r => rfl
  | not f ih => exact ih σ
  | connective k f g ihf ihg => rw [bind_apply, binders_apply, binders_apply, ihf, ihg]
  | quantifier universal x f ih => rw [bind_quantify, binders_quantify, binders_quantify, ih]

/-- The normal form of a formula binds the same variables. -/
theorem mem_binders_normalize {x : String} {sign : Bool} {f : Formula} :
    x ∈ (f.normalize sign).binders ↔ x ∈ f.binders := by
  induction f generalizing sign with
  | var name => cases sign <;> rfl
  | rel r => cases sign <;> rfl
  | not f ih => exact ih
  | and f g ihf ihg | or f g ihf ihg | imp f g ihf ihg =>
    cases sign <;> simp [normalize, binders, ihf, ihg]
  | iff f g ihf ihg =>
    simp only [normalize, binders, List.mem_append, ihf, ihg, or_self]
  | all y f ih | ex y f ih => cases sign <;> simp [normalize, binders, ih]

/-- A free variable of an instance comes from the term put in for a free variable. -/
theorem exists_free_of_free_bind {σ : String → Term} {f : Formula} {y : String}
    (h : (f.bind σ).Free y) : ∃ x, f.Free x ∧ y ∈ (σ x).vars := by
  induction f using shapeInduction generalizing σ with
  | var name => exact h.elim
  | rel r => exact (Term.mem_vars_bind (t := .app r.name r.args)).mp h
  | not f ih => exact ih h
  | connective k f g ihf ihg =>
    rw [bind_apply, free_apply] at h
    rcases h with h | h
    · exact (ihf h).imp fun x hx => ⟨free_apply.mpr (Or.inl hx.1), hx.2⟩
    · exact (ihg h).imp fun x hx => ⟨free_apply.mpr (Or.inr hx.1), hx.2⟩
  | quantifier universal z f ih =>
    rw [bind_quantify, free_quantify] at h
    obtain ⟨x, hx, hy⟩ := ih h.2
    by_cases hxz : x = z
    · rw [hxz, shadow_self, Term.vars, List.mem_singleton] at hy
      exact absurd hy h.1
    · rw [shadow_of_ne hxz] at hy
      exact ⟨x, free_quantify.mpr ⟨hxz, hx⟩, hy⟩

/-- Where nothing is captured, all variables of what is put in for a free variable are free. -/
theorem free_bind_of_admits {σ : String → Term} {f : Formula} {x y : String} (h : f.Admits σ)
    (hx : f.Free x) (hy : y ∈ (σ x).vars) : (f.bind σ).Free y := by
  induction f using shapeInduction generalizing σ with
  | var name => exact hx.elim
  | rel r => exact (Term.mem_vars_bind (t := .app r.name r.args)).mpr ⟨x, hx, hy⟩
  | not f ih => exact ih h hx hy
  | connective k f g ihf ihg =>
    obtain ⟨hf, hg⟩ := (admits_apply σ k f g).mp h
    rw [bind_apply, free_apply]
    exact (free_apply.mp hx).imp (ihf hf · hy) (ihg hg · hy)
  | quantifier universal z f ih =>
    obtain ⟨hf, hz⟩ := (admits_quantify σ universal z f).mp h
    obtain ⟨hxz, hxf⟩ := free_quantify.mp hx
    rw [bind_quantify, free_quantify]
    refine ⟨?_, ih hf hxf ((shadow_of_ne hxz).symm ▸ hy)⟩
    rintro rfl
    exact hz x hxf hxz hy

/-- Bound variables are variables of the formula. -/
theorem binders_subset_varNames (f : Formula) : f.binders ⊆ f.varNames := by
  induction f with
  | var name => exact List.Subset.refl []
  | rel r => exact List.nil_subset _
  | not f ih => exact ih
  | and f g ihf ihg | or f g ihf ihg | imp f g ihf ihg | iff f g ihf ihg =>
    exact List.append_subset.mpr
      ⟨List.subset_append_of_subset_left _ ihf, List.subset_append_of_subset_right _ ihg⟩
  | all y f ih | ex y f ih => exact List.cons_subset_cons y ih

section Bound

variable {x y : String} {body : Formula} {t : Term}

/-- A free variable of an instance of a quantifier's body is one of the term or of the
quantified formula. -/
theorem free_instantiateBound (h : (instantiateBound x body t).Free y) :
    y ∈ t.vars ∨ y ≠ x ∧ body.Free y := by
  obtain ⟨z, hz, hy⟩ := exists_free_of_free_bind h
  rw [Term.single] at hy
  split at hy
  · exact Or.inl hy
  next hzx =>
    rw [Term.vars, List.mem_singleton] at hy
    exact Or.inr ⟨hy ▸ hzx, hy ▸ hz⟩

@[simp] theorem binders_instantiateBound : (instantiateBound x body t).binders = body.binders :=
  binders_bind _ _

/-- An instance of a quantifier's body holds exactly if the body does for the value of the
term, unless a variable of the term is captured. -/
theorem holds_instantiateBound {D : Type u} {M : Interpretation D} {v : String → D}
    (h : ∀ z ∈ t.vars, z ∉ body.binders) :
    (instantiateBound x body t).Holds M v ↔
      body.Holds M (Function.update v x (t.value M v)) := by
  have hadmits : body.Admits (Term.single x t) := by
    refine admits_of_disjoint fun y _ => ?_
    rw [Term.single]
    split
    · exact Or.inr h
    · exact Or.inl rfl
  refine (holds_bind hadmits).trans (holds_congr M fun y _ => ?_)
  by_cases hyx : y = x <;> simp [Term.single, hyx, Term.value]

end Bound

end Deduction.Formula
