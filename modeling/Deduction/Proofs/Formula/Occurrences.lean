import Deduction.Proofs.Distinct
import Deduction.Proofs.Formula.Capture

/-!
# Free occurrences and instances

Every occurrence of a variable stands under the quantifiers on the way down to it, and it
is free if none of them binds the variable. The free variables of a formula are listed in
the order of their first free occurrences, each of them once. An instance of a formula
means what the formula means under the values of the terms put in, and its free variables
are those of these terms, as long as no variable of a term falls under a quantifier.
-/

namespace Deduction.Formula

universe u

/-- The occurrences of variables from left to right, each with the variables that are bound on the
way down to it, the innermost first. -/
def occurrences (above : List String) : Formula → List (String × List String)
  | var _ => []
  | not f => f.occurrences above
  | and f g => f.occurrences above ++ g.occurrences above
  | or f g => f.occurrences above ++ g.occurrences above
  | imp f g => f.occurrences above ++ g.occurrences above
  | iff f g => f.occurrences above ++ g.occurrences above
  | rel r => r.vars.map fun x => (x, above)
  | all x f => f.occurrences (x :: above)
  | ex x f => f.occurrences (x :: above)

/-- The variable that occurs, if no quantifier above the occurrence binds it. -/
def freeAt (o : String × List String) : Option String := if o.1 ∈ o.2 then none else some o.1

/-- The place of the first free occurrence of a variable among all occurrences. -/
def firstFree (f : Formula) (x : String) : Nat :=
  (f.occurrences []).findIdx fun o => freeAt o == some x

private theorem freeAt_eq_some {o : String × List String} {x : String} :
    freeAt o = some x ↔ o.1 = x ∧ x ∉ o.2 := by
  rw [freeAt]
  split
  next hbound => simpa using fun h => h ▸ hbound
  next hfree => simpa using fun h => h ▸ hfree

theorem occurrences_apply (above : List String) (k : Connective) (f g : Formula) :
    (k.apply f g).occurrences above = f.occurrences above ++ g.occurrences above := by
  cases k <;> rfl

theorem occurrences_quantify (above : List String) (universal : Bool) (x : String)
    (f : Formula) : (quantify universal x f).occurrences above = f.occurrences (x :: above) := by
  cases universal <;> rfl

/-- The free occurrences are those of all occurrences that are free. -/
theorem freeOccurrences_eq_filterMap (above : List String) (f : Formula) :
    f.freeOccurrences above = (f.occurrences above).filterMap freeAt := by
  induction f using shapeInduction generalizing above with
  | var name => rfl
  | rel r =>
    have hfree : (freeAt ∘ fun x => (x, above)) = Option.guard fun x => decide (x ∉ above) := by
      funext x
      by_cases hx : x ∈ above <;> simp [freeAt, Option.guard, hx]
    rw [freeOccurrences, occurrences, List.filterMap_map, hfree, List.filterMap_eq_filter]
  | not f ih => exact ih above
  | connective k f g ihf ihg =>
    rw [freeOccurrences_apply, occurrences_apply, List.filterMap_append, ihf, ihg]
  | quantifier universal x f ih => rw [freeOccurrences_quantify, occurrences_quantify, ih]

/-- The free variables are those with an occurrence outside every quantifier that binds them. -/
theorem mem_freeVars_iff_occurs {f : Formula} {x : String} :
    x ∈ f.freeVars ↔ ∃ above, (x, above) ∈ f.occurrences [] ∧ x ∉ above := by
  rw [freeVars, List.mem_eraseDups, freeOccurrences_eq_filterMap, List.mem_filterMap]
  simp only [freeAt_eq_some]
  constructor
  · rintro ⟨⟨_, above⟩, hmem, rfl, hfree⟩
    exact ⟨above, hmem, hfree⟩
  · rintro ⟨above, hmem, hfree⟩
    exact ⟨(x, above), hmem, rfl, hfree⟩

/-- The free variables are listed in the order of their first free occurrences. -/
theorem pairwise_firstFree_freeVars (f : Formula) :
    f.freeVars.Pairwise fun x y => f.firstFree x < f.firstFree y := by
  rw [freeVars, freeOccurrences_eq_filterMap]
  exact pairwise_findIdx_eraseDups freeAt (f.occurrences [])

/-- The free variables of an instance are those of the terms that are put in for free variables. -/
theorem mem_freeVars_bind {σ : String → Term} {f : Formula} (h : f.Admits σ) {y : String} :
    y ∈ (f.bind σ).freeVars ↔ ∃ x ∈ f.freeVars, y ∈ (σ x).vars := by
  simp only [mem_freeVars]
  exact ⟨exists_free_of_free_bind, fun ⟨_, hx, hy⟩ => free_bind_of_admits h hx hy⟩

/-- Nothing is captured if no quantifier binds a variable of a term put in for a free variable. -/
theorem admits_apply_of_disjoint {f : Formula} {s : Substitution}
    (h : ∀ x ∈ f.freeVars, ∀ t ∈ s.get? x, ∀ y ∈ t.vars, y ∉ f.binders) :
    f.Admits s.apply := by
  refine admits_of_disjoint fun x hx => ?_
  rw [Substitution.apply]
  cases ht : s.get? x with
  | none => exact Or.inl rfl
  | some t => exact Or.inr (h x (mem_freeVars.mpr hx) t ht)

/-- The free variables of a formula are listed each once, in the order of their first free
occurrences, and they are exactly those with an occurrence outside every quantifier that binds
them. If no quantifier of a formula binds a variable of a term that a substitution puts in for a
free variable, then the instance holds exactly where the formula does under the values of the terms
put in, and its free variables are those of the terms put in for the free variables. -/
theorem substitution_lemma (f : Formula) (s : Substitution) :
    f.freeVars.Nodup ∧
    f.freeVars.Pairwise (fun x y => f.firstFree x < f.firstFree y) ∧
    (∀ x, x ∈ f.freeVars ↔ ∃ above, (x, above) ∈ f.occurrences [] ∧ x ∉ above) ∧
    ((∀ x ∈ f.freeVars, ∀ t ∈ s.get? x, ∀ y ∈ t.vars, y ∉ f.binders) →
      (∀ (D : Type u) (M : Interpretation D) (truth : String → Prop) (v : String → D),
        (f.instantiate s).HoldsWith M truth v ↔
          f.HoldsWith M truth fun x => (s.apply x).value M v) ∧
      ∀ y, y ∈ (f.instantiate s).freeVars ↔ ∃ x ∈ f.freeVars, y ∈ (s.apply x).vars) := by
  have hordered := pairwise_firstFree_freeVars f
  have hnodup : f.freeVars.Nodup := by
    rw [List.Nodup]
    refine hordered.imp fun hlt heq => ?_
    rw [heq] at hlt
    exact Nat.lt_irrefl _ hlt
  refine ⟨hnodup, hordered, fun x => mem_freeVars_iff_occurs, fun hdisjoint => ?_⟩
  have hadmits := admits_apply_of_disjoint hdisjoint
  exact ⟨fun D M truth v => holdsWith_bind hadmits, fun y => mem_freeVars_bind hadmits⟩

/-- The formula `(∀X ∃X R(X, Y)) ∧ Q(X)`, in which a variable is bound twice and free besides. -/
def boundAndFree : Formula :=
  .and (.all "X" (.ex "X" (.rel ⟨"R", [.var "X", .var "Y"]⟩))) (.rel ⟨"Q", [.var "X"]⟩)

/-- The substitution of `g(Z)` for `X` and of `Z` for `Y`. -/
def twoReplaced : Substitution := .ofList [("X", .app "g" [.var "Z"]), ("Y", .var "Z")]

/-- Only the last `X` is replaced, and nothing is captured. -/
theorem boundAndFree_instantiate :
    boundAndFree.freeVars = ["Y", "X"] ∧
    (∀ x ∈ boundAndFree.freeVars, ∀ t ∈ twoReplaced.get? x, ∀ y ∈ t.vars,
      y ∉ boundAndFree.binders) ∧
    boundAndFree.instantiate twoReplaced =
      .and (.all "X" (.ex "X" (.rel ⟨"R", [.var "X", .var "Z"]⟩)))
        (.rel ⟨"Q", [.app "g" [.var "Z"]]⟩) ∧
    (∀ (D : Type u) (M : Interpretation D) (truth : String → Prop) (v : String → D),
      (boundAndFree.instantiate twoReplaced).HoldsWith M truth v ↔
        boundAndFree.HoldsWith M truth fun x => (twoReplaced.apply x).value M v) ∧
    ∀ y, y ∈ (boundAndFree.instantiate twoReplaced).freeVars ↔
      ∃ x ∈ boundAndFree.freeVars, y ∈ (twoReplaced.apply x).vars := by
  have hdisjoint : ∀ x ∈ boundAndFree.freeVars, ∀ t ∈ twoReplaced.get? x, ∀ y ∈ t.vars,
      y ∉ boundAndFree.binders := by decide
  have hinstance := (substitution_lemma boundAndFree twoReplaced).2.2.2 hdisjoint
  exact ⟨by decide, hdisjoint, by decide, hinstance⟩

end Deduction.Formula
