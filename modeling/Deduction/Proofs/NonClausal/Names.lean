import Deduction.Proofs.Grammar.Instances
import Deduction.Proofs.Grammar.RoundTrip
import Deduction.Proofs.NonClausal.Branches
import Deduction.Proofs.Unification

/-!
# Names in a non-clausal tableau

The quantifiers in a tableau bind the variables that the formula at its start binds, and
as long as no substitution is typed in that mentions one of these, none of them is free
anywhere. New variables are chosen that way, and a unifier has no variables but free
ones. A unifier can be read back from the texts under which it is kept, so this is still
so after moves have been taken back. No instantiation of such a tableau captures a
variable.
-/

namespace Deduction

open Grammar

/-- Whether no term that a substitution puts in has one of some variables. -/
def Substitution.Avoids (s : Substitution) (xs : List String) : Prop :=
  ∀ x t, s.get? x = some t → ∀ y ∈ t.vars, y ∉ xs

/-- A variable stays what it is, or it is replaced by a term without those variables. -/
theorem Substitution.Avoids.apply {s : Substitution} {xs : List String} (h : s.Avoids xs)
    (x : String) : s.apply x = .var x ∨ ∀ y ∈ (s.apply x).vars, y ∉ xs := by
  rw [Substitution.apply]
  cases hx : s.get? x with
  | none => exact Or.inl rfl
  | some t => exact Or.inr (h x t hx)

namespace NonClausal

open Deduction.Tree

/-- Whether no term that is typed in for a variable has one of some variables. -/
def Move.Avoids (xs : List String) : Move → Prop
  | .close _ _ (some texts) => ∀ s, Substitution.parse texts = .ok s → s.Avoids xs
  | _ => True

theorem Move.Avoids.of_subset {xs ys : List String} {m : Move} (h : m.Avoids ys) (hsub : xs ⊆ ys) :
    m.Avoids xs := by
  cases m with
  | close leaf partner assignment =>
    cases assignment with
    | none => trivial
    | some texts => exact fun σ hσ x t hx y hy hmem => h σ hσ x t hx y hy (hsub hmem)
  | _ => trivial

/-- What holds of every tableau for a formula. -/
structure Formed (f : Formula) (s : State) : Prop where
  /-- The formula to refute is the given one. -/
  origin : s.formula = f
  /-- The tree has grown below open nodes, as far as there are ids. -/
  steady : Steady s.tree
  /-- Every closed leaf is closed for a reason. -/
  justified : Justified s.tree
  /-- The bound variables are those of the formula. -/
  binders : ∀ x, x ∈ f.binders ↔ ∃ g ∈ s.formulas, x ∈ g.binders

/-- What holds of every tableau for a readable formula. -/
structure ReadableTableau (f : Formula) (s : State) : Prop extends Formed f s where
  /-- All formulas have names that can be read. -/
  readable : ∀ g ∈ s.formulas, g.Readable

/-- What holds of every tableau for a readable formula in which no bound variable has been typed
in. -/
structure Proper (f : Formula) (s : State) : Prop extends ReadableTableau f s where
  /-- No bound variable is free. -/
  free : ∀ g ∈ s.formulas, ∀ x, g.Free x → x ∉ f.binders
  /-- No bound variable has been typed in. -/
  history : ∀ m ∈ s.history, m.Avoids f.binders

variable {f : Formula} {s s' : State}

theorem closingSubstitution_some {l r : Relation} {texts : KeyMap String String}
    {σ : Substitution} (h : State.closingSubstitution l r (some texts) = .ok σ) :
    Substitution.parse texts = .ok σ := Outcome.ofText_eq_ok.mp h

theorem closingSubstitution_none {l r : Relation} {σ : Substitution}
    (h : State.closingSubstitution l r none = .ok σ) : unify l r = .ok σ := by
  rw [State.closingSubstitution] at h
  split at h <;> cases h
  assumption

section Opposed

variable {l r : Relation} {g g' : Formula} {x : String}

theorem Opposed.free_left (h : Opposed l r g g') (hx : x ∈ l.vars) : g.Free x := by
  rcases h with ⟨rfl, -⟩ | ⟨rfl, -⟩ <;> exact hx

theorem Opposed.free_right (h : Opposed l r g g') (hx : x ∈ r.vars) : g'.Free x := by
  rcases h with ⟨-, rfl⟩ | ⟨-, rfl⟩ <;> exact hx

end Opposed

theorem mem_formulas_initial {g : Formula} {backtracking : Bool} :
    g ∈ (State.initial f backtracking).formulas ↔ g = f := by
  simp [State.formulas, State.initial, single]

theorem formed_initial (f : Formula) (backtracking : Bool) :
    Formed f (.initial f backtracking) where
  origin := rfl
  steady := .single _
  justified i n hn _ hc := by
    rw [(eq_of_get?_single hn).2] at hc
    cases hc
  binders x := by simp [mem_formulas_initial]

/-- Rules bring in no quantifiers. -/
theorem Rule.binders_subset {g : Formula} {e : Expansion} (h : Rule s g e) :
    ∀ g' ∈ e.formulas, g'.binders ⊆ g.binders := by
  cases h with
  | alpha f₁ f₂ | beta f₁ f₂ => simp [Expansion.formulas, Formula.binders]
  | gamma x body k new | delta x body k new => simp [Expansion.formulas, Formula.binders]

namespace Formed

variable {g : Formula} {e : Expansion} {leaf partner : Nat}
  {assignment : Option (KeyMap String String)} {σ : Substitution}

theorem rooted (h : Formed f s) : Rooted s.tree := h.steady.rooted

theorem expand (h : Formed f s) (he : Expands s s' g e) : Formed f s' where
  origin := he.formula.trans h.origin
  steady := he.steady h.steady
  justified := he.justified h.rooted h.justified
  binders x := by
    rw [h.binders]
    constructor
    · rintro ⟨g', hg', hx⟩
      exact ⟨g', he.formulas_subset h.rooted hg', hx⟩
    · rintro ⟨g', hg', hx⟩
      refine he.forall_formulas (P := fun g' => x ∈ g'.binders → ∃ g ∈ s.formulas, x ∈ g.binders)
        h.rooted (fun g' hg' hx => ⟨g', hg', hx⟩) (fun g' hg' hx => ?_) g' hg' hx
      exact ⟨g, he.mem_formulas, he.rule.binders_subset g' hg' hx⟩

theorem close (h : Formed f s) (hc : Closes s s' leaf partner assignment σ) : Formed f s' where
  origin := hc.formula.trans h.origin
  steady := hc.steady h.steady
  justified := hc.justified h.rooted h.justified
  binders x := by
    rw [h.binders]
    constructor
    · rintro ⟨g, hg, hx⟩
      exact ⟨_, (hc.mem_formulas_iff h.rooted).mpr ⟨g, hg, rfl⟩,
        (Formula.binders_bind σ.apply g).symm ▸ hx⟩
    · rintro ⟨g, hg, hx⟩
      obtain ⟨g', hg', rfl⟩ := (hc.mem_formulas_iff h.rooted).mp hg
      exact ⟨g', hg', Formula.binders_bind σ.apply g' ▸ hx⟩

theorem record (h : Formed f s) (m : Move) : Formed f (s.record m) where
  origin := (formula_record s m).trans h.origin
  steady := h.steady
  justified := h.justified
  binders := by simpa using h.binders

theorem invariant (f : Formula) : Invariant f (fun _ => True) (Formed f) where
  initial := formed_initial f
  origin _ h := h.origin
  history _ _ _ _ := trivial
  expand _ _ _ _ m _ _ he h := (h.expand he).record m
  close _ _ _ _ _ _ _ hc h := h.close hc

/-- Nothing is captured by a substitution without bound variables. -/
theorem admits (h : Formed f s) (hσ : σ.Avoids f.binders) (hg : g ∈ s.formulas) :
    g.Admits σ.apply := by
  refine Formula.admits_of_disjoint fun y _ => (hσ.apply y).imp_right fun havoids z hz hmem => ?_
  exact havoids z hz ((h.binders z).mpr ⟨g, hg, hmem⟩)

end Formed

/-- Rules give readable formulas. -/
theorem Rule.readable {g : Formula} {e : Expansion} (h : Rule s g e) (hreadable : g.Readable) :
    ∀ g' ∈ e.formulas, g'.Readable := by
  cases h with
  | alpha f₁ f₂ | beta f₁ f₂ =>
    exact List.forall_mem_cons.mpr ⟨hreadable.1, List.forall_mem_singleton.mpr hreadable.2⟩
  | gamma x body k new =>
    exact List.forall_mem_singleton.mpr
      (hreadable.2.instantiateBound (.var (hreadable.1.numbered k)) x)
  | delta x body k new =>
    refine List.forall_mem_singleton.mpr (hreadable.2.instantiateBound ?_ x)
    exact Term.readable_skolem (isSymbolName_numbered k) fun y hy =>
      hreadable.isVariableName (Formula.mem_freeVars.mp hy)

theorem readableTableau_initial (hreadable : f.Readable) (backtracking : Bool) :
    ReadableTableau f (.initial f backtracking) where
  toFormed := formed_initial f backtracking
  readable _ hg := mem_formulas_initial.mp hg ▸ hreadable

namespace ReadableTableau

variable {g : Formula} {e : Expansion} {leaf partner : Nat}
  {assignment : Option (KeyMap String String)} {σ : Substitution}

theorem expand (h : ReadableTableau f s) (he : Expands s s' g e) : ReadableTableau f s' where
  toFormed := h.toFormed.expand he
  readable :=
    he.forall_formulas h.rooted h.readable (he.rule.readable (h.readable g he.mem_formulas))

/-- The substitution under which a leaf is closed can be read back. -/
theorem readable_of_closes (h : ReadableTableau f s) (hc : Closes s s' leaf partner assignment σ) :
    σ.Readable := by
  obtain ⟨n, m, l, r, hn, -, -, hm, hopposed, hσ, -⟩ := hc.relations
  cases assignment with
  | some texts => exact Substitution.readable_of_parse (closingSubstitution_some hσ)
  | none =>
    have hl := h.readable _ (formula_mem_formulas hn)
    have hr := h.readable _ (formula_mem_formulas hm)
    rcases hopposed with ⟨hf, hg⟩ | ⟨hf, hg⟩ <;> rw [hf] at hl <;> rw [hg] at hr <;>
      exact readable_of_unify hl hr (closingSubstitution_none hσ)

theorem close (h : ReadableTableau f s) (hc : Closes s s' leaf partner assignment σ) :
    ReadableTableau f s' where
  toFormed := h.toFormed.close hc
  readable g hg := by
    obtain ⟨g', hg', rfl⟩ := (hc.mem_formulas_iff h.rooted).mp hg
    have hreadable := h.readable g' hg'
    exact hreadable.bind fun x hx => (h.readable_of_closes hc).apply (hreadable.isVariableName hx)

theorem record (h : ReadableTableau f s) (m : Move) : ReadableTableau f (s.record m) where
  toFormed := h.toFormed.record m
  readable := by simpa using h.readable

end ReadableTableau

theorem proper_initial (hreadable : f.Readable) (hclosed : ∀ x, ¬ f.Free x)
    (backtracking : Bool) : Proper f (.initial f backtracking) where
  toReadableTableau := readableTableau_initial hreadable backtracking
  free _ hg x hx := absurd (mem_formulas_initial.mp hg ▸ hx) (hclosed x)
  history _ hm := absurd hm List.not_mem_nil

namespace Proper

variable {g : Formula} {e : Expansion}

/-- A new variable is not bound. -/
theorem notMem_binders_of_new (h : Proper f s) {x : String}
    (hx : ∀ g ∈ s.formulas, x ∉ g.varNames) : x ∉ f.binders := by
  intro hmem
  obtain ⟨g, hg, hmem⟩ := (h.binders x).mp hmem
  exact hx g hg (g.binders_subset_varNames hmem)

/-- Rules give formulas in which no bound variable is free. -/
theorem free_of_rule (h : Proper f s) (hg : g ∈ s.formulas) (hrule : Rule s g e) :
    ∀ g' ∈ e.formulas, ∀ x, g'.Free x → x ∉ f.binders := by
  have hfree := h.free g hg
  cases hrule with
  | alpha f₁ f₂ | beta f₁ f₂ =>
    simp only [Expansion.formulas, List.mem_cons, List.not_mem_nil, or_false]
    rintro g' (rfl | rfl) x hx
    · exact hfree x (Or.inl hx)
    · exact hfree x (Or.inr hx)
  | gamma x body k new =>
    simp only [Expansion.formulas, List.mem_singleton]
    rintro g' rfl y hy
    rcases Formula.free_instantiateBound hy with hy | hy
    · rw [Term.vars, List.mem_singleton] at hy
      exact hy ▸ h.notMem_binders_of_new new
    · exact hfree y hy
  | delta x body k new =>
    simp only [Expansion.formulas, List.mem_singleton]
    rintro g' rfl y hy
    rcases Formula.free_instantiateBound hy with hy | hy
    · exact hfree y (Formula.mem_freeVars.mp (Term.mem_vars_skolem.mp hy))
    · exact hfree y hy

theorem expand (h : Proper f s) (he : Expands s s' g e) : Proper f s' where
  toReadableTableau := h.toReadableTableau.expand he
  free := he.forall_formulas h.rooted h.free (h.free_of_rule he.mem_formulas he.rule)
  history := he.history ▸ h.history

variable {leaf partner : Nat} {assignment : Option (KeyMap String String)} {σ : Substitution}

/-- The substitution under which a leaf is closed has no bound variable unless one is typed in. -/
theorem avoids_of_closes (h : Proper f s) (hc : Closes s s' leaf partner assignment σ)
    (hm : (Move.close leaf partner assignment).Avoids f.binders) : σ.Avoids f.binders := by
  obtain ⟨n, m, l, r, hn, -, -, hm', hopposed, hσ, -⟩ := hc.relations
  cases assignment with
  | some texts => exact hm σ (closingSubstitution_some hσ)
  | none =>
    have hconfined := (unifyAll_mostGeneralSolution (closingSubstitution_none hσ)).confined
    intro x t hx y hy
    have hvars : y ∈ l.vars ∨ y ∈ r.vars := by
      simpa [pairVars] using (hconfined x t hx).2 hy
    rcases hvars with hl | hr
    · exact h.free _ (formula_mem_formulas hn) y (hopposed.free_left hl)
    · exact h.free _ (formula_mem_formulas hm') y (hopposed.free_right hr)

theorem close (h : Proper f s) (hc : Closes s s' leaf partner assignment σ)
    (hm : (Move.close leaf partner assignment).Avoids f.binders) : Proper f s' where
  toReadableTableau := h.toReadableTableau.close hc
  free g hg y hy := by
    obtain ⟨g', hg', rfl⟩ := (hc.mem_formulas_iff h.rooted).mp hg
    obtain ⟨x, hx, hy⟩ := Formula.exists_free_of_free_bind hy
    rcases (h.avoids_of_closes hc hm).apply x with hvar | havoids
    · rw [hvar, Term.vars, List.mem_singleton] at hy
      exact hy ▸ h.free g' hg' x hx
    · exact havoids y hy
  history m hmem := by
    rcases hc.mem_history hmem with hmem | rfl
    · exact h.history m hmem
    · intro τ hτ
      rw [Substitution.parse_texts (h.readable_of_closes hc)] at hτ
      cases hτ
      exact h.avoids_of_closes hc hm

theorem record (h : Proper f s) {m : Move} (hm : m.Avoids f.binders) : Proper f (s.record m) where
  toReadableTableau := h.toReadableTableau.record m
  free := by simpa using h.free
  history m' hmem := by
    rcases mem_keepMove hmem with hmem | rfl
    · exact h.history m' hmem
    · exact hm

theorem invariant (hreadable : f.Readable) (hclosed : ∀ x, ¬ f.Free x) :
    Invariant f (Move.Avoids f.binders) (Proper f) where
  initial := proper_initial hreadable hclosed
  origin _ h := h.origin
  history _ h := h.history
  expand _ _ _ _ _ hm _ he h := (h.expand he).record hm
  close _ _ _ _ _ _ hm hc h := h.close hc hm

end Proper

end NonClausal

end Deduction
