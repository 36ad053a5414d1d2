import Deduction.Error
import Deduction.Proofs.Formula.Skolem
import Deduction.Proofs.Grammar.Instances

/-!
# Readable clauses

The names in the Skolem form of a readable formula are numbered variables and symbols
or names of the formula, so the form is readable again, and so is every clause that
distribution makes of it. A variable keeps its first letter under a suffix, so clauses
stay readable when their variables are renamed apart.
-/

namespace Deduction

open Grammar

/-- Readable terms may be put in for the variables of a relation. -/
theorem Relation.Readable.bind {r : Relation} (h : r.Readable) {σ : String → Term}
    (hσ : ∀ x, IsVariableName x → (σ x).Readable) : (r.bind σ).Readable := by
  intro u hu
  rw [Relation.bind, Term.bindList_eq_map] at hu
  obtain ⟨t, ht, rfl⟩ := List.mem_map.mp hu
  exact (h t ht).bind fun x hx => hσ x ((h t ht).isVariableName hx)

namespace Formula

theorem Readable.expandIff {f : Formula} (h : f.Readable) : f.expandIff.Readable := by
  induction f with
  | var name => trivial
  | rel r => exact h
  | not f ih => exact ih h
  | and f g ihf ihg | or f g ihf ihg | imp f g ihf ihg => exact ⟨ihf h.1, ihg h.2⟩
  | iff f g ihf ihg => exact ⟨⟨ihf h.1, ihg h.2⟩, ihf h.1, ihg h.2⟩
  | all x f ih | ex x f ih => exact ⟨h.1, ih h.2⟩

private theorem isVariableName_universalName {x : String} (hx : IsVariableName x) (n : Nat) :
    IsVariableName (universalName x n) := by
  cases n with
  | zero => exact hx
  | succ n => exact hx.numbered (n + 1)

/-- A quantifier leaves a variable or a Skolem term, so readable formulas have readable Skolem
forms. -/
theorem Skolemizes.readable {scope : List String} {env : String → Term}
    {names names' : SkolemNames} {f p : Formula} (h : Skolemizes scope env names f p names')
    (hf : f.Readable) (hscope : ∀ x ∈ scope, IsVariableName x)
    (henv : PutsIn Term.Readable env f) : p.Readable := by
  induction h with
  | var sign name => exact hf
  | rel sign r => cases sign <;> exact Readable.bind (f := .rel r) hf henv
  | and _ _ ihf ihg | or _ _ ihf ihg =>
    exact ⟨ihf hf.1 hscope fun x hx => henv x (Or.inl hx),
      ihg hf.2 hscope fun x hx => henv x (Or.inr hx)⟩
  | @all _ _ names _ _ _ x _ ih =>
    have hname := isVariableName_universalName hf.1 (names.universal.count x)
    exact ih hf.2 (List.forall_mem_append.mpr ⟨hscope, List.forall_mem_singleton.mpr hname⟩)
      (.extendEnv henv (.var hname))
  | ex x _ ih =>
    exact ih hf.2 hscope (.extendEnv henv (Term.readable_skolem (isSymbolName_numbered _) hscope))

theorem Readable.skolemForm {f : Formula} (h : f.Readable) : f.skolemForm.Readable := by
  have hnormal := h.expandIff.normalize true
  obtain ⟨names, hform⟩ := exists_skolemizes f
  exact hform.readable hnormal (fun _ hx => absurd hx List.not_mem_nil)
    fun x hx => .var (hnormal.isVariableName hx)

/-- The relations in a readable formula are readable. -/
theorem Readable.of_mem_atoms {f : Formula} (h : f.Readable) {r : Relation}
    (hr : Formula.rel r ∈ f.atoms) : r.Readable := by
  induction f with
  | var name => simp [atoms] at hr
  | rel r' =>
    simp only [atoms, List.mem_singleton, Formula.rel.injEq] at hr
    exact hr ▸ h
  | not f ih => exact ih h hr
  | and f g ihf ihg | or f g ihf ihg | imp f g ihf ihg | iff f g ihf ihg =>
    exact (List.mem_append.mp hr).elim (ihf h.1) (ihg h.2)
  | all x f ih | ex x f ih => exact ih h.2 hr

/-- The atoms of a first-order formula that is read are relations. -/
theorem isRelation_of_parse {text : String} {f : Formula}
    (h : Formula.parse .firstOrder text = .ok f) : ∀ a ∈ f.atoms, IsRelation a := by
  obtain ⟨⟨rest, hread, -⟩, -⟩ := Formula.parse_eq_ok.mp h
  obtain ⟨hlt, hread⟩ := Scan.Result.plain_eq_ok.mp hread
  obtain ⟨u, -, hu⟩ := written_of_equivalence hread
  refine hu.shapeInduction (Q := fun f => ∀ a ∈ f.atoms, IsRelation a) ?_ (fun _ hf => hf) ?_ ?_
  · intro f u hf
    cases hf with
    | @rel r _ _ => exact List.forall_mem_singleton.mpr ⟨r, rfl⟩
  · intro k f g hf hg
    rw [atoms_apply]
    exact List.forall_mem_append.mpr ⟨hf, hg⟩
  · intro _ universal x f _ hf
    rw [atoms_quantify]
    exact hf

end Formula

namespace ClauseSet

variable {L : Type}

/-- Whether all literals of a clause set have a property. -/
def EachLiteral (P : L → Prop) (s : ClauseSet L) : Prop := ∀ c ∈ s.clauses, ∀ a ∈ c.atoms, P a.lit

variable {P : L → Prop} {limit : Option Nat} {s t u : ClauseSet L}

theorem EachLiteral.conj (hs : s.EachLiteral P) (ht : t.EachLiteral P)
    (h : ClauseSet.conj limit s t = .ok u) : u.EachLiteral P := by
  simp only [ClauseSet.conj, Outcome.bind_eq_ok, Outcome.pure_eq_ok] at h
  obtain ⟨-, -, rfl⟩ := h
  exact fun c hc => (List.mem_append.mp hc).elim (hs c) (ht c)

theorem EachLiteral.disj (hs : s.EachLiteral P) (ht : t.EachLiteral P)
    (h : ClauseSet.disj limit s t = .ok u) : u.EachLiteral P := by
  simp only [ClauseSet.disj, Outcome.bind_eq_ok, Outcome.pure_eq_ok] at h
  obtain ⟨-, -, rfl⟩ := h
  intro e he a ha
  obtain ⟨c, hc, he⟩ := List.mem_flatMap.mp he
  obtain ⟨d, hd, rfl⟩ := List.mem_map.mp he
  exact (List.mem_append.mp ha).elim (hs c hc a) (ht d hd a)

variable [Literal L]

theorem eachLiteral_ofAtom {sign : Bool} {f : Formula} (h : ofAtom sign f = .ok s)
    (hP : ∀ l, Literal.ofFormula? f = some l → P l) : s.EachLiteral P := by
  rw [ofAtom] at h
  split at h
  next l hl =>
    cases h
    intro c hc a ha
    rw [List.mem_singleton.mp hc] at ha
    rw [List.mem_singleton.mp ha]
    exact hP l hl
  · cases h

/-- The literals of the clauses are those that the atoms of the formula stand for. -/
theorem eachLiteral_distribute {basic sign : Bool} {f : Formula}
    (h : distribute limit basic sign f = .ok s)
    (hP : ∀ g ∈ f.atoms, ∀ l, Literal.ofFormula? g = some l → P l) : s.EachLiteral P := by
  induction f generalizing basic sign s with
  | var name => exact eachLiteral_ofAtom h (hP _ (by simp [Formula.atoms]))
  | rel r => exact eachLiteral_ofAtom h (hP _ (by simp [Formula.atoms]))
  | not f ih => exact ih h hP
  | and f g ihf ihg =>
    obtain ⟨hPf, hPg⟩ := List.forall_mem_append.mp hP
    simp only [distribute, Outcome.bind_eq_ok] at h
    obtain ⟨s₁, hf, s₂, hg, h⟩ := h
    split at h
    · exact (ihf hf hPf).conj (ihg hg hPg) h
    · exact (ihf hf hPf).disj (ihg hg hPg) h
  | or f g ihf ihg =>
    obtain ⟨hPf, hPg⟩ := List.forall_mem_append.mp hP
    simp only [distribute, Outcome.bind_eq_ok] at h
    obtain ⟨s₁, hf, s₂, hg, h⟩ := h
    split at h
    · exact (ihf hf hPf).disj (ihg hg hPg) h
    · exact (ihf hf hPf).conj (ihg hg hPg) h
  | imp f g ihf ihg =>
    obtain ⟨hPf, hPg⟩ := List.forall_mem_append.mp hP
    rw [distribute] at h
    split at h <;> simp only [Outcome.bind_eq_ok] at h <;> obtain ⟨s₁, hf, s₂, hg, h⟩ := h
    · exact (ihf hf hPf).disj (ihg hg hPg) h
    · exact (ihf hf hPf).conj (ihg hg hPg) h
  | iff f g ihf ihg =>
    obtain ⟨hPf, hPg⟩ := List.forall_mem_append.mp hP
    rw [distribute] at h
    split at h
    · simp only [Outcome.bind_eq_ok] at h
      obtain ⟨s₁, h₁, s₂, h₂, both, hboth, s₃, h₃, s₄, h₄, neither, hneither, h⟩ := h
      exact ((ihf h₁ hPf).conj (ihg h₂ hPg) hboth).disj ((ihf h₃ hPf).conj (ihg h₄ hPg) hneither) h
    · split at h <;> simp only [Outcome.bind_eq_ok] at h
      · obtain ⟨s₁, h₁, s₂, h₂, both, hboth, s₃, h₃, s₄, h₄, some, hsome, h⟩ := h
        exact ((ihf h₁ hPf).disj (ihg h₂ hPg) hboth).conj ((ihf h₃ hPf).disj (ihg h₄ hPg) hsome) h
      · obtain ⟨s₁, h₁, s₂, h₂, left, hleft, s₃, h₃, s₄, h₄, right, hright, h⟩ := h
        exact ((ihf h₁ hPf).conj (ihg h₂ hPg) hleft).disj ((ihg h₃ hPg).conj (ihf h₄ hPf) hright) h
  | all x f => cases h
  | ex x f => cases h

/-- The clauses of a formula that is read are readable. -/
theorem eachLiteral_of_text {text : String} {s : ClauseSet Relation}
    (h : ofFirstOrderText text = .ok s) : s.EachLiteral Relation.Readable := by
  simp only [ofFirstOrderText, Outcome.bind_eq_ok, Outcome.ofText_eq_ok,
    Outcome.ofConversion_eq_ok] at h
  obtain ⟨f, hf, h⟩ := h
  have hreadable := (Formula.readable_of_parse hf).1.skolemForm
  refine eachLiteral_distribute h fun g hg r hr => ?_
  cases g with
  | rel r' =>
    cases hr
    exact hreadable.of_mem_atoms hg
  | _ => cases hr

end ClauseSet

/-- The stem of a name is how it starts, and it is empty only if the name is. -/
theorem exists_toList_eq_stem (name : String) :
    ∃ cs, name.toList = (stem name).toList ++ cs ∧
      (name.toList ≠ [] → (stem name).toList ≠ []) := by
  rw [stem]
  split
  next c rest hback =>
    split
    · exact ⟨[], by simp, id⟩
    · refine ⟨'_' :: (name.toList.reverse.takeWhile Decimal.isDigit).reverse, ?_, by simp⟩
      have hsplit := List.takeWhile_append_dropWhile (p := Decimal.isDigit)
        (l := name.toList.reverse)
      rw [hback] at hsplit
      have hname := congrArg List.reverse hsplit
      simpa using hname.symm
  · exact ⟨[], by simp, id⟩

/-- A variable is one under a numbered suffix. -/
theorem Grammar.IsVariableName.withSuffix {x : String} (h : IsVariableName x) (n : Nat) :
    IsVariableName (Deduction.withSuffix (Decimal.render n) x) := by
  obtain ⟨cs, hcs, hne⟩ := exists_toList_eq_stem x
  have hstem : (stem x).toList ≠ [] := hne h.nonempty
  have hname : IsVariableName (stem x) := by
    refine ⟨⟨hstem, fun c hc => h.chars c (hcs ▸ List.mem_append_left cs hc)⟩, ?_⟩
    have hhead : x.toList.head? = (stem x).toList.head? := by
      rw [hcs, List.head?_append, Option.or_of_isSome (List.isSome_head?.mpr hstem)]
    have hupper := h.upper
    rwa [startsUpper, hhead] at hupper
  exact hname.numbered n

end Deduction
