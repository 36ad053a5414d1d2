import Deduction.Clause.Distribution
import Deduction.Proofs.Resolution.Apart
import Deduction.Proofs.Variant

/-!
# Clauses under a suffix

A clause is renamed apart by giving its variables a common suffix. If it has no two
variables that differ only in an old number, this is a renaming that can be taken back,
and the clause means the same as before. Otherwise two of its variables are merged, and
what comes out is an instance that may say less: the clause `P(X) ∨ Q(X_1)`, as it comes
from two quantifiers over `X`, turns into `P(X_n) ∨ Q(X_n)`.
-/

namespace Deduction

universe u

/-- Two names become equal under a suffix exactly if they have the same stem. -/
theorem withSuffix_eq_iff {suffix x y : String} :
    withSuffix suffix x = withSuffix suffix y ↔ stem x = stem y := by
  simp only [withSuffix, String.append_left_inj]

namespace Clause

variable {c d : Clause Relation} {ρ ρ' : String → String}

/-- A clause with other names for its variables. -/
def rename (ρ : String → String) (c : Clause Relation) : Clause Relation :=
  ⟨c.atoms.map fun a => ⟨a.lit.rename ρ, a.negated⟩⟩

/-- Whether the second clause is obtained from the first one by a renaming that keeps its variables
different. -/
def Variant (c d : Clause Relation) : Prop := ∃ ρ, Set.InjOn ρ {x | x ∈ c.vars} ∧ c.rename ρ = d

theorem withSuffix_eq_rename (c : Clause Relation) (suffix : String) :
    c.withSuffix suffix = c.rename (Deduction.withSuffix suffix) := rfl

/-- A renaming is determined on the variables of a clause by what it makes of the clause, and only
on these. -/
theorem rename_eq_iff : c.rename ρ = c.rename ρ' ↔ ∀ x ∈ c.vars, ρ x = ρ' x := by
  simp only [rename, mk.injEq, List.map_inj_left, Atom.mk.injEq, and_true, vars, List.mem_flatMap]
  constructor
  · rintro h x ⟨a, ha, hx⟩
    exact Term.var.inj (Relation.eq_of_bind_eq (h a ha) x hx)
  · intro h a ha
    exact Relation.rename_congr fun x hx => h x ⟨a, ha, hx⟩

theorem rename_rename (c : Clause Relation) :
    (c.rename ρ).rename ρ' = c.rename fun x => ρ' (ρ x) := by
  simp only [rename, List.map_map]
  refine congrArg mk (List.map_congr_left fun a _ => ?_)
  simp only [Function.comp_def, Relation.rename_rename]

theorem rename_id (c : Clause Relation) : c.rename (fun x => x) = c := by
  have hatom (a : Atom Relation) : (⟨a.lit.rename fun x => x, a.negated⟩ : Atom Relation) = a := by
    rw [Relation.rename_id]
  simp only [rename, hatom, List.map_id']

/-- A renaming that keeps variables different can be taken back. -/
theorem Variant.exists_rename_eq (h : c.Variant d) : ∃ ρ, d.rename ρ = c := by
  obtain ⟨ρ, hρ, rfl⟩ := h
  refine ⟨Function.invFunOn ρ {x | x ∈ c.vars}, ?_⟩
  rw [rename_rename]
  refine (rename_eq_iff.mpr fun x hx => ?_).trans c.rename_id
  exact hρ.leftInvOn_invFunOn hx

theorem TrueIn.rename {D : Type u} {M : Interpretation D} (h : c.TrueIn M) (ρ : String → String) :
    (c.rename ρ).TrueIn M :=
  h.bind fun x => .var (ρ x)

/-- Variants are true in the same interpretations. -/
theorem Variant.trueIn_iff {D : Type u} {M : Interpretation D} (h : c.Variant d) :
    d.TrueIn M ↔ c.TrueIn M := by
  constructor
  · intro hd
    obtain ⟨ρ, rfl⟩ := h.exists_rename_eq
    exact hd.rename ρ
  · intro hc
    obtain ⟨ρ, -, rfl⟩ := h
    exact hc.rename ρ

/-- A clause under a suffix is a variant of the clause exactly if different variables of the clause
have different stems. -/
theorem variant_withSuffix {suffix : String} :
    c.Variant (c.withSuffix suffix) ↔ Set.InjOn stem {x | x ∈ c.vars} := by
  constructor
  · rintro ⟨ρ, hρ, hrename⟩ x hx y hy hstem
    rw [withSuffix_eq_rename, rename_eq_iff] at hrename
    exact hρ hx hy <| (hrename x hx).trans <|
      (withSuffix_eq_iff.mpr hstem).trans (hrename y hy).symm
  · intro hstem
    refine ⟨Deduction.withSuffix suffix, fun x hx y hy h => ?_, (withSuffix_eq_rename c _).symm⟩
    exact hstem hx hy (withSuffix_eq_iff.mp h)

/-- Under a number a clause is a variant of itself exactly if different variables of the clause have
different stems, and then it means the same as before. -/
theorem numbered_variant_iff (c : Clause Relation) (n : Nat) :
    (c.Variant (c.withSuffix (Decimal.render n)) ↔ Set.InjOn stem {x | x ∈ c.vars}) ∧
    (Set.InjOn stem {x | x ∈ c.vars} → ∀ (D : Type u) (M : Interpretation D),
      (c.withSuffix (Decimal.render n)).TrueIn M ↔ c.TrueIn M) :=
  ⟨variant_withSuffix, fun h _ _ => (variant_withSuffix.mpr h).trueIn_iff⟩

/-- The clause `P(x) ∨ Q(y)` with any two variables. -/
def eitherOf (x y : String) : Clause Relation :=
  ⟨[⟨⟨"P", [.var x]⟩, false⟩, ⟨⟨"Q", [.var y]⟩, false⟩]⟩

theorem mem_vars_eitherOf {x y z : String} : z ∈ (eitherOf x y).vars ↔ z = x ∨ z = y := by
  simp [eitherOf, vars, Relation.vars, Term.varsList, Term.vars]

theorem trueIn_eitherOf {D : Type u} {M : Interpretation D} {x y : String} :
    (eitherOf x y).TrueIn M ↔ ∀ v : String → D, M.rel "P" [v x] ∨ M.rel "Q" [v y] := by
  simp [eitherOf, TrueIn, Holds, Atom.Holds, Relation.Holds, Term.valueList, Term.value]

private theorem withSuffix_eitherOf (suffix x y : String) :
    (eitherOf x y).withSuffix suffix =
      eitherOf (Deduction.withSuffix suffix x) (Deduction.withSuffix suffix y) := rfl

/-- The variables of `P(X_3) ∨ Q(X_a)` have the stems `X` and `X_a`, so the clause keeps its meaning
under every number. -/
theorem eitherOf_variant :
    Set.InjOn stem {x | x ∈ (eitherOf "X_3" "X_a").vars} ∧
      ∀ n, (eitherOf "X_3" "X_a").Variant ((eitherOf "X_3" "X_a").withSuffix (Decimal.render n)) ∧
        ∀ M : Interpretation Nat, ((eitherOf "X_3" "X_a").withSuffix (Decimal.render n)).TrueIn M ↔
          (eitherOf "X_3" "X_a").TrueIn M := by
  have hstems : stem "X_3" = "X" ∧ stem "X_a" = "X_a" := by cbv
  have hstem : Set.InjOn stem {x | x ∈ (eitherOf "X_3" "X_a").vars} := by
    intro x hx y hy h
    rcases mem_vars_eitherOf.mp hx with rfl | rfl <;> rcases mem_vars_eitherOf.mp hy with rfl | rfl
    · rfl
    · simp [hstems] at h
    · simp [hstems] at h
    · rfl
  exact ⟨hstem, fun n => ⟨(numbered_variant_iff.{0} _ n).1.mpr hstem,
    (numbered_variant_iff.{0} _ n).2 hstem Nat⟩⟩

/-- The formula `(∀X P(X)) ∨ (∀X Q(X))` has the clause `P(X) ∨ Q(X_1)`. Under any number its
variables are merged, and the clause that comes out holds where `P` is true of one element only and
`Q` of another one only, while the first one does not. -/
theorem eitherOf_merged :
    ClauseSet.ofFirstOrder (.or (.all "X" (.rel ⟨"P", [.var "X"]⟩))
        (.all "X" (.rel ⟨"Q", [.var "X"]⟩))) = .ok ⟨[eitherOf "X" "X_1"]⟩ ∧
      ∀ n, ¬ (eitherOf "X" "X_1").Variant ((eitherOf "X" "X_1").withSuffix (Decimal.render n)) ∧
        ∃ M : Interpretation Bool, ((eitherOf "X" "X_1").withSuffix (Decimal.render n)).TrueIn M ∧
          ¬ (eitherOf "X" "X_1").TrueIn M := by
  have hstem : stem "X" = stem "X_1" := by cbv
  refine ⟨by cbv, fun n => ⟨fun h => ?_, ?_⟩⟩
  · have hequal := variant_withSuffix.mp h (mem_vars_eitherOf.mpr (Or.inl rfl))
      (mem_vars_eitherOf.mpr (Or.inr rfl)) hstem
    simp at hequal
  · let M : Interpretation Bool :=
      ⟨fun _ => true, fun _ _ => true, fun p args => args = [p == "P"]⟩
    refine ⟨M, ?_, fun h => ?_⟩
    · rw [withSuffix_eitherOf, withSuffix_eq_iff.mpr hstem, trueIn_eitherOf]
      intro v
      cases hv : v (Deduction.withSuffix (Decimal.render n) "X_1") <;> simp [M]
    · simpa [M] using trueIn_eitherOf.mp h fun x => x == "X_1"

end Clause

end Deduction
