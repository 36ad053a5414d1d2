import Deduction.Clause
import Deduction.Proofs.Distinct

/-!
# Comparing and factoring clauses

Clauses are compared by their lengths and by how often the atoms of the first one occur
in either of them. This leaves no room for other atoms in the second one, so the atoms of
clauses that are found to be the same are a rearrangement of each other. A clause is
factored by leaving out all later repetitions of its atoms, which makes it shorter exactly
if it can be factored.
-/

namespace Deduction.Clause

variable {L : Type} [DecidableEq L] {c d : Clause L}

/-- Clauses are the same exactly if one has the atoms of the other in some order. -/
theorem same_iff_perm : c.same d = true ↔ c.atoms.Perm d.atoms := by
  simp only [same, Bool.and_eq_true, beq_iff_eq, List.all_eq_true]
  constructor
  · rintro ⟨hlength, hcount⟩
    -- The first clause fits into the second one and fills it.
    have hfits : c.atoms.Subperm d.atoms :=
      List.subperm_ext_iff.mpr fun a ha => Nat.le_of_eq (hcount a ha)
    exact hfits.perm_of_length_le (Nat.le_of_eq hlength.symm)
  · intro hperm
    exact ⟨hperm.length_eq, fun a _ => hperm.count_eq a⟩

theorem same_equivalence : Equivalence fun c d : Clause L => c.same d = true := by
  refine ⟨fun c => same_iff_perm.mpr (.refl _), fun h => ?_, fun h h' => ?_⟩
  · exact same_iff_perm.mpr (same_iff_perm.mp h).symm
  · exact same_iff_perm.mpr ((same_iff_perm.mp h).trans (same_iff_perm.mp h'))

theorem hasRepeat_iff {as : List (Atom L)} : hasRepeat as = true ↔ ¬ as.Nodup := by
  induction as with
  | nil => simp [hasRepeat]
  | cons a as ih =>
    rw [hasRepeat, Bool.or_eq_true, ih, List.contains_iff_mem, List.nodup_cons, not_and_or,
      not_not]

/-- A clause can be factored exactly if this makes it shorter. -/
theorem isFactorizable_iff :
    c.isFactorizable = true ↔ c.factorized.atoms.length < c.atoms.length := by
  rw [isFactorizable, hasRepeat_iff, factorized, length_eraseDups_lt]

theorem factorized_factorized (c : Clause L) : c.factorized.factorized = c.factorized :=
  congrArg mk (eraseDups_of_nodup (nodup_eraseDups c.atoms))

/-- The atoms of a factored clause come in the order of their first occurrences. -/
theorem pairwise_idxOf_factorized (c : Clause L) :
    c.factorized.atoms.Pairwise fun a b => c.atoms.idxOf a < c.atoms.idxOf b := by
  have hfirst := pairwise_findIdx_eraseDups some c.atoms
  rw [List.filterMap_some] at hfirst
  exact hfirst

/-- Clauses are found to be the same exactly if their atoms are a rearrangement of each other, which
is an equivalence. Factoring a clause keeps its atoms, each of them once and in the order of first
occurrences; this makes it shorter exactly if it can be factored, and a factored clause stays as it
is. -/
theorem comparison_factoring_exact (L : Type) [DecidableEq L] :
    (∀ c d : Clause L, c.same d = true ↔ c.atoms.Perm d.atoms) ∧
    Equivalence (fun c d : Clause L => c.same d = true) ∧
    ∀ c : Clause L,
      (∀ a, a ∈ c.factorized.atoms ↔ a ∈ c.atoms) ∧ c.factorized.atoms.Nodup ∧
      c.factorized.atoms.Pairwise (fun a b => c.atoms.idxOf a < c.atoms.idxOf b) ∧
      (c.isFactorizable = true ↔ c.factorized.atoms.length < c.atoms.length) ∧
      c.factorized.factorized = c.factorized := by
  refine ⟨fun c d => same_iff_perm, same_equivalence, fun c => ⟨?_, ?_, ?_, ?_, ?_⟩⟩
  · exact fun a => List.mem_eraseDups
  · exact nodup_eraseDups c.atoms
  · exact pairwise_idxOf_factorized c
  · exact isFactorizable_iff
  · exact factorized_factorized c

end Deduction.Clause
