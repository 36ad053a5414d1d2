import Deduction.Unify
import Mathlib.Data.List.Perm.Subperm

/-!
# Lists without repetitions

Leaving out all later repetitions in a list keeps every member once, in the order in
which the members come first. A list without repetitions stays as it is, and any other
one gets shorter.
-/

namespace Deduction

/-- A list without repetitions has nothing to leave out. -/
theorem eraseDups_of_nodup {α : Type} [DecidableEq α] {xs : List α} (h : xs.Nodup) :
    xs.eraseDups = xs := by
  induction xs with
  | nil => rfl
  | cons x xs ih =>
    obtain ⟨hx, hxs⟩ := List.nodup_cons.mp h
    have hkeep : xs.filter (fun y => !y == x) = xs := by
      refine List.filter_eq_self.mpr fun y hy => ?_
      have hne : y ≠ x := fun heq => hx (heq ▸ hy)
      simp [hne]
    rw [List.eraseDups_cons, hkeep, ih hxs]

/-- A list gets shorter exactly if it has repetitions. -/
theorem length_eraseDups_lt {α : Type} [DecidableEq α] {xs : List α} :
    xs.eraseDups.length < xs.length ↔ ¬ xs.Nodup := by
  constructor
  · intro hlt hnodup
    rw [eraseDups_of_nodup hnodup] at hlt
    exact Nat.lt_irrefl _ hlt
  · intro hrepeat
    have hfits : xs.eraseDups.Subperm xs :=
      (nodup_eraseDups xs).subperm fun x => List.mem_eraseDups.mp
    by_contra hlength
    have hperm := hfits.perm_of_length_le (Nat.le_of_not_lt hlength)
    exact hrepeat (hperm.nodup_iff.mp (nodup_eraseDups xs))

/-- What is found in a list comes, without repetitions, in the order in which it is found first. -/
theorem pairwise_findIdx_eraseDups {α β : Type} [DecidableEq β] (find : α → Option β)
    (as : List α) :
    (as.filterMap find).eraseDups.Pairwise fun x y =>
      as.findIdx (fun a => find a == some x) < as.findIdx fun a => find a == some y := by
  induction as generalizing find with
  | nil => exact .nil
  | cons a as ih =>
    cases ha : find a with
    | none =>
      rw [List.filterMap_cons_none ha]
      refine (ih find).imp fun hlt => ?_
      simpa [List.findIdx_cons, ha] using hlt
    | some b =>
      -- The others are those that are found when `b` is not looked for.
      have hothers {y : β} (hy : y ≠ b) (c : α) :
          ((find c).filter fun z => !z == b) = some y ↔ find c = some y := by
        rw [Option.filter_eq_some_iff]
        exact and_iff_left_of_imp fun _ => by simpa using hy
      have hne {y : β}
          (hy : y ∈ (as.filterMap fun c => (find c).filter fun z => !z == b).eraseDups) :
          y ≠ b := by
        obtain ⟨c, -, hc⟩ := List.mem_filterMap.mp (List.mem_eraseDups.mp hy)
        simpa using (Option.filter_eq_some_iff.mp hc).2
      have hlater {y : β} (hy : y ≠ b) :
          (a :: as).findIdx (fun c => find c == some y) =
            as.findIdx (fun c => ((find c).filter fun z => !z == b) == some y) + 1 := by
        have hfind : (fun c => ((find c).filter fun z => !z == b) == some y) =
            fun c => find c == some y := by
          funext c
          rw [Bool.eq_iff_iff, beq_iff_eq, beq_iff_eq, hothers hy]
        have hhead : (find a == some y) = false := by simpa [ha] using hy.symm
        rw [hfind, List.findIdx_cons, hhead, cond_false]
      rw [List.filterMap_cons_some ha, List.eraseDups_cons, List.filter_filterMap]
      refine .cons (fun y hy => ?_) ((ih _).imp_of_mem fun hy hz hlt => ?_)
      · have hfirst : (a :: as).findIdx (fun c => find c == some b) = 0 := by
          simp [List.findIdx_cons, ha]
        rw [hfirst, hlater (hne hy)]
        exact Nat.succ_pos _
      · rw [hlater (hne hy), hlater (hne hz)]
        exact Nat.succ_lt_succ hlt

end Deduction
