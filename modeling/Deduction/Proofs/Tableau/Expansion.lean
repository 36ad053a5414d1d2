import Deduction.Proofs.Failure
import Deduction.Proofs.Tableau.Leaves

/-!
# What is asked of a clause that is added

Before a clause is added below a leaf, the branch down to the leaf is searched. The search
meets every atom of the branch and nothing else, so a clause passes the check for
regularity exactly if its atoms are new to the branch and all different, and in
propositional logic it passes the check for connectedness exactly if it has the complement
of a suitable atom.
-/

namespace Deduction.Tableau

open Deduction.Tree Outcome

variable {L : Type} {s s' : State L} {leaf : Nat} {n : Node (Label L)} {c : Clause L}

/-- Whether an atom stands on the branch down to a node. -/
def OnBranch (t : Tree (Label L)) (i : Nat) (a : Atom L) : Prop :=
  ∃ j, Above t j i ∧ atomAt t j = some a

theorem atomAt_of_get? {t : Tree (Label L)} {i : Nat} (hn : t.get? i = some n) :
    atomAt t i = n.label.atom := by
  rw [atomAt, hn, Option.bind_some]

theorem hasAtom_eq_true {p : Atom L → Bool} {i : Nat} :
    s.hasAtom p i = true ↔ ∃ a, atomAt s.tree i = some a ∧ p a = true := by
  rw [State.hasAtom, ← atomAt]
  cases atomAt s.tree i <;> simp

/-- An atom with a property is found on a branch exactly if there is one. -/
theorem exists_onBranch_eq (ht : Rooted s.tree) (hn : s.tree.get? leaf = some n)
    (p : Atom L → Bool) :
    ∃ b, s.onBranch leaf p = .ok b ∧ (b = true ↔ ∃ a, OnBranch s.tree leaf a ∧ p a = true) := by
  refine ⟨s.hasAtom p leaf || (ancestors s.tree leaf).ids.any (s.hasAtom p), ?_, ?_⟩
  · rw [State.onBranch, any_ancestors_eq ht hn]
    cases s.hasAtom p leaf <;> rfl
  · simp only [Bool.or_eq_true, List.any_eq_true, mem_ancestors ht hn, hasAtom_eq_true]
    constructor
    · rintro (⟨a, ha, hp⟩ | ⟨j, ⟨hj, -⟩, a, ha, hp⟩)
      · exact ⟨a, ⟨leaf, .here, ha⟩, hp⟩
      · exact ⟨a, ⟨j, hj, ha⟩, hp⟩
    · rintro ⟨a, ⟨j, hj, ha⟩, hp⟩
      by_cases hne : j = leaf
      · exact Or.inl ⟨a, hne ▸ ha, hp⟩
      · exact Or.inr ⟨j, ⟨hj, hne⟩, a, ha, hp⟩

/-- A clause is found to be regular if its atoms are new to the branch and all different, and else
one of its atoms is refused. -/
theorem checkRegular_cases [DecidableEq L] [Literal L] (ht : Rooted s.tree)
    (hn : s.tree.get? leaf = some n) (seen atoms : List (Atom L)) :
    (s.checkRegular leaf seen atoms = .ok () ∧ atoms.Nodup ∧
      ∀ a ∈ atoms, a ∉ seen ∧ ¬ OnBranch s.tree leaf a) ∨
    ∃ a ∈ atoms, s.checkRegular leaf seen atoms = refuse (.irregular a.render) ∧
      (¬ atoms.Nodup ∨ a ∈ seen ∨ OnBranch s.tree leaf a) := by
  induction atoms generalizing seen with
  | nil => exact Or.inl ⟨rfl, List.nodup_nil, fun _ ha => absurd ha List.not_mem_nil⟩
  | cons a atoms ih =>
    rw [State.checkRegular]
    by_cases hseen : a ∈ seen
    · refine Or.inr ⟨a, List.mem_cons_self, ?_, Or.inr (Or.inl hseen)⟩
      rw [if_pos (List.contains_iff_mem.mpr hseen)]
      rfl
    · rw [if_neg (by simpa using hseen)]
      obtain ⟨b, hb, hfound⟩ := exists_onBranch_eq ht hn fun b => b = a
      have hbranch : b = true ↔ OnBranch s.tree leaf a := by simpa using hfound
      rw [hb, ok_bind]
      by_cases hon : OnBranch s.tree leaf a
      · refine Or.inr ⟨a, List.mem_cons_self, ?_, Or.inr (Or.inr hon)⟩
        rw [if_pos (hbranch.mpr hon)]
        rfl
      · rw [if_neg fun h => hon (hbranch.mp h)]
        rcases ih (a :: seen) with ⟨hok, hnodup, hnew⟩ | ⟨d, hd, herror, hcause⟩
        · refine Or.inl ⟨hok, List.nodup_cons.mpr ⟨fun hmem => ?_, hnodup⟩, ?_⟩
          · exact (hnew a hmem).1 List.mem_cons_self
          · refine List.forall_mem_cons.mpr ⟨⟨hseen, hon⟩, fun d hd => ?_⟩
            exact ⟨fun hmem => (hnew d hd).1 (List.mem_cons_of_mem a hmem), (hnew d hd).2⟩
        · refine Or.inr ⟨d, List.mem_cons_of_mem a hd, herror, ?_⟩
          rcases hcause with hrepeated | hmem | hon
          · exact Or.inl fun hnodup => hrepeated (List.nodup_cons.mp hnodup).2
          · rcases List.mem_cons.mp hmem with rfl | hmem
            · exact Or.inl fun hnodup => (List.nodup_cons.mp hnodup).1 hd
            · exact Or.inr (Or.inl hmem)
          · exact Or.inr (Or.inr hon)

/-- A clause that passes the check has atoms that are new to the branch and all different. -/
theorem checkRegular_eq_ok [DecidableEq L] [Literal L] (ht : Rooted s.tree)
    (hn : s.tree.get? leaf = some n) {atoms : List (Atom L)} :
    s.checkRegular leaf [] atoms = .ok () ↔
      atoms.Nodup ∧ ∀ a ∈ atoms, ¬ OnBranch s.tree leaf a := by
  rcases checkRegular_cases ht hn [] atoms with ⟨hok, hnodup, hnew⟩ | ⟨a, ha, herror, hcause⟩
  · exact iff_of_true hok ⟨hnodup, fun a ha => (hnew a ha).2⟩
  · rw [herror]
    refine iff_of_false (by simp [refuse]) ?_
    rintro ⟨hnodup, hnew⟩
    rcases hcause with hrepeated | hmem | hon
    · exact hrepeated hnodup
    · exact absurd hmem List.not_mem_nil
    · exact hnew a ha hon

/-- The check for connectedness refuses a clause for want of a connection only. -/
theorem failsOnly_checkConnected [Connectable L] {P : Error → Prop}
    (hP : P (.move (.tableau (.disconnected s.kind)))) (ht : Rooted s.tree)
    (hn : s.tree.get? leaf = some n) (c : Clause L) : FailsOnly P (s.checkConnected leaf c) := by
  have last (connected : Bool) : FailsOnly P
      (if !connected then refuse (.disconnected s.kind) else pure () : Outcome Unit) :=
    .ite (fun _ => .error hP) fun _ => .ok ()
  rw [State.checkConnected]
  split
  · exact last true
  · obtain ⟨b, hb, -⟩ := exists_onBranch_eq ht hn fun b : Atom L =>
      c.atoms.any fun a => a.negated != b.negated && Connectable.connects a.lit b.lit
    exact .bind_ok hb (last b)
  · exact last _

/-- Whether the complement of the atom at a node, or of one on the branch to it, is among given
atoms as the atoms below the node must be for a kind of tableaux. -/
def Connectedness.Admits (t : Tree (Label L)) (i : Nat) (below : Atom L → Prop) :
    Connectedness → Prop
  | .unconnected => True
  | .weak => ∃ a, OnBranch t i a ∧ below a.complement
  | .strong => ∃ a, atomAt t i = some a ∧ below a.complement

/-- A propositional atom is closed by a clause that has its complement. -/
theorem Propositional.any_connects {c : Clause String} {b : Atom String} :
    (c.atoms.any fun a => a.negated != b.negated && Connectable.connects a.lit b.lit) = true ↔
      b.complement ∈ c.atoms := by
  have hclose (a : Atom String) :
      (a.negated != b.negated && Connectable.connects a.lit b.lit) = true ↔ a = b.complement := by
    cases a with
    | mk lit negated =>
      cases b with
      | mk lit' negated' =>
        cases negated <;> cases negated' <;> simp [Connectable.connects, Atom.complement]
  simp only [List.any_eq_true, hclose]
  exact exists_eq_right

/-- In propositional logic a clause passes the check exactly if it has a complement as it must. -/
theorem Propositional.checkConnected_eq_ok {s : State String} {n : Node (Label String)}
    {c : Clause String} (ht : Rooted s.tree) (hn : s.tree.get? leaf = some n) :
    s.checkConnected leaf c = .ok () ↔ s.kind.Admits s.tree leaf (· ∈ c.atoms) := by
  rw [State.checkConnected]
  cases s.kind with
  | unconnected => exact iff_of_true rfl trivial
  | weak =>
    obtain ⟨b, hb, hfound⟩ := exists_onBranch_eq ht hn fun b : Atom String =>
      c.atoms.any fun a => a.negated != b.negated && Connectable.connects a.lit b.lit
    simp only [any_connects] at hfound
    simp only [hb, ok_bind, Connectedness.Admits, ← hfound]
    cases b <;> simp [refuse]
  | strong =>
    have hfound := hasAtom_eq_true (s := s) (i := leaf) (p := fun b : Atom String =>
      c.atoms.any fun a => a.negated != b.negated && Connectable.connects a.lit b.lit)
    simp only [any_connects] at hfound
    simp only [Connectedness.Admits, ← hfound]
    simp [refuse]

variable [DecidableEq L] [Connectable L]

/-- A clause that is added has passed both checks. -/
theorem checks_of_expand (h : s.expand n leaf c = .ok s') :
    (s.regular = true → s.checkRegular leaf [] c.atoms = .ok ()) ∧
      (leaf ≠ root → s.checkConnected leaf c = .ok ()) := by
  simp only [State.expand, refuse, bind_eq_ok, checkOpenLeaf_eq_ok, check_eq_ok, pure_eq_ok,
    reduceCtorEq, exists_false, imp_false] at h
  obtain ⟨-, -, -, hregular, hconnected, -⟩ := h
  refine ⟨fun hs => ?_, fun hleaf => ?_⟩
  · obtain ⟨u, hu⟩ := hregular hs
    exact hu
  · obtain ⟨u, hu⟩ := hconnected hleaf
    exact hu

/-- Adding a clause fails where one of the checks does or the counter is full. -/
theorem failsOnly_expand_of {P : Error → Prop} (ht : Rooted s.tree)
    (hn : s.tree.get? leaf = some n) (hopen : FailsOnly P (State.checkOpenLeaf n leaf))
    (hempty : P (.move (.tableau .emptyClause)))
    (hregular : s.regular = true → FailsOnly P (s.checkRegular leaf [] c.atoms))
    (hconnected : P (.move (.tableau (.disconnected s.kind))))
    (hcount : FailsOnly P (ofCount (s.expansions + 1))) : FailsOnly P (s.expand n leaf c) := by
  rw [State.expand]
  refine .bind hopen fun _ _ => .guard hempty fun _ => ?_
  refine .check hregular ?_
  refine .check (fun _ => failsOnly_checkConnected hconnected ht hn c) ?_
  exact .bind hcount fun count _ => .ok _

/-- A clause with atoms is refused at an open leaf as irregular exactly if it has an atom that is on
the branch or one that it has twice. -/
theorem expand_eq_irregular_iff (ht : Rooted s.tree) (hn : s.tree.get? leaf = some n)
    (hleaf : n.isLeaf = true) (hopen : n.isClosed = false) (hne : c.atoms ≠ [])
    (hregular : s.regular = true) :
    (∃ atom, s.expand n leaf c = refuse (.irregular atom)) ↔
      (∃ a ∈ c.atoms, OnBranch s.tree leaf a) ∨ ¬ c.atoms.Nodup := by
  have hopenLeaf : State.checkOpenLeaf n leaf = .ok () := checkOpenLeaf_eq_ok.mpr ⟨hleaf, hopen⟩
  rcases checkRegular_cases ht hn [] c.atoms with ⟨hok, hnodup, hnew⟩ | ⟨a, ha, herror, hcause⟩
  · refine iff_of_false ?_ ?_
    · -- The other checks refuse for other causes.
      rintro ⟨atom, herror⟩
      let P (e : Error) : Prop := e ≠ .move (.tableau (.irregular atom))
      have hcount : FailsOnly P (ofCount (s.expansions + 1)) :=
        .ite (fun _ => .ok _) fun _ => .error (by simp [P])
      have hfails : FailsOnly P (s.expand n leaf c) :=
        failsOnly_expand_of ht hn (.of_eq_ok ⟨(), hopenLeaf⟩) (by simp [P])
          (fun _ => .of_eq_ok ⟨(), hok⟩) (by simp [P]) hcount
      exact hfails _ herror rfl
    · rintro (⟨a, ha, hon⟩ | hrepeated)
      · exact (hnew a ha).2 hon
      · exact hrepeated hnodup
  · have hsome : c.isEmpty = false := List.isEmpty_eq_false_iff.mpr hne
    refine iff_of_true ⟨a.render, ?_⟩ ?_
    · rw [State.expand, hopenLeaf, ok_bind, hsome, if_neg Bool.false_ne_true, if_pos hregular,
        herror]
      rfl
    · rcases hcause with hrepeated | hmem | hon
      · exact Or.inr hrepeated
      · exact absurd hmem List.not_mem_nil
      · exact Or.inl ⟨a, ha, hon⟩

end Deduction.Tableau
