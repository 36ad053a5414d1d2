import Deduction.Proofs.Tableau.Regularity

/-!
# Connected tableaux

In a connected tableau every inner node but the root has a child with the complement of its
own atom, or in a weakly connected one of some atom on the branch down to it. This is
checked when a clause is added. Later moves give no inner node another child and change
nothing above it, so a propositional tableau stays as connected as it must be.

The children are those of which a node is the parent. A node that gets children when there
are no ids any more lists other nodes in place of them.
-/

namespace Deduction.Tableau

open Deduction.Tree

variable {L : Type} {t t' : Tree (Label L)} {s s' : State L} {kind : Connectedness}
  {leaf partner i : Nat}

/-- Whether every inner node but the root has a child with a complement as it must for a kind of
tableaux. -/
def Connectedness.Connects (kind : Connectedness) (t : Tree (Label L)) : Prop :=
  ∀ i n, t.get? i = some n → n.isLeaf = false → i ≠ root →
    kind.Admits t i fun a => some a ∈ childAtoms t i

/-- Moves change nothing at the nodes that are there and on the branches to them. -/
theorem GoesOn.admits_iff {ids : List Nat} {below : Atom L → Prop} (h : GoesOn ids t t')
    (ht : Rooted t) (hi : i < t.size) : kind.Admits t' i below ↔ kind.Admits t i below := by
  cases kind with
  | unconnected => rfl
  | weak => simp only [Connectedness.Admits, OnBranch, h.onBranch_iff ht hi]
  | strong => simp only [Connectedness.Admits, h.atomAt_eq hi]

/-- A tableau stays connected when a clause is added that has a complement as it must. -/
theorem Expands.connects {c : Clause L} (h : Expands s s' leaf c) (ht : Rooted s.tree)
    (hadmits : leaf ≠ root → kind.Admits s.tree leaf (· ∈ c.atoms))
    (hs : kind.Connects s.tree) : kind.Connects s'.tree := by
  obtain ⟨n, hn, hleaf, -⟩ := h.isOpen
  rw [h.eq]
  have hgoes := goesOn_growAll hn hleaf (c.atoms.map fun a => (⟨some a, none⟩ : Label L))
  simp only [Connectedness.Connects, childAtoms_eq] at hs ⊢
  refine forall_childLabels_growAll (P := fun i labels => i ≠ root →
    kind.Admits _ i fun a => some a ∈ labels.map fun label => label.bind Label.atom)
    ht hn hleaf (fun i m hm hinner hi => ?_) fun hi => ?_
  · exact (hgoes.admits_iff ht (Arena.lt_size_of_get? hm)).mpr (hs i m hm hinner hi)
  · rw [hgoes.admits_iff ht (Arena.lt_size_of_get? hn)]
    simpa using hadmits hi

/-- A tableau stays connected when a leaf is closed. -/
theorem Closes.connects (h : Closes s s' leaf partner) (ht : Rooted s.tree)
    (hs : kind.Connects s.tree) : kind.Connects s'.tree := by
  obtain ⟨ids, -, hget⟩ := h.exists_get?_eq ht
  intro i n' hn' hinner hi
  rw [hget] at hn'
  obtain ⟨n, hn, rfl⟩ := Option.map_eq_some_iff.mp hn'
  rw [(h.goesOn ht).1.admits_iff ht (Arena.lt_size_of_get? hn)]
  have hchildren : childAtoms s'.tree i = childAtoms s.tree i := by
    rw [childAtoms, childAtoms, (h.sameShape ht).childrenOf_eq]
    exact List.map_congr_left fun j _ => h.atomAt_eq ht j
  exact hchildren ▸ hs i n hn hinner hi

namespace Propositional

variable {s s' : State String} {clauses : ClauseSet String} {regular backtracking manual : Bool}
  {moves : List Move} {m : Move}

/-- The clauses `{a}` and `{¬a, a}`. -/
def selfComplement : ClauseSet String :=
  ⟨[⟨[⟨"a", false⟩]⟩, ⟨[⟨"a", true⟩, ⟨"a", false⟩]⟩]⟩

/-- Whether a strongly connected tableau for these clauses, reached by moves, ends with an open leaf
where `a` stands. -/
structure Chained (s : State String) : Prop where
  /-- The tableau is reached by moves. -/
  run : ∃ moves : List Move,
    moves.foldlM step (.initial selfComplement .strong false false false) = .ok s
  /-- Every expansion has added a node. -/
  counted : s.expansions < s.tree.size
  /-- The first clause has been added to the root. -/
  first : atomAt s.tree 1 = some ⟨"a", false⟩
  /-- The last node is an open leaf where `a` stands. -/
  last : ∃ i n, s.tree.size = i + 1 ∧ s.tree.get? i = some n ∧ n.isLeaf = true ∧
    n.isClosed = false ∧ n.label.atom = some ⟨"a", false⟩

theorem exists_chained : ∃ s, Chained s ∧ s.tree.size = 2 := by
  have hrun : [.expand 0 0].foldlM step (.initial selfComplement .strong false false false) =
      .ok { State.initial selfComplement .strong false false false with
        tree := ⟨[⟨none, ⟨none, none⟩, false, [1]⟩, ⟨some 0, ⟨some ⟨"a", false⟩, none⟩, false, []⟩]⟩
        expansions := 1 } := by cbv
  exact ⟨_, ⟨⟨_, hrun⟩, by decide, rfl, 1, _, rfl, rfl, rfl, rfl, rfl⟩, rfl⟩

/-- As long as there is an id for the last node, the second clause is added to it. -/
theorem Chained.exists_advance (h : Chained s) (hfits : s.tree.size ≤ UInt32.size) {i : Nat}
    {n : Node (Label String)} (hn : s.tree.get? i = some n) (hleaf : n.isLeaf = true)
    (hopen : n.isClosed = false) (hatom : n.label.atom = some ⟨"a", false⟩) :
    ∃ s', advance s (.expand i 1) = .ok s' ∧ s'.expansions = s.expansions + 1 ∧
      s'.tree = growAll s.tree i [⟨some ⟨"a", true⟩, none⟩, ⟨some ⟨"a", false⟩, none⟩] := by
  obtain ⟨moves, hrun⟩ := h.run
  obtain ⟨hkind, hregular⟩ := kind_regular_eq_of_run hrun
  have hsound := sound_of_run hrun
  let c : Clause String := ⟨[⟨"a", true⟩, ⟨"a", false⟩]⟩
  have hconnected : s.checkConnected i c = .ok () := by
    rw [checkConnected_eq_ok hsound.rooted hn, hkind]
    exact ⟨⟨"a", false⟩, by rw [atomAt, hn]; exact hatom, by decide⟩
  have hroom : s.expansions + 1 < UInt64.size := by
    have hids : UInt32.size < UInt64.size := by decide
    have hcounted := h.counted
    omega
  have hlt : i < UInt32.size := Nat.lt_of_lt_of_le (Arena.lt_size_of_get? hn) hfits
  exact ⟨_, advance_expand (c := c) hlt hn hleaf hopen (hsound.kept ▸ rfl) (by decide) hregular
    (fun _ => hconnected) hroom, rfl, rfl⟩

/-- When the clause is added, the leaf lists the ids of the next two nodes. -/
theorem Chained.exists_expanded (h : Chained s) (hfits : s.tree.size ≤ UInt32.size) :
    ∃ s', Chained s' ∧ s'.tree.size = s.tree.size + 2 ∧
      ∃ n, s'.tree.get? (s.tree.size - 1) = some n ∧ n.label.atom = some ⟨"a", false⟩ ∧
        n.children = [Arena.idOf s.tree.size, Arena.idOf (s.tree.size + 1)] := by
  obtain ⟨moves, hrun⟩ := h.run
  obtain ⟨i, n, hi, hn, hleaf, hopen, hatom⟩ := h.last
  obtain ⟨s', hadvance, hcount, htree⟩ := h.exists_advance hfits hn hleaf hopen hatom
  have hsize : s'.tree.size = s.tree.size + 2 := by
    rw [htree]
    exact size_growAll ..
  have hi_size := Arena.lt_size_of_get? hn
  refine ⟨s', ⟨⟨moves ++ [.expand i 1], ?_⟩, ?_, ?_, ?_⟩, hsize, ?_⟩
  · rw [List.foldlM_append, hrun, Outcome.ok_bind, List.foldlM_cons, step_of_ne (by simp), hadvance]
    rfl
  · have hcounted := h.counted
    omega
  · exact htree ▸ atomAt_mono (extends_growAll _ hi_size) h.first
  · have hnew : s'.tree.get? (s.tree.size + 1) =
        some ⟨some i, ⟨some ⟨"a", false⟩, none⟩, false, []⟩ := by
      rw [htree]
      exact get?_growAll_new (j := 1) hi_size rfl
    exact ⟨s.tree.size + 1, _, hsize, hnew, rfl, rfl, rfl⟩
  · rw [htree, hi, Nat.add_sub_cancel]
    refine ⟨_, get?_growAll_parent hn, hatom, ?_⟩
    rw [List.isEmpty_iff.mp hleaf, hi]
    rfl

theorem exists_chained_of_le (k : Nat) (hk : 2 * k + 2 ≤ UInt32.size) :
    ∃ s, Chained s ∧ s.tree.size = 2 * k + 2 := by
  induction k with
  | zero => exact exists_chained
  | succ k ih =>
    obtain ⟨s, hs, hsize⟩ := ih (by omega)
    obtain ⟨s', hs', hsize', -⟩ := hs.exists_expanded (by omega)
    exact ⟨s', hs', by omega⟩

/-- When there are no ids any more, what a node lists are not its children. After a clause has been
added to the last node that has an id, this node lists the root and the one below the root. What
stands there is no clause, and there is no complement of the atom of the node. -/
theorem selfComplement_lists_root :
    ∃ (moves : List Move) (s : State String) (i : Nat) (n : Node (Label String)),
      moves.foldlM step (.initial selfComplement .strong false false false) = .ok s ∧
      s.tree.get? i = some n ∧ i ≠ root ∧ n.isLeaf = false ∧ n.children ≠ childrenOf s.tree i ∧
      (∀ c ∈ selfComplement.clauses, n.children.map (atomAt s.tree) ≠ c.atoms.map some) ∧
      ∀ a, atomAt s.tree i = some a → ∀ j ∈ n.children, atomAt s.tree j ≠ some a.complement := by
  obtain ⟨s, hs, hsize⟩ := exists_chained_of_le (2 ^ 31 - 1) (by decide)
  obtain ⟨s', hs', -, n, hn, hatom, hchildren⟩ := hs.exists_expanded (by rw [hsize]; decide)
  obtain ⟨moves, hrun⟩ := hs'.run
  have hbare := (sound_of_run hrun).bare
  replace hchildren : n.children = [root, 1] := by
    rw [hchildren, hsize]
    rfl
  have hlisted : n.children.map (atomAt s'.tree) = [none, some ⟨"a", false⟩] := by
    rw [hchildren, List.map_cons, List.map_singleton, hbare, hs'.first]
  refine ⟨moves, s', _, n, hrun, hn, by rw [hsize]; decide, ?_, ?_, ?_, ?_⟩
  · rw [Node.isLeaf, hchildren]
    rfl
  · intro hsame
    have hroot : root ∈ childrenOf s'.tree (s.tree.size - 1) := by
      rw [← hsame, hchildren]
      exact List.mem_cons_self
    obtain ⟨r, hr, hparent⟩ := mem_childrenOf.mp hroot
    obtain ⟨r', hr', hnone⟩ := (sound_of_run hrun).rooted.root
    cases hr.symm.trans hr'
    cases hnone.symm.trans hparent
  · rw [hlisted]
    decide
  · intro a ha j hj hja
    rw [atomAt, hn] at ha
    cases hatom.symm.trans ha
    have hmem := List.mem_map_of_mem (f := atomAt s'.tree) hj
    rw [hlisted, hja] at hmem
    exact absurd hmem (by decide)

end Propositional

end Deduction.Tableau
