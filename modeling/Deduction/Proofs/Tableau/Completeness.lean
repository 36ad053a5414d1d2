import Deduction.Proofs.Tableau.Leaves
import Deduction.Proofs.Tableau.Refutation

/-!
# Completeness of propositional tableaux

If any clause may be added to any branch, a refutation of the clauses is carried out move
by move: a leaf is closed as soon as it is the complement of an atom above it, and otherwise
expanded, whereupon the new leaves are dealt with one after the other. This needs an id for
every node, so the refutation must have fewer nodes than there are ids; expansions are
counted too, but every one of them adds a node. Conversely a closed tableau has no more
nodes than there are ids, and what stands below its root is a refutation.

Clauses without model always have a refutation, but not always one that is small enough.
-/

namespace Deduction.Tableau.Propositional

open Deduction.Tree

variable {s s' s'' : State String} {clauses : ClauseSet String} {c : Clause String} {i k n : Nat}
  {m : Move} {moves : List Move} {branch : List (Atom String)} {ids ids' : List Nat}

/-- Whether a tableau is one for a clause set, and a leaf may be expanded by any clause. -/
structure Ready (clauses : ClauseSet String) (s : State String) : Prop where
  /-- Clauses need not be connected. -/
  kind : s.kind = .unconnected
  /-- Branches may repeat atoms. -/
  regular : s.regular = false
  /-- Every expansion has added a node. -/
  counted : s.expansions < s.tree.size
  /-- The tableau is one for the clauses. -/
  sound : Sound clauses s

/-- Whether a tableau becomes another one by moves at some leaves that add a number of nodes. -/
structure Reaches (clauses : ClauseSet String) (ids : List Nat) (added : Nat)
    (s s' : State String) : Prop where
  /-- There is a run in which no moves are taken back. -/
  run : ∃ moves : List Move, (∀ m ∈ moves, m ≠ .undo) ∧ moves.foldlM step s = .ok s'
  /-- It leads to a tableau for the clauses. -/
  ready : Ready clauses s'
  /-- The other leaves stay as they are. -/
  goesOn : GoesOn ids s.tree s'.tree
  /-- So many nodes are new. -/
  size : s'.tree.size = s.tree.size + added

namespace Reaches

theorem refl (hs : Ready clauses s) (ids : List Nat) : Reaches clauses ids 0 s s where
  run := ⟨[], fun _ hm => absurd hm List.not_mem_nil, rfl⟩
  ready := hs
  goesOn := .refl ids s.tree
  size := rfl

theorem trans {ids'' : List Nat} (h : Reaches clauses ids n s s')
    (h' : Reaches clauses ids' k s' s'')
    (hids : ∀ i < s.tree.size, i ∈ ids ∨ i ∈ ids' → i ∈ ids'') :
    Reaches clauses ids'' (n + k) s s'' where
  run := by
    obtain ⟨moves, hmoves, hrun⟩ := h.run
    obtain ⟨moves', hmoves', hrun'⟩ := h'.run
    refine ⟨moves ++ moves', List.forall_mem_append.mpr ⟨hmoves, hmoves'⟩, ?_⟩
    rw [List.foldlM_append, hrun]
    exact hrun'
  ready := h'.ready
  goesOn := h.goesOn.trans h'.goesOn hids
  size := by rw [h'.size, h.size, Nat.add_assoc]

theorem of_advance (hs : Ready clauses s) (h : advance s m = .ok s')
    (hcounted : s'.expansions < s'.tree.size) (hgoes : GoesOn ids s.tree s'.tree)
    (hsize : s'.tree.size = s.tree.size + n) : Reaches clauses ids n s s' where
  run := by
    have hm : m ≠ .undo := by
      rintro rfl
      cases h
    refine ⟨[m], List.forall_mem_singleton.mpr hm, ?_⟩
    rw [List.foldlM_cons, step_of_ne hm, h]
    rfl
  ready := by
    have hadvances := advances_of_advance h
    obtain ⟨hkind, hregular⟩ := kind_regular_eq_of_fresh_eq hadvances.fresh_eq
    exact ⟨hkind.trans hs.kind, hregular.trans hs.regular, hcounted, hs.sound.advance hadvances⟩
  goesOn := hgoes
  size := hsize

end Reaches

/-- As long as there are ids, a clause with atoms is added to any open leaf. -/
theorem Ready.advance_expand (hs : Ready clauses s) (hfits : s.tree.size ≤ UInt32.size)
    {nd : Node (Label String)} (hn : s.tree.get? i = some nd) (hleaf : nd.isLeaf = true)
    (hopen : nd.isClosed = false) {id : Nat} (hc : s.clauses.get? id = some c)
    (hne : c.atoms ≠ []) :
    advance s (.expand i id) = .ok (State.record { s with
      tree := growAll s.tree i (c.atoms.map fun a => ⟨some a, none⟩)
      expansions := s.expansions + 1 } (.expand i id)) := by
  have hconnected : s.checkConnected i c = .ok () := by
    rw [State.checkConnected, hs.kind]
    rfl
  have hroom : s.expansions + 1 < UInt64.size := by
    have hids : UInt32.size < UInt64.size := by decide
    have hcounted := hs.counted
    omega
  exact Tableau.advance_expand (Nat.lt_of_lt_of_le (Arena.lt_size_of_get? hn) hfits) hn hleaf hopen
    hc hne hs.regular (fun _ => hconnected) hroom

/-- An open leaf can be expanded by any clause with atoms. -/
theorem exists_expanded (hs : Ready clauses s) (hi : OpenLeaf s.tree i branch)
    (hc : c ∈ clauses.clauses) (hne : c.atoms ≠ []) (hfits : s.tree.size ≤ UInt32.size) :
    ∃ s', Reaches clauses [i] c.atoms.length s s' ∧
      (∃ nd, s'.tree.get? i = some nd ∧ nd.isLeaf = false ∧
        nd.children = (List.range' s.tree.size c.atoms.length).map Arena.idOf) ∧
      ∀ j a, c.atoms[j]? = some a → OpenLeaf s'.tree (s.tree.size + j) (a :: branch) := by
  obtain ⟨nd, hn, hleaf, hopen⟩ := hi.node
  rw [← hs.sound.kept] at hc
  obtain ⟨id, hid⟩ := List.getElem?_of_mem hc
  have hsize : (growAll s.tree i (c.atoms.map fun a => (⟨some a, none⟩ : Label String))).size =
      s.tree.size + c.atoms.length := by
    rw [size_growAll, List.length_map]
  have hcounted : s.expansions + 1 < s.tree.size + c.atoms.length := by
    have hpos := List.length_pos_iff.mpr hne
    have hcounted := hs.counted
    omega
  refine ⟨_, .of_advance hs (hs.advance_expand hfits hn hleaf hopen hid hne) (hsize ▸ hcounted)
    (goesOn_growAll hn hleaf _) hsize, ⟨_, get?_growAll_parent hn, ?_, ?_⟩,
    fun j a hj => hi.child hs.sound.rooted hj⟩
  · obtain ⟨a, more, hatoms⟩ := List.exists_cons_of_ne_nil hne
    simp [Node.isLeaf, hatoms]
  · rw [List.isEmpty_iff.mp hleaf, List.nil_append, List.length_map]

/-- An open leaf can be closed if the complement of its atom is on its branch. -/
theorem exists_closedAt {a : Atom String} (hs : Ready clauses s)
    (hi : OpenLeaf s.tree i (a :: branch)) (ha : a.complement ∈ branch)
    (hfits : s.tree.size ≤ UInt32.size) :
    ∃ s', Reaches clauses [i] 0 s s' ∧ ClosedAt s'.tree i := by
  obtain ⟨nd, hn, hleaf, hopen⟩ := hi.node
  have hna : nd.label.atom = some a := by
    have hown := hi.own
    rw [atomAt, hn] at hown
    exact hown
  obtain ⟨j, hji, hj⟩ := (hi.mem_iff _).mp (List.mem_cons_of_mem a ha)
  obtain ⟨md, hm, hma⟩ := Option.bind_eq_some_iff.mp hj
  have hrooted := hs.sound.rooted
  have hnamed : i < UInt32.size := Nat.lt_of_lt_of_le hi.lt_size hfits
  obtain ⟨t, hclose⟩ := exists_close hrooted hnamed hn hleaf hopen hna hm hma hji
  have hadvance : advance s (.close i j none) =
      .ok (State.record { s with tree := t } (.close i j none)) :=
    Outcome.bind_eq_ok.mpr ⟨_, hclose, rfl⟩
  have hcloses := closes_of_close hclose
  obtain ⟨hgoes, hclosed⟩ := hcloses.goesOn hrooted
  have hsize : t.size = s.tree.size := (hcloses.sameShape hrooted).size_eq
  exact ⟨_, .of_advance hs hadvance (hsize ▸ hs.counted) hgoes hsize, hclosed⟩

/-- If each leaf with an atom from a list can be closed, several ones can be closed one after the
other. -/
theorem exists_all_closedAt {atoms : List (Atom String)} {cost : Atom String → Nat} {start : Nat}
    (hone : ∀ a ∈ atoms, ∀ s i, Ready clauses s → OpenLeaf s.tree i (a :: branch) →
      s.tree.size + cost a ≤ UInt32.size →
      ∃ s', Reaches clauses [i] (cost a) s s' ∧ ClosedAt s'.tree i)
    (hs : Ready clauses s)
    (hleaves : ∀ j a, atoms[j]? = some a → OpenLeaf s.tree (start + j) (a :: branch))
    (hfits : s.tree.size + (atoms.map cost).sum ≤ UInt32.size) :
    ∃ s', Reaches clauses (List.range' start atoms.length) (atoms.map cost).sum s s' ∧
      ∀ i ∈ List.range' start atoms.length, ClosedAt s'.tree i := by
  induction atoms generalizing s start with
  | nil => exact ⟨s, .refl hs _, fun _ hi => absurd hi List.not_mem_nil⟩
  | cons a atoms ih =>
    obtain ⟨ha, hone⟩ := List.forall_mem_cons.mp hone
    rw [List.map_cons, List.sum_cons] at hfits ⊢
    rw [List.length_cons, List.range'_succ]
    obtain ⟨s₁, hs₁, hclosed⟩ := ha s start hs (hleaves 0 a rfl) (by omega)
    have hothers : ∀ j b, atoms[j]? = some b → OpenLeaf s₁.tree (start + 1 + j) (b :: branch) := by
      intro j b hj
      have hleaf := hleaves (j + 1) b (by simpa using hj)
      have hne : start + (j + 1) ∉ [start] := by
        rw [List.mem_singleton]
        omega
      rw [Nat.add_assoc, Nat.add_comm 1 j]
      exact hleaf.goesOn hs.sound.rooted hs₁.goesOn hne
    have hfits₁ : s₁.tree.size + (atoms.map cost).sum ≤ UInt32.size := by
      rw [hs₁.size]
      omega
    obtain ⟨s₂, hs₂, hall⟩ := ih hone hs₁.ready hothers hfits₁
    refine ⟨s₂, hs₁.trans hs₂ fun j _ hj => ?_,
      List.forall_mem_cons.mpr ⟨hclosed.goesOn hs₂.goesOn, hall⟩⟩
    rcases hj with hj | hj
    · exact List.mem_singleton.mp hj ▸ List.mem_cons_self
    · exact List.mem_cons_of_mem start hj

/-- A refutation of a branch is carried out at its leaf if there are ids for its nodes. -/
theorem Refutes.exists_closedAt (hne : ∀ c ∈ clauses.clauses, c.atoms ≠ [])
    (h : Refutes clauses.clauses branch n) (hs : Ready clauses s) (hi : OpenLeaf s.tree i branch)
    (hfits : s.tree.size + n ≤ UInt32.size) :
    ∃ s', Reaches clauses [i] n s s' ∧ ClosedAt s'.tree i := by
  induction h generalizing s i with
  | close ha => exact Propositional.exists_closedAt hs hi ha hfits
  | @expand branch c cost hc _ ih =>
    have hsum :
        (c.atoms.map fun a => cost a + 1).sum = c.atoms.length + (c.atoms.map cost).sum := by
      rw [List.sum_map_add]
      simp [Nat.add_comm]
    rw [hsum] at hfits ⊢
    obtain ⟨s₁, hs₁, ⟨nd, hn, hinner, hchildren⟩, hnew⟩ :=
      exists_expanded hs hi hc (hne c hc) (by omega)
    have hfits₁ : s₁.tree.size + (c.atoms.map cost).sum ≤ UInt32.size := by
      rw [hs₁.size]
      omega
    obtain ⟨s₂, hs₂, hall⟩ :=
      exists_all_closedAt (fun a ha _ _ hs hi hfits => ih a ha hs hi hfits) hs₁.ready hnew hfits₁
    have hlinked := hs₁.ready.sound.linked (by omega)
    refine ⟨s₂, hs₁.trans hs₂ fun j hj hmem => ?_,
      hs₂.goesOn.closedAt hlinked hs₂.ready.sound.settled hn hinner fun j hj => ?_⟩
    · -- The new leaves were not there before.
      refine hmem.resolve_right fun hmem => ?_
      have hge := (List.mem_range'_1.mp hmem).1
      omega
    · rw [hchildren] at hj
      obtain ⟨k, hk, rfl⟩ := List.mem_map.mp hj
      have hlt := (List.mem_range'_1.mp hk).2
      have hsize := hs₁.size
      rw [Arena.idOf_of_lt (by omega)]
      exact hall k hk

/-- The nodes at and below a node. -/
noncomputable def descendants {α : Type} (t : Tree α) (i : Nat) : Finset Nat :=
  haveI := Classical.decPred (Above t i)
  (Finset.range t.size).filter (Above t i)

theorem mem_descendants {α : Type} {t : Tree α} {i j : Nat} :
    j ∈ descendants t i ↔ j < t.size ∧ Above t i j := by
  simp [descendants]

private theorem card_descendants_le {α : Type} (t : Tree α) (i : Nat) :
    (descendants t i).card ≤ t.size := by
  classical
  calc (descendants t i).card ≤ (Finset.range t.size).card := Finset.card_filter_le _ _
    _ = t.size := Finset.card_range _

/-- A node counts itself and all that its children count. -/
theorem sum_card_descendants_lt {α : Type} {t : Tree α} (ht : Rooted t) (hi : i < t.size) :
    ((childrenOf t i).map fun c => (descendants t c).card).sum < (descendants t i).card := by
  have hnodup : (childrenOf t i).Nodup := List.nodup_range.filter _
  have hdisjoint : ∀ c ∈ (childrenOf t i).toFinset, ∀ d ∈ (childrenOf t i).toFinset, c ≠ d →
      Disjoint (descendants t c) (descendants t d) := by
    intro c hc d hd hne
    rw [Finset.disjoint_left]
    intro j hcj hdj
    exact hne (ht.eq_of_above_both (mem_childrenOf.mp (List.mem_toFinset.mp hc))
      (mem_childrenOf.mp (List.mem_toFinset.mp hd)) (mem_descendants.mp hcj).2
      (mem_descendants.mp hdj).2)
  rw [← List.sum_toFinset _ hnodup, ← Finset.card_biUnion hdisjoint]
  refine Finset.card_lt_card ⟨?_, fun hsub => ?_⟩
  · intro j hj
    obtain ⟨c, hc, hj⟩ := Finset.mem_biUnion.mp hj
    obtain ⟨n, hn, hp⟩ := mem_childrenOf.mp (List.mem_toFinset.mp hc)
    obtain ⟨hlt, habove⟩ := mem_descendants.mp hj
    exact mem_descendants.mpr ⟨hlt, (Above.up hn hp .here).trans habove⟩
  · -- The node itself is not below any of its children.
    obtain ⟨c, hc, hj⟩ := Finset.mem_biUnion.mp (hsub (mem_descendants.mpr ⟨hi, .here⟩))
    obtain ⟨n, hn, hp⟩ := mem_childrenOf.mp (List.mem_toFinset.mp hc)
    have hlt := (ht.of_parent hn hp).1
    have hle := (mem_descendants.mp hj).2.le ht
    omega

/-- What stands below a node of a closed tableau refutes the branch to it. -/
theorem Sound.exists_refutes (h : Sound clauses s)
    (hclosed : ∀ i nd, s.tree.get? i = some nd → nd.isClosed = true) {nd : Node (Label String)}
    (hn : s.tree.get? i = some nd) (hi : BranchAt s.tree i branch) :
    ∃ n < (descendants s.tree i).card, Refutes clauses.clauses branch n := by
  -- Children have greater numbers, of which there are finitely many.
  induction hk : s.tree.size - i using Nat.strongRecOn generalizing i nd branch with
  | ind k ih =>
    have hlt := Arena.lt_size_of_get? hn
    by_cases hleaf : nd.isLeaf = true
    · obtain ⟨j, a, hji, ha, hcomplement⟩ := h.justified i nd hn hleaf (hclosed i nd hn)
      obtain ⟨rest, rfl⟩ := List.head?_eq_some_iff.mp (hi.own.symm.trans ha)
      have hmem := (hi.mem_iff _).mpr ⟨j, hji, hcomplement⟩
      refine ⟨0, Finset.card_pos.mpr ⟨i, mem_descendants.mpr ⟨hlt, .here⟩⟩, .close ?_⟩
      exact (List.mem_cons.mp hmem).resolve_left a.complement_ne
    · obtain ⟨c, hc, g, rfl, hatoms⟩ := h.instances i nd hn (Bool.not_eq_true _ ▸ hleaf)
      rw [Clause.map_id] at hatoms
      let cost (a : Atom String) : Nat := sInf {n | Refutes clauses.clauses (a :: branch) n}
      have hchild : ∀ j ∈ childrenOf s.tree i, ∀ a, atomAt s.tree j = some a →
          ∃ n < (descendants s.tree j).card, Refutes clauses.clauses (a :: branch) n := by
        intro j hj a ha
        obtain ⟨md, hm, hp⟩ := mem_childrenOf.mp hj
        rw [atomAt, hm] at ha
        have hlt' := (h.rooted.of_parent hm hp).1
        exact ih (s.tree.size - j) (by omega) hm (hi.child hm hp ha) rfl
      have hone : ∀ a ∈ c.atoms, Refutes clauses.clauses (a :: branch) (cost a) := by
        intro a ha
        obtain ⟨j, hj, hja⟩ := List.mem_map.mp (hatoms ▸ List.mem_map_of_mem ha)
        obtain ⟨n, -, hrefutes⟩ := hchild j hj a hja
        exact Nat.sInf_mem ⟨n, hrefutes⟩
      refine ⟨_, Nat.lt_of_le_of_lt ?_ (sum_card_descendants_lt h.rooted hlt), .expand hc hone⟩
      have hsum : (c.atoms.map fun a => cost a + 1) =
          (childrenOf s.tree i).map fun j => (atomAt s.tree j).elim 0 fun a => cost a + 1 := by
        have helim :=
          congrArg (List.map fun o : Option (Atom String) => o.elim 0 fun a => cost a + 1) hatoms
        simpa [childAtoms, Function.comp_def] using helim.symm
      rw [hsum]
      refine List.sum_le_sum fun j hj => ?_
      have hmem : atomAt s.tree j ∈ c.atoms.map some := hatoms ▸ List.mem_map_of_mem hj
      obtain ⟨a, -, hja⟩ := List.mem_map.mp hmem
      obtain ⟨n, hlt, hrefutes⟩ := hchild j hj a hja.symm
      rw [← hja]
      exact Nat.lt_of_le_of_lt (Nat.sInf_le hrefutes) hlt

/-- Whether moves, none of which takes one back, lead from a tableau to a finished one. -/
def Finishes (s : State String) (moves : List Move) : Prop :=
  (∀ m ∈ moves, m ≠ .undo) ∧
    ∃ s' v, moves.foldlM step s = .ok s' ∧ s'.verdict = .ok v ∧ v.closed = true

section Initial

variable {backtracking manual : Bool}

private theorem ready_initial (clauses : ClauseSet String) (backtracking manual : Bool) :
    Ready clauses (.initial clauses .unconnected false backtracking manual) where
  kind := rfl
  regular := rfl
  counted := Nat.zero_lt_one
  sound := sound_initial ..

theorem branchAt_root (h : Sound clauses s) : BranchAt s.tree root [] where
  own := h.bare
  mem_iff a := by
    refine ⟨fun ha => absurd ha List.not_mem_nil, ?_⟩
    rintro ⟨j, hj, ha⟩
    rw [Nat.le_zero.mp (hj.le h.rooted), ← root, h.bare] at ha
    cases ha

/-- A proof can be finished exactly if the clauses have a refutation for whose nodes and the root
there are ids. -/
theorem exists_finishes_iff (hne : ∀ c ∈ clauses.clauses, c.atoms ≠ []) :
    (∃ moves, Finishes (.initial clauses .unconnected false backtracking manual) moves) ↔
      ∃ n < UInt32.size, Refutes clauses.clauses [] n := by
  constructor
  · rintro ⟨moves, -, s, v, hrun, hv, hclosed⟩
    have hsound := sound_of_run hrun
    obtain ⟨r, hr, hr_closed⟩ := Verdict.exists_closed_root hv hclosed
    have hlinked := hsound.linked_of_closed hr hr_closed
    have hall := fun i nd (hn : s.tree.get? i = some nd) =>
      isClosed_of_root hlinked hsound.settled hr hr_closed hn
    obtain ⟨n, hlt, hrefutes⟩ := Sound.exists_refutes hsound hall hr (branchAt_root hsound)
    have hle := Nat.le_trans (card_descendants_le s.tree root) hlinked.fits
    exact ⟨n, Nat.lt_of_lt_of_le hlt hle, hrefutes⟩
  · rintro ⟨n, hlt, hrefutes⟩
    have hready := ready_initial clauses backtracking manual
    have hfits : 1 + n ≤ UInt32.size := by omega
    obtain ⟨s, hs, r, hr, hr_closed⟩ := hrefutes.exists_closedAt hne hready
      ⟨branchAt_root hready.sound, _, rfl, rfl, rfl⟩ hfits
    obtain ⟨moves, hmoves, hrun⟩ := hs.run
    obtain ⟨v, hv, heq⟩ := Verdict.exists_ofRoot_eq hr
    exact ⟨moves, hmoves, s, v, hrun, hv, heq.trans hr_closed⟩

end Initial

/-- Propositional tableaux without restrictions are sound and complete for sets of non-empty
clauses, as far as there are ids: the clauses have no model exactly if they have a refutation, which
then needs only a bounded number of nodes, and some moves, none of which takes one back, finish the
proof exactly if there is a refutation with fewer nodes than ids. -/
theorem complete_within_ids (clauses : ClauseSet String) (backtracking manual : Bool)
    (hne : ∀ c ∈ clauses.clauses, c.atoms ≠ []) :
    ((∀ val, clauses.eval val = false) ↔
      ∃ n ≤ nodeBound clauses.clauses, Refutes clauses.clauses [] n) ∧
    ((∃ moves, Finishes (.initial clauses .unconnected false backtracking manual) moves) ↔
      ∃ n < UInt32.size, Refutes clauses.clauses [] n) :=
  ⟨unsatisfiable_iff_exists_refutes clauses, exists_finishes_iff hne⟩

/-- The clauses `{a, b}`, `{¬a}` and `{¬b}` have a closed tableau. -/
theorem excludedPair_finishes :
    (∀ c ∈ excludedPair.clauses, c.atoms ≠ []) ∧ (∀ val, excludedPair.eval val = false) ∧
      ∃ moves, Finishes (.initial excludedPair .unconnected false false false) moves := by
  have hne : ∀ c ∈ excludedPair.clauses, c.atoms ≠ [] := by decide
  have hunsat (val : String → Bool) : excludedPair.eval val = false := by
    cases ha : val "a" <;> cases hb : val "b" <;>
      simp [excludedPair, ClauseSet.eval, Clause.eval, Atom.eval, ha, hb]
  obtain ⟨hiff, hfinishes⟩ := complete_within_ids excludedPair false false hne
  obtain ⟨n, hle, hrefutes⟩ := hiff.mp hunsat
  have hbound : nodeBound excludedPair.clauses < UInt32.size := by decide
  exact ⟨hne, hunsat, hfinishes.mpr ⟨n, Nat.lt_of_le_of_lt hle hbound, hrefutes⟩⟩

/-- Thirteen names. -/
def letters : List String := ["a", "b", "c", "d", "e", "f", "g", "h", "i", "j", "k", "l", "m"]

/-- The clauses with all signs of thirteen letters have no model, but also no closed tableau: it
would have more nodes than there are ids. -/
theorem letters_not_finishes :
    (∀ c ∈ (signClauses letters).clauses, c.atoms ≠ []) ∧
      (∀ val, (signClauses letters).eval val = false) ∧
      ¬ ∃ moves,
        Finishes (.initial (signClauses letters) .unconnected false false false) moves := by
  have hne : ∀ c ∈ (signClauses letters).clauses, c.atoms ≠ [] := by
    intro c hc hnil
    have hlit := mem_signClauses.mp hc
    rw [hnil] at hlit
    cases hlit
  refine ⟨hne, eval_signClauses letters, fun hfinishes => ?_⟩
  obtain ⟨n, hlt, hrefutes⟩ := (exists_finishes_iff hne).mp hfinishes
  have hfactorial := hrefutes.factorial_le (by decide) consistent_nil
  have hlarge : UInt32.size < (undecided letters []).length.factorial := by decide
  omega

end Deduction.Tableau.Propositional
