import Deduction.Proofs.NonClausal.Names
import Deduction.Proofs.Tree.Growth

/-!
# The open leaves below a node

A rule extends the open leaves at or below the node of its formula. They are listed
exactly: every one of them once, from left to right, and nothing else. Of two leaves the
one further left is at or below an earlier child of the node where their branches part.
A traversal that keeps the nodes still to be visited on a stack, with the children of a
node put on it from right to left, finds the same leaves in the same order.

All this is so as long as there are ids. A disjunction can be decomposed on all branches
again and again, and after 32 times there are more nodes than ids. Then a node lists the
root as its child, and the open leaves below the root are not found any more.
-/

namespace Deduction

namespace Tree

variable {α : Type} {t : Tree α} {fuel i j : Nat} {leaves : List Nat}

/-- Whether a node is a leaf that is not closed. -/
def OpenLeaf (t : Tree α) (i : Nat) : Prop :=
  ∃ n, t.get? i = some n ∧ n.isLeaf = true ∧ n.isClosed = false

/-- Whether the branches to two nodes part at some node, where the first one goes on to a child
further left. -/
def LeftOf (t : Tree α) (i j : Nat) : Prop :=
  ∃ p m c d, t.get? p = some m ∧ [c, d].Sublist m.children ∧ Above t c i ∧ Above t d j

/-- A traversal with a stack, from whose end nodes are taken: a leaf is listed if it is open, and
the children of any other node are put on the stack from right to left. -/
inductive Traverses (t : Tree α) : List Nat → List Nat → Prop
  | done : Traverses t [] []
  | leaf {todo leaves : List Nat} {i : Nat} {n : Node α} (hn : t.get? i = some n)
      (hleaf : n.isLeaf = true) (h : Traverses t todo leaves) :
      Traverses t (todo ++ [i]) ((if n.isClosed then [] else [i]) ++ leaves)
  | inner {todo leaves : List Nat} {i : Nat} {n : Node α} (hn : t.get? i = some n)
      (hinner : n.isLeaf = false) (h : Traverses t (todo ++ n.children.reverse) leaves) :
      Traverses t (todo ++ [i]) leaves

theorem LeftOf.ne (ht : Linked t) (h : LeftOf t i j) : i ≠ j := by
  rintro rfl
  obtain ⟨p, m, c, d, hm, hcd, hci, hdi⟩ := h
  have hsame := ht.eq_of_above_both (ht.child hm c (hcd.subset (by simp)))
    (ht.child hm d (hcd.subset (by simp))) hci hdi
  have hordered := (ht.ordered hm).sublist hcd
  simp [hsame] at hordered

/-- No open leaf below a node is missing. -/
theorem mem_openLeavesWithin (ht : Linked t) (h : openLeavesWithin t fuel i = some leaves)
    (hij : Above t i j) (hj : OpenLeaf t j) : j ∈ leaves := by
  obtain ⟨m, hm, hleaf, hopen⟩ := hj
  induction fuel generalizing i leaves with
  | zero => cases h
  | succ fuel ih =>
    obtain ⟨n, hn, ⟨hend, rfl⟩ | ⟨hinner, below, rfl, hbelow⟩⟩ := openLeavesWithin_cases h
    · by_cases hji : j = i
      · subst hji
        cases hn.symm.trans hm
        simp [hopen]
      · rw [hij.isLeaf_eq_false ht.toRooted (Ne.symm hji) hn] at hend
        cases hend
    · have hji : j ≠ i := by
        rintro rfl
        cases hn.symm.trans hm
        cases hinner.symm.trans hleaf
      obtain ⟨c, k, hk, hparent, hcj⟩ := hij.exists_child hji
      obtain ⟨-, n', hn', hc⟩ := ht.of_parent hk hparent
      cases hn.symm.trans hn'
      obtain ⟨js, hjs, hwithin⟩ := List.mem_map.mp (hbelow ▸ List.mem_map_of_mem hc)
      exact List.mem_flatten.mpr ⟨js, hjs, ih hwithin.symm hcj⟩

/-- The open leaves that are listed for a node are those at or below it. -/
theorem mem_openLeaves_iff (ht : Linked t) (h : openLeaves t i = some leaves) :
    j ∈ leaves ↔ Above t i j ∧ OpenLeaf t j :=
  ⟨fun hj => ⟨above_of_mem_openLeavesWithin ht h hj, isOpen_of_mem_openLeaves h hj⟩,
    fun hj => mem_openLeavesWithin ht h hj.1 hj.2⟩

/-- The open leaves come from left to right. -/
theorem pairwise_leftOf_openLeavesWithin (ht : Linked t)
    (h : openLeavesWithin t fuel i = some leaves) : leaves.Pairwise (LeftOf t) := by
  induction fuel generalizing i leaves with
  | zero => cases h
  | succ fuel ih =>
    obtain ⟨n, hn, ⟨-, rfl⟩ | ⟨-, below, rfl, hbelow⟩⟩ := openLeavesWithin_cases h
    · split
      · exact .nil
      · exact List.pairwise_singleton _ _
    · refine List.pairwise_flatten.mpr ⟨fun js hjs => ?_, ?_⟩
      · obtain ⟨c, -, hwithin⟩ := List.mem_map.mp (hbelow ▸ List.mem_map_of_mem hjs)
        exact ih hwithin
      · -- Leaves in different lists are below different children.
        have hchildren : (n.children.map (openLeavesWithin t fuel)).Pairwise fun u v =>
            ∀ js ∈ u, ∀ ks ∈ v, ∀ j ∈ js, ∀ k ∈ ks, LeftOf t j k := by
          refine List.pairwise_map.mpr (List.pairwise_iff_forall_sublist.mpr ?_)
          intro c d hcd js hjs ks hks j hj k hk
          exact ⟨i, n, c, d, hn, hcd, above_of_mem_openLeavesWithin ht hjs hj,
            above_of_mem_openLeavesWithin ht hks hk⟩
        rw [hbelow, List.pairwise_map] at hchildren
        exact hchildren.imp fun hleft => hleft _ rfl _ rfl

/-- A traversal with a stack lists the open leaves of the node that is taken first, and then those
that it lists for the rest of the stack. -/
theorem Traverses.of_openLeavesWithin (h : openLeavesWithin t fuel i = some leaves)
    {todo rest : List Nat} (hrest : Traverses t todo rest) :
    Traverses t (todo ++ [i]) (leaves ++ rest) := by
  induction fuel generalizing i leaves todo rest with
  | zero => cases h
  | succ fuel ih =>
    -- The children are taken from left to right, so the induction is on the list of children.
    have hall (ids : List Nat) (below : List (List Nat))
        (hbelow : ids.map (openLeavesWithin t fuel) = below.map some) :
        Traverses t (todo ++ ids.reverse) (below.flatten ++ rest) := by
      induction ids generalizing below with
      | nil =>
        rw [List.map_nil, List.nil_eq, List.map_eq_nil_iff] at hbelow
        simpa [hbelow] using hrest
      | cons c ids ihids =>
        cases below with
        | nil => cases hbelow
        | cons js below =>
          obtain ⟨hjs, hbelow⟩ := List.cons_eq_cons.mp hbelow
          simpa using ih hjs (ihids below hbelow)
    obtain ⟨n, hn, ⟨hleaf, rfl⟩ | ⟨hinner, below, rfl, hbelow⟩⟩ := openLeavesWithin_cases h
    · exact .leaf hn hleaf hrest
    · exact .inner hn hinner (hall n.children below hbelow)

end Tree

namespace NonClausal

open Deduction.Tree

/-- In every tableau that is reached by moves, the open leaves at or below a node are listed
exactly, each of them once and from left to right, as a traversal with a stack finds them. This is
so as long as there are ids for all nodes; if there are more nodes, the open leaves below the root
are not found. -/
theorem openLeaves_exact {f : Formula} {backtracking : Bool} {moves : List Move} {s : State}
    (hrun : moves.foldlM step (.initial f backtracking) = .ok s) :
    (s.tree.size ≤ UInt32.size → ∀ i n, s.tree.get? i = some n →
      ∃ leaves, openLeaves s.tree i = some leaves ∧
        (∀ j, j ∈ leaves ↔ Above s.tree i j ∧ OpenLeaf s.tree j) ∧ leaves.Nodup ∧
        leaves.Pairwise (LeftOf s.tree) ∧ Traverses s.tree [i] leaves) ∧
    (UInt32.size < s.tree.size → openLeaves s.tree root = none) := by
  have hsteady := ((Formed.invariant f).run (fun _ _ => trivial) hrun).steady
  refine ⟨fun hfits i n hn => ?_, openLeaves_root_eq_none hsteady.rooted⟩
  have ht := hsteady.linked hfits
  obtain ⟨leaves, hleaves⟩ := exists_openLeaves ht hn
  have hleft := pairwise_leftOf_openLeavesWithin ht hleaves
  refine ⟨leaves, hleaves, fun j => mem_openLeaves_iff ht hleaves, hleft.imp (LeftOf.ne ht), hleft,
    ?_⟩
  simpa using Traverses.of_openLeavesWithin hleaves .done

/-- The formula `(A ∧ B) ∨ ((C ∧ D) ∨ (E ∧ ¬E))`. -/
def threeBranches : Formula :=
  let atom (name : String) : Formula := .rel ⟨name, []⟩
  .or (.and (atom "A") (atom "B"))
    (.or (.and (atom "C") (atom "D")) (.and (atom "E") (.not (atom "E"))))

/-- Its branches are extended from right to left, and the rightmost one is closed. -/
def fromTheRight : List Move := [.beta 0, .beta 2, .alpha 4, .alpha 3, .alpha 1, .close 6 5 none]

/-- Leaves further left that came later are listed first, and closed ones are left out. -/
theorem openLeaves_fromTheRight :
    ∃ s n, fromTheRight.foldlM step (.initial threeBranches true) = .ok s ∧
      s.tree.size ≤ UInt32.size ∧ s.tree.get? root = some n ∧
      openLeaves s.tree root = some [10, 8] ∧
      (∀ j, j ∈ [10, 8] ↔ Above s.tree root j ∧ OpenLeaf s.tree j) ∧
      [10, 8].Pairwise (LeftOf s.tree) ∧ Traverses s.tree [root] [10, 8] := by
  have hrun : (fromTheRight.foldlM step (.initial threeBranches true) >>= fun s =>
      Outcome.ofReference ((openLeaves s.tree root).map fun leaves => (s.tree.size, leaves))) =
        .ok (11, [10, 8]) := by
    cbv
  obtain ⟨s, hs, hshown⟩ := Outcome.bind_eq_ok.mp hrun
  obtain ⟨listed, hlisted, hpair⟩ := Option.map_eq_some_iff.mp (Outcome.ofReference_eq_ok.mp hshown)
  obtain ⟨hsize, rfl⟩ := Prod.mk.inj hpair
  have hfits : s.tree.size ≤ UInt32.size := by
    rw [hsize]
    decide
  obtain ⟨n, hn, -⟩ := ((Formed.invariant threeBranches).run (fun _ _ => trivial) hs).rooted.root
  obtain ⟨leaves, hleaves, hmem, -, hleft, htraverses⟩ := (openLeaves_exact hs).1 hfits root n hn
  cases hlisted.symm.trans hleaves
  exact ⟨s, n, hs, hfits, hn, hlisted, hmem, hleft, htraverses⟩

/-- The leaves of a tree. -/
def leafIds {α : Type} (t : Tree α) : List Nat :=
  (List.range t.size).filter fun i => (t.get? i).any Node.isLeaf

theorem mem_leafIds {α : Type} {t : Tree α} {i : Nat} :
    i ∈ leafIds t ↔ ∃ n, t.get? i = some n ∧ n.isLeaf = true := by
  rw [leafIds, List.mem_filter, List.mem_range, Option.any_eq_true]
  refine and_iff_right_of_imp ?_
  rintro ⟨n, hn, -⟩
  exact Arena.lt_size_of_get? hn

theorem nodup_leafIds {α : Type} (t : Tree α) : (leafIds t).Nodup := List.nodup_range.filter _

/-- A leaf that gets two children is replaced by them. -/
theorem leafIds_growFork {t : Tree Label} {p : Nat} (hp : p ∈ leafIds t) (f g : Formula) :
    leafIds (State.growFork f g t p) = (leafIds t).erase p ++ [t.size, t.size + 1] := by
  obtain ⟨n, hn, -⟩ := mem_leafIds.mp hp
  have hlt := Arena.lt_size_of_get? hn
  have hfork : State.growFork f g t p = growAll t p [⟨f, none⟩, ⟨g, none⟩] := rfl
  have hnew (j : Nat) (hj : j < 2) :
      ((growAll t p [⟨f, none⟩, ⟨g, none⟩]).get? (t.size + j)).any Node.isLeaf = true := by
    rw [get?_growAll_new hlt (List.getElem?_eq_getElem hj)]
    rfl
  rw [hfork, leafIds, size_growAll, List.range_add, List.filter_append]
  congr 1
  · rw [(nodup_leafIds t).erase_eq_filter, leafIds, List.filter_filter]
    refine List.filter_congr fun i hi => ?_
    obtain ⟨m, hm⟩ := Arena.exists_get? (List.mem_range.mp hi)
    rw [get?_growAll hlt, if_pos (List.mem_range.mp hi), hm]
    by_cases hpi : p = i
    · simp [hpi, Node.isLeaf]
    · simp [hpi, Ne.symm hpi]
  · have hfirst := hnew 0 (by decide)
    have hsecond := hnew 1 (by decide)
    simp_all [List.range_succ]

/-- Extending distinct leaves by two nodes each makes so many leaves more, and twice as many
nodes. -/
theorem foldl_growFork {leaves : List Nat} {t : Tree Label} (hnodup : leaves.Nodup)
    (hleaves : leaves ⊆ leafIds t) (f g : Formula) :
    (leaves.foldl (State.growFork f g) t).size = t.size + 2 * leaves.length ∧
      (leafIds (leaves.foldl (State.growFork f g) t)).length =
        (leafIds t).length + leaves.length := by
  induction leaves generalizing t with
  | nil => exact ⟨rfl, rfl⟩
  | cons p leaves ih =>
    obtain ⟨hp, hnodup⟩ := List.nodup_cons.mp hnodup
    obtain ⟨hleaf, hleaves⟩ := List.cons_subset.mp hleaves
    have hgrown := leafIds_growFork hleaf f g
    have hrest : leaves ⊆ leafIds (State.growFork f g t p) := by
      intro q hq
      have hqp : q ≠ p := fun hqp => hp (hqp ▸ hq)
      rw [hgrown]
      exact List.mem_append_left _ ((List.mem_erase_of_ne hqp).mpr (hleaves hq))
    obtain ⟨hsize, hlength⟩ := ih hnodup hrest
    have hpos := List.length_pos_of_mem hleaf
    rw [List.foldl_cons, hsize, hlength, hgrown, State.growFork, size_grow, size_grow,
      List.length_append, List.length_erase_of_mem hleaf, List.length_cons]
    simp only [List.length_cons, List.length_nil]
    omega

/-- Whether a tableau for a disjunction is what comes from decomposing it a number of times: all
nodes are open, and with each time the leaves are doubled. -/
structure Forked (f g : Formula) (times : Nat) (s : State) : Prop where
  /-- The tableau is one for the disjunction. -/
  formed : Formed (.or f g) s
  /-- The disjunction is at the root. -/
  disjunction : ∃ n, s.tree.get? root = some n ∧ n.label.formula = .or f g
  /-- No node is closed. -/
  isOpen : ∀ i n, s.tree.get? i = some n → n.isClosed = false
  /-- The leaves have been doubled each time. -/
  leaves : (leafIds s.tree).length = 2 ^ times
  /-- There is one inner node less than leaves. -/
  size : s.tree.size + 1 = 2 ^ (times + 1)

variable {f g : Formula} {times : Nat} {s : State}

private theorem forked_initial (f g : Formula) (backtracking : Bool) :
    Forked f g 0 (.initial (.or f g) backtracking) where
  formed := formed_initial _ backtracking
  disjunction := ⟨_, rfl, rfl⟩
  isOpen i n hn := by rw [(eq_of_get?_single hn).2]
  leaves := rfl
  size := rfl

/-- Every open leaf of such a tableau is listed for the root. -/
theorem Forked.exists_openLeaves (h : Forked f g times s) (hfits : s.tree.size ≤ UInt32.size) :
    ∃ leaves, openLeaves s.tree root = some leaves ∧ leaves.Perm (leafIds s.tree) := by
  have ht := h.formed.steady.linked hfits
  obtain ⟨r, hr, -⟩ := h.disjunction
  obtain ⟨leaves, hleaves⟩ := Tree.exists_openLeaves ht hr
  refine ⟨leaves, hleaves, (List.perm_ext_iff_of_nodup ?_ (nodup_leafIds _)).mpr ?_⟩
  · exact (pairwise_leftOf_openLeavesWithin ht hleaves).imp (LeftOf.ne ht)
  · intro j
    rw [mem_openLeaves_iff ht hleaves, mem_leafIds]
    constructor
    · rintro ⟨-, n, hn, hleaf, -⟩
      exact ⟨n, hn, hleaf⟩
    · rintro ⟨n, hn, hleaf⟩
      exact ⟨ht.above_root (Arena.lt_size_of_get? hn), n, hn, hleaf, h.isOpen j n hn⟩

/-- As long as there are ids, the disjunction is decomposed at every leaf. -/
theorem Forked.exists_beta (h : Forked f g times s) (hfits : s.tree.size ≤ UInt32.size) :
    ∃ leaves : List Nat, leaves.Perm (leafIds s.tree) ∧ leaves.length = 2 ^ times ∧
      s.beta root = .ok { s with tree := leaves.foldl (State.growFork f g) s.tree } := by
  obtain ⟨leaves, hleaves, hperm⟩ := h.exists_openLeaves hfits
  obtain ⟨r, hr, hformula⟩ := h.disjunction
  have hlength : leaves.length = 2 ^ times := hperm.length_eq.trans h.leaves
  have hnonempty : leaves.isEmpty = false := by
    have hpos := Nat.two_pow_pos times
    rw [List.isEmpty_eq_false_iff, ← List.length_pos_iff]
    omega
  have hnode : s.node root = .ok r := node_eq_ok.mpr ⟨by decide, hr⟩
  have htargets : s.targets root r.label.formula = .ok leaves := by
    rw [State.targets, hleaves, Outcome.ofReference, Outcome.ok_bind, hnonempty]
    rfl
  refine ⟨leaves, hperm, hlength, ?_⟩
  rw [State.beta, hnode, Outcome.ok_bind]
  split
  next hor =>
    cases hformula.symm.trans hor
    exact Outcome.bind_eq_ok.mpr ⟨leaves, htargets, rfl⟩
  next hnot => exact absurd hformula (hnot f g)

/-- As long as there are ids, the disjunction is decomposed once more. -/
theorem Forked.exists_step (h : Forked f g times s) (hfits : s.tree.size ≤ UInt32.size) :
    ∃ s', step s (.beta root) = .ok s' ∧ Forked f g (times + 1) s' := by
  obtain ⟨leaves, hperm, hlength, hbeta⟩ := h.exists_beta hfits
  obtain ⟨r, hr, hformula⟩ := h.disjunction
  obtain ⟨f', e, he⟩ := expands_of_beta hbeta
  have hext := he.extends_tree h.formed.rooted
  obtain ⟨hsize, hcount⟩ := foldl_growFork (hperm.nodup_iff.mpr (nodup_leafIds _))
    hperm.subset f g
  refine ⟨_, (step_of_ne (by simp)).trans (Outcome.bind_eq_ok.mpr ⟨_, hbeta, rfl⟩),
    (h.formed.expand he).record _, ?_, fun i n hn => ?_, ?_, ?_⟩
  · obtain ⟨ids, hids⟩ := hext.node hr
    exact ⟨_, hids, hformula⟩
  · cases hold : s.tree.get? i with
    | none => exact hext.isOpen hn hold
    | some m =>
      obtain ⟨ids, hids⟩ := hext.node hold
      cases hids.symm.trans hn
      exact h.isOpen i m hold
  · exact hcount.trans (by rw [h.leaves, hlength, Nat.pow_succ]; omega)
  · have hold := h.size
    change (leaves.foldl (State.growFork f g) s.tree).size + 1 = _
    rw [hsize, hlength]
    omega

/-- A disjunction can be decomposed as long as there are ids. -/
theorem exists_forked (f g : Formula) (backtracking : Bool) (htimes : times ≤ 32) :
    ∃ s, (List.replicate times (.beta root)).foldlM step (.initial (.or f g) backtracking) =
      .ok s ∧ Forked f g times s := by
  induction times with
  | zero => exact ⟨_, rfl, forked_initial f g backtracking⟩
  | succ times ih =>
    obtain ⟨s, hrun, hs⟩ := ih (Nat.le_of_succ_le htimes)
    have hfits : s.tree.size ≤ UInt32.size := by
      have hsize := hs.size
      have hpow : 2 ^ (times + 1) ≤ 2 ^ 32 := Nat.pow_le_pow_right (by decide) htimes
      have hids : UInt32.size = 2 ^ 32 := rfl
      omega
    obtain ⟨s', hstep, hs'⟩ := hs.exists_step hfits
    refine ⟨s', ?_, hs'⟩
    rw [List.replicate_succ', List.foldlM_append, hrun, Outcome.ok_bind, List.foldlM_cons, hstep]
    rfl

/-- The formula `P ∨ Q`. -/
def choice : Formula := .or (.rel ⟨"P", []⟩) (.rel ⟨"Q", []⟩)

/-- After it has been decomposed 32 times there are open leaves, but none of them is found. -/
theorem choice_openLeaves_lost :
    ∃ s, (List.replicate 32 (.beta root)).foldlM step (.initial choice true) = .ok s ∧
      openLeaves s.tree root = none ∧ ∃ j, Above s.tree root j ∧ OpenLeaf s.tree j := by
  obtain ⟨s, hrun, hs⟩ := exists_forked (.rel ⟨"P", []⟩) (.rel ⟨"Q", []⟩) true (Nat.le_refl 32)
  have hlarge : UInt32.size < s.tree.size := by
    have hsize := hs.size
    have hids : UInt32.size = 2 ^ 32 := rfl
    omega
  refine ⟨s, hrun, openLeaves_root_eq_none hs.formed.rooted hlarge, ?_⟩
  have hpos : 0 < (leafIds s.tree).length := by
    rw [hs.leaves]
    exact Nat.two_pow_pos 32
  obtain ⟨j, hj⟩ := List.exists_mem_of_length_pos hpos
  obtain ⟨n, hn, hleaf⟩ := mem_leafIds.mp hj
  exact ⟨j, hs.formed.rooted.above_root (Arena.lt_size_of_get? hn), n, hn, hleaf, hs.isOpen j n hn⟩

end NonClausal

end Deduction
