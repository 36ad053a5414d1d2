import Deduction.Proofs.Tree.Closing

/-!
# Trees with more nodes than there are ids

The id of the node after the last one that has an id of its own is that of the root, so
the parent of this node lists the root. From there on neither the parent nor any node above
it can be closed, as the root would have to be closed before. The way down from the root
leads back to it, so the open leaves are not found any more.

As long as there are ids, nodes are added below open ones; beyond that they may come to
stand anywhere.
-/

namespace Deduction.Tree

variable {α : Type} {t t' : Tree α} {i j p q : Nat}

/-- Whether a node with an id of its own lists the root and all nodes above it are open. -/
structure Blocks (t : Tree α) (p : Nat) : Prop where
  /-- The node has an id of its own. -/
  named : p < UInt32.size
  /-- It lists the root. -/
  lists : ListsRoot t p
  /-- It is open, and so is all above it. -/
  isOpen : ∀ j n, Above t j p → t.get? j = some n → n.isClosed = false

/-- On the way down to a node with an id of its own, each node lists the next one. -/
theorem Above.exists_listed (ht : Rooted t) (hp : p < UInt32.size) (h : Above t j p) (hne : p ≠ j) :
    ∃ m, t.get? j = some m ∧ ∃ c ∈ m.children, Above t c p := by
  obtain ⟨c, n, hn, hparent, hc⟩ := h.exists_child hne
  obtain ⟨-, m, hm, hmem⟩ := ht.of_parent hn hparent
  rw [Arena.idOf_of_lt (Nat.lt_of_le_of_lt (hc.le ht) hp)] at hmem
  exact ⟨m, hm, c, hmem, hc⟩

/-- The parent of the first node without an id of its own lists the root. -/
theorem Rooted.exists_listsRoot (ht : Rooted t) (hsize : UInt32.size < t.size) :
    ∃ p < UInt32.size, ListsRoot t p := by
  obtain ⟨n, hn⟩ := Arena.exists_get? hsize
  obtain ⟨p, m, -, hlt, hm, hmem⟩ := ht.parent hn (by decide)
  exact ⟨p, hlt, m, hm, hmem⟩

namespace Blocks

/-- A node whose listed nodes are all closed does not stand above a node that blocks. -/
theorem not_above_of_allClosed (h : Blocks t p) (ht : Rooted t) {n : Node α}
    (hn : t.get? q = some n) (hall : allClosed t n.children = some true) : ¬ Above t q p := by
  intro hq
  have hclosed := isClosed_of_allClosed hall
  -- What is listed on the way down, and at the end of it, is open.
  have hnext : ∃ c ∈ n.children, Above t c p := by
    by_cases hqp : p = q
    · subst hqp
      obtain ⟨m, hm, hroot⟩ := h.lists
      cases hn.symm.trans hm
      exact ⟨root, hroot, ht.above_root (Arena.lt_size_of_get? hn)⟩
    · obtain ⟨m, hm, hlisted⟩ := hq.exists_listed ht h.named hqp
      cases hn.symm.trans hm
      exact hlisted
  obtain ⟨c, hc, habove⟩ := hnext
  obtain ⟨k, hk⟩ := Arena.exists_get? (ht.listed hn c hc)
  exact Bool.false_ne_true ((h.isOpen c k habove hk).symm.trans (hclosed c hc k hk))

theorem mark (h : Blocks t p) (hq : ¬ Above t q p) : Blocks (mark t q) p where
  named := h.named
  lists := h.lists.of_sameShape (sameShape_mark t q)
  isOpen j n hj hn := by
    have hj := hj.of_sameShape (sameShape_mark t q).symm
    rw [get?_mark] at hn
    obtain ⟨m, hm, rfl⟩ := Option.map_eq_some_iff.mp hn
    have hqj : q ≠ j := fun hqj => hq (hqj ▸ hj)
    rw [if_neg hqj]
    exact h.isOpen j m hj hm

/-- Closing upwards does not reach what is blocked. -/
theorem closeUp {fuel : Nat} {ref : Option Nat} (h : Blocks t p) (ht : Rooted t)
    (hclose : closeUp t fuel ref = some t') : Blocks t' p := by
  induction fuel generalizing t ref with
  | zero =>
    cases ref with
    | none => exact Option.some.inj hclose ▸ h
    | some q => cases hclose
  | succ fuel ih =>
    cases ref with
    | none => exact Option.some.inj hclose ▸ h
    | some q =>
      obtain ⟨n, hn, hclose⟩ := Option.bind_eq_some_iff.mp hclose
      obtain ⟨b, hb, hclose⟩ := Option.bind_eq_some_iff.mp hclose
      split at hclose
      next hall =>
        rw [hall] at hb
        exact ih (h.mark (h.not_above_of_allClosed ht hn hb)) (ht.of_sameShape (sameShape_mark t q))
          hclose
      · exact Option.some.inj hclose ▸ h

theorem closeLeaf (h : Blocks t p) (ht : Rooted t) {n : Node α} (hn : t.get? i = some n)
    (hleaf : n.isLeaf = true) (hclose : closeLeaf t i = some t') : Blocks t' p := by
  rw [closeLeaf_eq_closeUp hn hleaf] at hclose
  exact h.closeUp ht hclose

theorem mono (h : Blocks t p) (ht : Rooted t) (hext : Extends t t') : Blocks t' p where
  named := h.named
  lists := by
    obtain ⟨m, hm, hmem⟩ := h.lists
    obtain ⟨ids, hids⟩ := hext.node hm
    exact ⟨_, hids, List.mem_append_left ids hmem⟩
  isOpen j n hj hn := by
    obtain ⟨m, hm, -⟩ := h.lists
    have hlt := Arena.lt_size_of_get? hm
    have hj := hj.before ht hext.keepsParents hlt
    obtain ⟨k, hk⟩ := Arena.exists_get? (Nat.lt_of_le_of_lt (hj.le ht) hlt)
    obtain ⟨ids, hids⟩ := hext.node hk
    cases hids.symm.trans hn
    exact h.isOpen j k hj hk

theorem of_map (h : Blocks t p) {g : Nat → Node α → Node α}
    (hget : ∀ i, t'.get? i = (t.get? i).map (g i))
    (hg : ∀ i n, (g i n).isClosed = n.isClosed ∧ (g i n).parent = n.parent ∧
      (g i n).children = n.children) : Blocks t' p where
  named := h.named
  lists := h.lists.of_sameShape (sameShape_of_map hget fun i n => (hg i n).2)
  isOpen j n hj hn := by
    have hshape := sameShape_of_map hget fun i n => (hg i n).2
    rw [hget] at hn
    obtain ⟨m, hm, rfl⟩ := Option.map_eq_some_iff.mp hn
    rw [(hg j m).1]
    exact h.isOpen j m (hj.of_sameShape hshape.symm) hm

theorem isOpen_root (h : Blocks t p) (ht : Rooted t) {r : Node α} (hr : t.get? root = some r) :
    r.isClosed = false := by
  obtain ⟨m, hm, -⟩ := h.lists
  exact h.isOpen root r (ht.above_root (Arena.lt_size_of_get? hm)) hr

end Blocks

/-- Whether a tree has grown below open nodes and open leaves of it were closed, as far as there
are ids. -/
structure Steady (t : Tree α) : Prop where
  /-- Every node but the root has a parent that lists its id. -/
  rooted : Rooted t
  /-- The links are proper as long as there are ids. -/
  linked : t.size ≤ UInt32.size → Linked t
  /-- Nodes are closed as their children are, as long as there are ids. -/
  settled : t.size ≤ UInt32.size → Settled t
  /-- The root is blocked when there are no ids any more. -/
  blocked : UInt32.size < t.size → ∃ p, Blocks t p

namespace Steady

theorem single (label : α) : Steady (single label) where
  rooted := (linked_single label).toRooted
  linked _ := linked_single label
  settled _ := settled_single label
  blocked h := absurd h (by change ¬ UInt32.size < 1; decide)

theorem grow (h : Steady t) (hp : p < t.size)
    (hopen : t.size ≤ UInt32.size → ∃ n, t.get? p = some n ∧ n.isClosed = false) (label : α) :
    Steady (grow t p label) where
  rooted := h.rooted.grow hp label
  linked hfits := by
    rw [size_grow] at hfits
    exact (h.linked (Nat.le_of_succ_le hfits)).grow hfits hp label
  settled hfits := by
    rw [size_grow] at hfits
    obtain ⟨n, hn, hopen⟩ := hopen (Nat.le_of_succ_le hfits)
    exact (h.settled (Nat.le_of_succ_le hfits)).grow h.rooted hn hopen label
  blocked hsize := by
    rw [size_grow] at hsize
    have hext := extends_grow hp label
    rcases Nat.lt_or_eq_of_le (Nat.le_of_lt_succ hsize) with hlt | heq
    · obtain ⟨q, hq⟩ := h.blocked hlt
      exact ⟨q, hq.mono h.rooted hext⟩
    · -- The new node is the first one without an id of its own.
      have hfits : t.size ≤ UInt32.size := Nat.le_of_eq heq.symm
      obtain ⟨n, hn, hopen⟩ := hopen hfits
      have hnamed : p < UInt32.size := heq ▸ hp
      refine ⟨p, hnamed, ⟨{ n with children := n.children ++ [t.nextId] }, ?_, ?_⟩,
        fun j m hj hm => ?_⟩
      · simp [get?_grow hp, Nat.ne_of_lt hp, hn]
      · rw [Arena.nextId, ← heq]
        exact List.mem_append_right _ (List.mem_singleton.mpr (by decide))
      · have hj := hj.before h.rooted hext.keepsParents hp
        obtain ⟨k, hk⟩ := Arena.exists_get? (Nat.lt_of_le_of_lt (hj.le h.rooted) hp)
        obtain ⟨ids, hids⟩ := hext.node hk
        have hk_open := isOpen_of_above h.rooted (h.settled hfits) hj hnamed hn hopen hk
        cases hids.symm.trans hm
        exact hk_open

/-- Changing what nodes say keeps a tree steady. -/
theorem of_map (h : Steady t) {g : Nat → Node α → Node α}
    (hget : ∀ i, t'.get? i = (t.get? i).map (g i))
    (hg : ∀ i n, (g i n).isClosed = n.isClosed ∧ (g i n).parent = n.parent ∧
      (g i n).children = n.children) : Steady t' := by
  have hshape := sameShape_of_map hget fun i n => (hg i n).2
  have hsize := hshape.size_eq
  constructor
  case rooted => exact h.rooted.of_sameShape hshape
  case linked => exact fun hfits => (h.linked (hsize ▸ hfits)).of_sameShape hshape
  case settled => exact fun hfits => (h.settled (hsize ▸ hfits)).of_map hget hg
  case blocked =>
    intro hlarge
    obtain ⟨p, hp⟩ := h.blocked (hsize ▸ hlarge)
    exact ⟨p, hp.of_map hget hg⟩

/-- Closing an open leaf with an id of its own keeps a tree steady. -/
theorem closeLeaf (h : Steady t) (hi : i < UInt32.size) {n : Node α} (hn : t.get? i = some n)
    (hleaf : n.isLeaf = true) (hopen : n.isClosed = false) (hclose : closeLeaf t i = some t') :
    Steady t' := by
  obtain ⟨ids, rfl, -⟩ := closeLeaf_eq_markAll h.rooted hclose
  have hshape := sameShape_markAll t ids
  have hsize := hshape.size_eq
  constructor
  case rooted => exact h.rooted.of_sameShape hshape
  case linked => exact fun hfits => (h.linked (hsize ▸ hfits)).of_sameShape hshape
  case settled =>
    intro hfits
    rw [hsize] at hfits
    exact (h.settled hfits).closeLeaf h.rooted (h.linked hfits).tidy hi hn hleaf hopen hclose
  case blocked =>
    intro hlarge
    obtain ⟨p, hp⟩ := h.blocked (hsize ▸ hlarge)
    exact ⟨p, hp.closeLeaf h.rooted hn hleaf hclose⟩

/-- A tree with a closed root has no more nodes than there are ids. -/
theorem fits_of_isClosed_root (h : Steady t) {r : Node α} (hr : t.get? root = some r)
    (hclosed : r.isClosed = true) : t.size ≤ UInt32.size := by
  by_contra hlarge
  obtain ⟨p, hp⟩ := h.blocked (Nat.lt_of_not_le hlarge)
  exact Bool.false_ne_true ((hp.isOpen_root h.rooted hr).symm.trans hclosed)

end Steady

/-- If from each of some nodes the way down goes on to another one of them, the open leaves below
them are not found. -/
theorem openLeavesWithin_eq_none {Q : Nat → Prop} {fuel : Nat}
    (hstep : ∀ j, Q j → ∃ m, t.get? j = some m ∧ ∃ c ∈ m.children, Q c) (hi : Q i) :
    openLeavesWithin t fuel i = none := by
  induction fuel generalizing i with
  | zero => rfl
  | succ fuel ih =>
    refine Option.eq_none_iff_forall_ne_some.mpr fun ids h => ?_
    obtain ⟨m, hm, c, hc, hQ⟩ := hstep i hi
    obtain ⟨n, hn, ⟨hleaf, -⟩ | ⟨-, below, -, hbelow⟩⟩ := openLeavesWithin_cases h <;>
      cases hm.symm.trans hn
    · exact Bool.false_ne_true ((isLeaf_eq_false_of_mem hc).symm.trans hleaf)
    · obtain ⟨js, -, hjs⟩ := List.mem_map.mp (hbelow ▸ List.mem_map_of_mem hc)
      cases hjs.trans (ih hQ)

/-- In a tree with more nodes than there are ids the open leaves are not found. -/
theorem openLeaves_root_eq_none (ht : Rooted t) (hsize : UInt32.size < t.size) :
    openLeaves t root = none := by
  obtain ⟨p, hnamed, m, hm, hmem⟩ := ht.exists_listsRoot hsize
  have hroot := ht.above_root (Arena.lt_size_of_get? hm)
  refine openLeavesWithin_eq_none (Q := fun j => Above t j p) (fun j hj => ?_) hroot
  by_cases hpj : p = j
  · exact hpj ▸ ⟨m, hm, root, hmem, hroot⟩
  · exact hj.exists_listed ht hnamed hpj

end Deduction.Tree
