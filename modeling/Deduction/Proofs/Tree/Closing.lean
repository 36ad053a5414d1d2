import Deduction.Proofs.Tree.Branch

/-!
# Closing a proof tree

Closing only marks nodes, and of the leaves only the given one: every other node that
it marks has children, which are all closed. A tree is called settled if a node with
children is closed exactly if all that it lists are children of its own and closed; it
stays so when it grows at an open node and when an open leaf is closed. In a settled tree
with a closed root every node is closed, and the leaves tell of all other nodes whether
they are.

In a tree with more nodes than there are ids some node lists the root, which is nobody's
child. Neither that node nor any node above it is ever closed.
-/

namespace Deduction.Tree

variable {α : Type} {t t' : Tree α} {i j p : Nat} {label : α}

theorem get?_mark (t : Tree α) (i j : Nat) :
    (mark t i).get? j =
      (t.get? j).map fun n => if i = j then { n with isClosed := true } else n :=
  Arena.get?_modify t i j _

/-- The tree with several nodes marked as closed. -/
def markAll (t : Tree α) (ids : List Nat) : Tree α := ids.foldl mark t

theorem get?_markAll (t : Tree α) (ids : List Nat) (i : Nat) :
    (markAll t ids).get? i =
      (t.get? i).map fun n => { n with isClosed := n.isClosed || ids.contains i } := by
  induction ids generalizing t with
  | nil => simp [markAll]
  | cons j ids ih =>
    rw [markAll, List.foldl_cons, ← markAll, ih, get?_mark, Option.map_map]
    congr 1
    funext n
    by_cases hij : j = i
    · simp [hij]
    · simp [hij, Ne.symm hij]

theorem size_markAll (t : Tree α) (ids : List Nat) : (markAll t ids).size = t.size := by
  induction ids generalizing t with
  | nil => rfl
  | cons i ids ih =>
    rw [markAll, List.foldl_cons, ← markAll, ih]
    simp [mark, Arena.size, Arena.modify]

theorem get?_markAll_of_some {n : Node α} (hn : t.get? i = some n) (ids : List Nat) :
    (markAll t ids).get? i = some { n with isClosed := n.isClosed || ids.contains i } := by
  rw [get?_markAll, hn, Option.map_some]

theorem sameShape_markAll (t : Tree α) (ids : List Nat) : SameShape t (markAll t ids) :=
  sameShape_of_map (get?_markAll t ids) fun _ _ => ⟨rfl, rfl⟩

theorem sameShape_mark (t : Tree α) (i : Nat) : SameShape t (mark t i) := sameShape_markAll t [i]

/-- Closing on the way up marks nodes on the way up. -/
theorem closeUp_eq_markAll {fuel : Nat} {ref : Option Nat} (h : closeUp t fuel ref = some t') :
    ∃ ids, t' = markAll t ids ∧ ∀ j ∈ ids, ∃ p, ref = some p ∧ Above t j p := by
  induction fuel generalizing t ref with
  | zero =>
    cases ref with
    | none => exact ⟨[], (Option.some.inj h).symm, by simp⟩
    | some p => cases h
  | succ fuel ih =>
    cases ref with
    | none => exact ⟨[], (Option.some.inj h).symm, by simp⟩
    | some p =>
      obtain ⟨n, hn, h⟩ := Option.bind_eq_some_iff.mp h
      obtain ⟨b, -, h⟩ := Option.bind_eq_some_iff.mp h
      split at h
      · obtain ⟨ids, rfl, hids⟩ := ih h
        refine ⟨p :: ids, rfl, fun j hj => ⟨p, rfl, ?_⟩⟩
        rcases List.mem_cons.mp hj with rfl | hj
        · exact .here
        · obtain ⟨q, hq, hjq⟩ := hids j hj
          exact .up hn hq (hjq.of_sameShape (sameShape_mark t p).symm)
      · exact ⟨[], (Option.some.inj h).symm, by simp⟩

/-- A node above another one has children. -/
theorem Above.isLeaf_eq_false (ht : Rooted t) (h : Above t j i) (hne : j ≠ i) {n : Node α}
    (hn : t.get? j = some n) : n.isLeaf = false := by
  obtain ⟨c, k, hk, hparent, -⟩ := h.exists_child hne.symm
  obtain ⟨-, m, hm, hmem⟩ := ht.of_parent hk hparent
  cases hn.symm.trans hm
  exact isLeaf_eq_false_of_mem hmem

/-- Closing a leaf marks it and nodes with children above it. -/
theorem closeLeaf_eq_markAll (ht : Rooted t) (h : closeLeaf t i = some t') :
    ∃ ids, t' = markAll t ids ∧ i ∈ ids ∧
      ∀ j ∈ ids, j ≠ i → ∀ n, t.get? j = some n → n.isLeaf = false := by
  obtain ⟨n, hn, h⟩ := Option.bind_eq_some_iff.mp h
  obtain ⟨ids, rfl, hids⟩ := closeUp_eq_markAll h
  refine ⟨i :: ids, rfl, List.mem_cons_self, fun j hj hne m hm => ?_⟩
  obtain ⟨p, hp, hjp⟩ := hids j ((List.mem_cons.mp hj).resolve_left hne)
  exact (Above.up hn hp (hjp.of_sameShape (sameShape_mark t i).symm)).isLeaf_eq_false ht hne hm

/-- Every other leaf stays as it is when a leaf is closed. -/
theorem get?_of_closeLeaf (ht : Rooted t) (h : closeLeaf t i = some t') {n : Node α}
    (hn : t'.get? j = some n) (hne : j ≠ i) (hleaf : n.isLeaf = true) : t.get? j = some n := by
  obtain ⟨ids, rfl, -, hinner⟩ := closeLeaf_eq_markAll ht h
  rw [get?_markAll] at hn
  obtain ⟨m, hm, rfl⟩ := Option.map_eq_some_iff.mp hn
  have hunmarked : j ∉ ids := fun hmem =>
    Bool.false_ne_true ((hinner j hmem hne m hm).symm.trans hleaf)
  simp [hm, hunmarked]

/-- A list of nodes is all closed if it is found to be. -/
theorem isClosed_of_allClosed {ids : List Nat} (h : allClosed t ids = some true) :
    ∀ i ∈ ids, ∀ n, t.get? i = some n → n.isClosed = true := by
  induction ids with
  | nil => exact fun i hi => absurd hi List.not_mem_nil
  | cons j ids ih =>
    rw [allClosed] at h
    split at h
    · cases h
    next m hm =>
      split at h
      next hclosed =>
        intro i hi n hn
        rcases List.mem_cons.mp hi with rfl | hi
        · cases hm.symm.trans hn
          exact hclosed
        · exact ih h i hi n hn
      · cases h

/-- A list of nodes has an open one if it is found not to be all closed. -/
theorem exists_open_of_allClosed {ids : List Nat} (h : allClosed t ids = some false) :
    ∃ i ∈ ids, ∃ n, t.get? i = some n ∧ n.isClosed = false := by
  induction ids with
  | nil => cases h
  | cons j ids ih =>
    rw [allClosed] at h
    split at h
    · cases h
    next m hm =>
      split at h
      next hclosed =>
        obtain ⟨i, hi, hopen⟩ := ih h
        exact ⟨i, List.mem_cons_of_mem j hi, hopen⟩
      next hclosed => exact ⟨j, List.mem_cons_self, m, hm, Bool.not_eq_true _ ▸ hclosed⟩

/-- Whether a number is that of a closed node with a given parent. -/
def ClosedBelow (t : Tree α) (p i : Nat) : Prop :=
  ∃ n, t.get? i = some n ∧ n.parent = some p ∧ n.isClosed = true

/-- Whether a node, if it has children, is closed exactly if all that it lists are children of its
own and closed. -/
def SettledAt (t : Tree α) (p : Nat) : Prop :=
  ∀ m, t.get? p = some m → m.isLeaf = false →
    (m.isClosed = true ↔ ∀ i ∈ m.children, ClosedBelow t p i)

/-- Whether every node with children is closed exactly if all that it lists are children of its
own and closed. -/
def Settled (t : Tree α) : Prop := ∀ p, SettledAt t p

theorem settled_single (label : α) : Settled (single label) := by
  intro p m hm hleaf
  rw [(eq_of_get?_single hm).2] at hleaf
  cases hleaf

/-- Changing what nodes say keeps a tree settled. -/
theorem Settled.of_map {g : Nat → Node α → Node α} (hs : Settled t)
    (h : ∀ i, t'.get? i = (t.get? i).map (g i))
    (hg : ∀ i n, (g i n).isClosed = n.isClosed ∧ (g i n).parent = n.parent ∧
      (g i n).children = n.children) : Settled t' := by
  intro p m' hm' hinner
  rw [h] at hm'
  obtain ⟨m, hm, rfl⟩ := Option.map_eq_some_iff.mp hm'
  obtain ⟨hclosed, -, hchildren⟩ := hg p m
  rw [Node.isLeaf, hchildren] at hinner
  rw [hclosed, hchildren, hs p m hm hinner]
  refine forall₂_congr fun i _ => ?_
  cases hi : t.get? i <;> simp [ClosedBelow, h, hi, hg i]

/-- A number of the old tree is that of a closed child in a grown tree if it was before. -/
theorem Extends.closedBelow_iff (h : Extends t t') (hi : i < t.size) :
    ClosedBelow t' p i ↔ ClosedBelow t p i := by
  obtain ⟨n, hn⟩ := Arena.exists_get? hi
  obtain ⟨ids, hids⟩ := h.node hn
  simp [ClosedBelow, hn, hids]

/-- A tree stays settled when it grows at an open node. -/
theorem Settled.grow (ht : Rooted t) (hs : Settled t) {m : Node α} (hm : t.get? p = some m)
    (hopen : m.isClosed = false) (label : α) : Settled (grow t p label) := by
  have hp := Arena.lt_size_of_get? hm
  have hext := extends_grow hp label
  intro q k' hk' hinner
  rcases of_get?_grow hp hk' with ⟨rfl, rfl⟩ | ⟨k, hk, rfl⟩
  · cases hinner
  · by_cases hpq : p = q
    · subst hpq
      cases hm.symm.trans hk
      rw [if_pos rfl, hopen]
      refine ⟨fun h => absurd h Bool.false_ne_true, fun h => ?_⟩
      by_cases hleaf : m.isLeaf = true
      · -- The parent of the new node lists the id of that node only, which is open or names an
        -- older node, and no older node has this parent.
        obtain ⟨n, hn, hparent, hclosed⟩ := h t.nextId (by simp)
        rcases of_get?_grow hp hn with ⟨-, rfl⟩ | ⟨l, hl, rfl⟩
        · exact hclosed
        · have hparent : l.parent = some p := by
            split at hparent <;> exact hparent
          obtain ⟨-, m', hm', hmem⟩ := ht.of_parent hl hparent
          cases hm.symm.trans hm'
          cases hleaf.symm.trans (isLeaf_eq_false_of_mem hmem)
      · -- The parent was open before because of what it listed then.
        rw [← hopen]
        refine (hs p m hm (Bool.not_eq_true _ ▸ hleaf)).mpr fun i hi => ?_
        exact (hext.closedBelow_iff (ht.listed hm i hi)).mp (h i (List.mem_append_left _ hi))
    · rw [if_neg hpq] at hinner ⊢
      rw [hs q k hk hinner]
      exact forall₂_congr fun i hi => (hext.closedBelow_iff (ht.listed hk i hi)).symm

/-- The nodes with children of a settled tree whose root is closed, and all leaves, are closed. -/
theorem isClosed_of_root (ht : Linked t) (hs : Settled t) {r : Node α}
    (hr : t.get? root = some r) (hclosed : r.isClosed = true) {n : Node α}
    (hn : t.get? i = some n) : n.isClosed = true := by
  induction i using Nat.strongRecOn generalizing n with
  | ind i ih =>
    by_cases hi : i = root
    · subst hi
      cases hr.symm.trans hn
      exact hclosed
    · obtain ⟨p, m, -, hlt, hm, hmem⟩ := ht.parent hn hi
      rw [ht.idOf_eq hn] at hmem
      obtain ⟨n', hn', -, hclosed⟩ := (hs p m hm (isLeaf_eq_false_of_mem hmem)).mp (ih p hlt hm) i
        hmem
      cases hn.symm.trans hn'
      exact hclosed

/-- Above an open node with an id of its own all nodes of a settled tree are open. -/
theorem isOpen_of_above (ht : Rooted t) (hs : Settled t) (hji : Above t j i)
    (hi : i < UInt32.size) {n m : Node α} (hn : t.get? i = some n) (hopen : n.isClosed = false)
    (hm : t.get? j = some m) : m.isClosed = false := by
  induction hji generalizing n with
  | here =>
    cases hn.symm.trans hm
    exact hopen
  | @up i p k hk hp _ ih =>
    cases hk.symm.trans hn
    obtain ⟨hlt, l, hl, hmem⟩ := ht.of_parent hn hp
    refine ih (Nat.lt_trans hlt hi) hl ?_
    by_contra hclosed
    rw [Arena.idOf_of_lt hi] at hmem
    obtain ⟨n', hn', -, hn_closed⟩ := (hs p l hl (isLeaf_eq_false_of_mem hmem)).mp
      (Bool.not_eq_false _ ▸ hclosed) i hmem
    cases hn.symm.trans hn'
    exact Bool.false_ne_true (hopen.symm.trans hn_closed)

/-- A tree with a closed root has no more nodes than there are ids. -/
theorem fits_of_isClosed_root (ht : Rooted t) (hs : Settled t) {r : Node α}
    (hr : t.get? root = some r) (hclosed : r.isClosed = true) : t.size ≤ UInt32.size := by
  by_contra hlarge
  -- The parent of the first node without an id of its own lists the root.
  obtain ⟨n, hn⟩ := Arena.exists_get? (a := t) (Nat.lt_of_not_le hlarge)
  obtain ⟨p, m, -, hlt, hm, hmem⟩ := ht.parent hn (by decide)
  have hopen : m.isClosed = false := by
    by_contra hm_closed
    obtain ⟨r', hr', hparent, -⟩ := (hs p m hm (isLeaf_eq_false_of_mem hmem)).mp
      (Bool.not_eq_false _ ▸ hm_closed) _ hmem
    obtain ⟨r'', hr'', hnone⟩ := ht.root
    cases hr'.symm.trans hr''
    cases hnone.symm.trans hparent
  have habove := ht.above_root (Arena.lt_size_of_get? hm)
  exact Bool.false_ne_true ((isOpen_of_above ht hs habove hlt hm hopen hr).symm.trans hclosed)

/-- Whether a node is the parent of all that it lists. -/
def Owns (t : Tree α) (p : Nat) : Prop :=
  ∀ m, t.get? p = some m → ∀ i ∈ m.children, ∃ n, t.get? i = some n ∧ n.parent = some p

/-- Whether a node lists the root. -/
def ListsRoot (t : Tree α) (p : Nat) : Prop := ∃ m, t.get? p = some m ∧ root ∈ m.children

/-- Whether a node with a child that has an id of its own is the parent of all that it lists,
unless it lists the root. -/
def Tidy (t : Tree α) : Prop :=
  ∀ i n p, i < UInt32.size → t.get? i = some n → n.parent = some p → Owns t p ∨ ListsRoot t p

theorem Linked.tidy (ht : Linked t) : Tidy t :=
  fun _ _ _ _ _ _ => Or.inl fun _ hm => ht.child hm

theorem Owns.of_sameShape (h : SameShape t t') (hp : Owns t p) : Owns t' p := by
  intro m' hm' i hi
  obtain ⟨m, hm, -, hchildren⟩ := h.symm.node hm'
  obtain ⟨n, hn, hparent⟩ := hp m hm i (hchildren ▸ hi)
  obtain ⟨n', hn', hparent', -⟩ := h.node hn
  exact ⟨n', hn', hparent'.trans hparent⟩

theorem ListsRoot.of_sameShape (h : SameShape t t') (hp : ListsRoot t p) : ListsRoot t' p := by
  obtain ⟨m, hm, hmem⟩ := hp
  obtain ⟨m', hm', -, hchildren⟩ := h.node hm
  exact ⟨m', hm', hchildren ▸ hmem⟩

theorem Tidy.of_sameShape (h : SameShape t t') (ht : Tidy t) : Tidy t' := by
  intro i n' p hi hn' hp
  obtain ⟨n, hn, hparent, -⟩ := h.symm.node hn'
  rcases ht i n p hi hn (hparent.trans hp) with howns | hroot
  · exact Or.inl (howns.of_sameShape h)
  · exact Or.inr (hroot.of_sameShape h)

private theorem get?_mark_of_ne {n : Node α} (hpi : p ≠ i) (hn : t.get? i = some n) :
    (mark t p).get? i = some n := by
  simp [get?_mark, hn, hpi]

/-- Marking an open node whose children are its own and closed settles it, and unsettles at most
its parent. -/
theorem settledAt_mark {n : Node α} {q : Nat} (hn : t.get? p = some n)
    (hclosed : ∀ i ∈ n.children, ClosedBelow t p i) (hs : p ≠ q → SettledAt t q)
    (hq : n.parent ≠ some q) : SettledAt (mark t p) q := by
  have hkeep (i : Nat) : ClosedBelow (mark t p) q i ↔ ClosedBelow t q i := by
    by_cases hpi : p = i
    · subst hpi
      simp [ClosedBelow, get?_mark, hn, hq]
    · simp [ClosedBelow, get?_mark, hpi]
  intro m' hm' hinner
  rw [get?_mark] at hm'
  obtain ⟨m, hm, rfl⟩ := Option.map_eq_some_iff.mp hm'
  by_cases hpq : p = q
  · subst hpq
    cases hn.symm.trans hm
    simp only [if_true, true_iff]
    exact fun i hi => (hkeep i).mpr (hclosed i hi)
  · rw [if_neg hpq] at hinner ⊢
    rw [hs hpq m hm hinner]
    exact forall₂_congr fun i _ => (hkeep i).symm

/-- As long as the root is open, a node that lists closed nodes only does not list the root, so they
are its children. -/
theorem closedBelow_of_allClosed (ht : Rooted t) {n : Node α} (hn : t.get? p = some n)
    (hroot : ∀ r, t.get? root = some r → r.isClosed = false)
    (howns : Owns t p ∨ ListsRoot t p) (hall : allClosed t n.children = some true) :
    ∀ i ∈ n.children, ClosedBelow t p i := by
  have hclosed := isClosed_of_allClosed hall
  have hown : Owns t p := by
    refine howns.resolve_right ?_
    rintro ⟨m, hm, hmem⟩
    cases hn.symm.trans hm
    obtain ⟨r, hr, -⟩ := ht.root
    exact Bool.false_ne_true ((hroot r hr).symm.trans (hclosed root hmem r hr))
  intro i hi
  obtain ⟨m, hm, hparent⟩ := hown n hn i hi
  exact ⟨m, hm, hparent, hclosed i hi m hm⟩

/-- An open node that lists an open one is settled. -/
theorem settledAt_of_allClosed {n : Node α} (hn : t.get? p = some n) (hopen : n.isClosed = false)
    (hall : allClosed t n.children = some false) : SettledAt t p := by
  obtain ⟨i, hi, k, hk, hk_open⟩ := exists_open_of_allClosed hall
  intro m hm _
  cases hn.symm.trans hm
  rw [hopen]
  refine ⟨fun hf => absurd hf Bool.false_ne_true, fun hf => ?_⟩
  obtain ⟨k', hk', -, hclosed⟩ := hf i hi
  cases hk.symm.trans hk'
  rw [← hclosed, hk_open]

/-- If a tree is settled except at a node, and from there upwards all nodes are open and own what
they list or list the root, closing upwards from there settles it. -/
theorem settled_of_closeUp {fuel : Nat} {ref : Option Nat} (ht : Rooted t)
    (h : closeUp t fuel ref = some t') (hs : ∀ p, ref ≠ some p → SettledAt t p)
    (hopen : ∀ p j n, ref = some p → Above t j p → t.get? j = some n → n.isClosed = false)
    (howns : ∀ p j, ref = some p → Above t j p → Owns t j ∨ ListsRoot t j) : Settled t' := by
  induction fuel generalizing t ref with
  | zero =>
    cases ref with
    | none => exact Option.some.inj h ▸ fun p => hs p (by simp)
    | some p => cases h
  | succ fuel ih =>
    cases ref with
    | none => exact Option.some.inj h ▸ fun p => hs p (by simp)
    | some p =>
      obtain ⟨n, hn, h⟩ := Option.bind_eq_some_iff.mp h
      obtain ⟨b, hb, h⟩ := Option.bind_eq_some_iff.mp h
      have hs' : ∀ q, p ≠ q → SettledAt t q :=
        fun q hpq => hs q fun heq => hpq (Option.some.inj heq)
      split at h
      next hall =>
        rw [hall] at hb
        have hroot (r : Node α) := hopen p root r rfl (ht.above_root (Arena.lt_size_of_get? hn))
        have hbelow := closedBelow_of_allClosed ht hn hroot (howns p p rfl .here) hb
        have hshape := sameShape_mark t p
        refine ih (ht.of_sameShape hshape) h
          (fun q hq => settledAt_mark hn hbelow (hs' q) hq) (fun q j m hq hj hm => ?_)
          fun q j hq hj => ?_
        · have hj := hj.of_sameShape hshape.symm
          have hlt := (ht.of_parent hn hq).1
          have hle := hj.le ht
          obtain ⟨k, hk, -⟩ := hshape.symm.node hm
          cases (get?_mark_of_ne (by omega) hk).symm.trans hm
          exact hopen p j _ rfl (.up hn hq hj) hk
        · have hj := hj.of_sameShape hshape.symm
          rcases howns p j rfl (.up hn hq hj) with hj_owns | hj_root
          · exact Or.inl (hj_owns.of_sameShape hshape)
          · exact Or.inr (hj_root.of_sameShape hshape)
      next hall =>
        rw [Bool.not_eq_true] at hall
        rw [hall] at hb
        rw [← Option.some.inj h]
        intro q
        by_cases hpq : p = q
        · subst hpq
          exact settledAt_of_allClosed hn (hopen p p n rfl .here hn) hb
        · exact hs' q hpq

/-- A leaf is closed like a node whose children are all closed. -/
theorem closeLeaf_eq_closeUp {n : Node α} (hn : t.get? i = some n) (hleaf : n.isLeaf = true) :
    closeLeaf t i = closeUp t (t.size + 1) (some i) := by
  rw [closeLeaf, closeUp, hn]
  simp [List.isEmpty_iff.mp hleaf, allClosed]

/-- Closing an open leaf with an id of its own settles the tree again. -/
theorem Settled.closeLeaf (ht : Rooted t) (htidy : Tidy t) (hs : Settled t) (hi : i < UInt32.size)
    {n : Node α} (hn : t.get? i = some n) (hleaf : n.isLeaf = true) (hopen : n.isClosed = false)
    (h : closeLeaf t i = some t') : Settled t' := by
  rw [closeLeaf_eq_closeUp hn hleaf] at h
  refine settled_of_closeUp ht h (fun p _ => hs p) (fun p j m hp hj hm => ?_) fun p j hp hj => ?_
  · cases hp
    exact isOpen_of_above ht hs hj hi hn hopen hm
  · cases hp
    by_cases hji : i = j
    · -- A leaf lists nothing.
      subst hji
      refine Or.inl fun m hm k hk => ?_
      cases hn.symm.trans hm
      rw [List.isEmpty_iff.mp hleaf] at hk
      cases hk
    · obtain ⟨c, k, hk, hparent, hc⟩ := hj.exists_child hji
      exact htidy c k j (Nat.lt_of_le_of_lt (hc.le ht) hi) hk hparent

/-- The node with nothing below it taken for closed. -/
def reopen (n : Node α) : Node α := { n with isClosed := false }

private theorem eq_of_reopen_eq {n n' : Node α} (h : reopen n = reopen n')
    (hclosed : n.isClosed = n'.isClosed) : n = n' := by
  cases n
  cases n'
  simp_all [reopen]

/-- A settled tree is determined by its nodes up to closing and by which of its leaves are
closed. -/
theorem eq_of_settled (ht : Rooted t) (hs : Settled t) (hs' : Settled t')
    (hnodes : ∀ i, (t.get? i).map reopen = (t'.get? i).map reopen)
    (hleaves : ∀ i n n', t.get? i = some n → t'.get? i = some n' → n.isLeaf = true →
      n'.isLeaf = true → n.isClosed = n'.isClosed) : t = t' := by
  have hclosed : ∀ i n n', t.get? i = some n → t'.get? i = some n' → n.isClosed = n'.isClosed := by
    intro i n n' hn hn'
    -- Children have greater numbers, of which there are finitely many.
    induction hk : t.size - i using Nat.strongRecOn generalizing i n n' with
    | ind k ih =>
      have hsame : reopen n = reopen n' := by simpa [hn, hn'] using hnodes i
      have hchildren : n'.children = n.children := (congrArg Node.children hsame).symm
      have hisLeaf : n'.isLeaf = n.isLeaf := congrArg List.isEmpty hchildren
      cases hleaf : n.isLeaf with
      | true => exact hleaves i n n' hn hn' hleaf (hisLeaf.trans hleaf)
      | false =>
        rw [Bool.eq_iff_iff, hs i n hn hleaf, hs' i n' hn' (hisLeaf.trans hleaf), hchildren]
        refine forall₂_congr fun j hj => ?_
        have hsize : j < t.size := ht.listed hn j hj
        obtain ⟨m, hm⟩ := Arena.exists_get? hsize
        obtain ⟨m', hm', hsame'⟩ :=
          Option.map_eq_some_iff.mp ((hnodes j).symm.trans (by rw [hm]; rfl))
        have hparents : m'.parent = m.parent := (congrArg Node.parent hsame'.symm).symm
        simp only [ClosedBelow, hm, hm', Option.some.injEq, exists_eq_left', hparents]
        refine and_congr_right fun hparent => ?_
        have hlt : i < j := (ht.of_parent hm hparent).1
        rw [ih (t.size - j) (by omega) j m m' hm hm' rfl]
  refine congrArg Arena.mk (List.ext_getElem? fun i => ?_)
  change t.get? i = t'.get? i
  have hi := hnodes i
  cases hn : t.get? i with
  | none =>
    rw [hn, Option.map_none, eq_comm, Option.map_eq_none_iff] at hi
    exact hi.symm
  | some n =>
    rw [hn, Option.map_some, eq_comm, Option.map_eq_some_iff] at hi
    obtain ⟨n', hn', hsame⟩ := hi
    rw [hn', eq_of_reopen_eq hsame.symm (hclosed i n n' hn hn')]

theorem exists_allClosed {ids : List Nat} (h : ∀ i ∈ ids, ∃ n, t.get? i = some n) :
    ∃ b, allClosed t ids = some b := by
  induction ids with
  | nil => exact ⟨true, rfl⟩
  | cons i ids ih =>
    obtain ⟨⟨n, hn⟩, hids⟩ := List.forall_mem_cons.mp h
    rw [allClosed, hn]
    by_cases hclosed : n.isClosed = true
    · simpa [hclosed] using ih hids
    · exact ⟨false, by simp [hclosed]⟩

/-- The way up is short enough to be closed, since parents come before their children. -/
theorem exists_closeUp {fuel : Nat} {ref : Option Nat} (ht : Rooted t)
    (href : ∀ p, ref = some p → p < fuel ∧ ∃ n, t.get? p = some n) :
    ∃ t', closeUp t fuel ref = some t' := by
  induction fuel generalizing t ref with
  | zero =>
    cases ref with
    | none => exact ⟨t, rfl⟩
    | some p => exact absurd (href p rfl).1 (Nat.not_lt_zero p)
  | succ fuel ih =>
    cases ref with
    | none => exact ⟨t, rfl⟩
    | some p =>
      obtain ⟨hlt, n, hn⟩ := href p rfl
      obtain ⟨b, hb⟩ := exists_allClosed fun i hi => Arena.exists_get? (ht.listed hn i hi)
      cases b with
      | false => exact ⟨t, by simp [closeUp, hn, hb]⟩
      | true =>
        have hup : ∀ q, n.parent = some q → q < fuel ∧ ∃ m, (mark t p).get? q = some m := by
          intro q hq
          obtain ⟨hqp, m, hm, -⟩ := ht.of_parent hn hq
          obtain ⟨m', hm', -⟩ := (sameShape_mark t p).node hm
          exact ⟨by omega, m', hm'⟩
        obtain ⟨t', ht'⟩ := ih (ht.of_sameShape (sameShape_mark t p)) hup
        exact ⟨t', by simp [closeUp, hn, hb, ht']⟩

theorem exists_closeLeaf (ht : Rooted t) {n : Node α} (hn : t.get? i = some n) :
    ∃ t', closeLeaf t i = some t' := by
  have hup : ∀ q, n.parent = some q → q < t.size ∧ ∃ m, (mark t i).get? q = some m := by
    intro q hq
    obtain ⟨-, m, hm, -⟩ := ht.of_parent hn hq
    obtain ⟨m', hm', -⟩ := (sameShape_mark t i).node hm
    exact ⟨Arena.lt_size_of_get? hm, m', hm'⟩
  obtain ⟨t', ht'⟩ := exists_closeUp (ht.of_sameShape (sameShape_mark t i)) hup
  exact ⟨t', by simp [closeLeaf, hn, ht']⟩

end Deduction.Tree
