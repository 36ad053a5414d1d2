import Deduction.Tree
import Mathlib.Data.List.Basic

/-!
# Branches of a proof tree

A tree grows by new nodes below old ones, and every node keeps its parent, so the
branch from the root to a node never changes except in what its nodes say. A leaf
stays a leaf until a node is added below it. The walks up to the root and down to the
open leaves stay on branches, and the walk up meets all that is above a node.

Up to the first `2 ^ 32` nodes an id is a number, and a node lists exactly the nodes of
which it is the parent. In a greater tree only the parents tell where a node stands: the
ids that are listed name nodes that are there, but not always the ones that were meant.
-/

namespace Deduction

namespace Arena

variable {α : Type} {a : Arena α}

theorem get?_modify (a : Arena α) (i j : Nat) (f : α → α) :
    (a.modify i f).get? j = (a.get? j).map fun x => if i = j then f x else x := by
  rw [get?, get?, Arena.modify, List.getElem?_modify]
  split <;> simp

theorem get?_map (a : Arena α) (f : α → α) (i : Nat) : (a.map f).get? i = (a.get? i).map f :=
  List.getElem?_map

private theorem get?_push (a : Arena α) (x : α) (i : Nat) :
    (a.push x).get? i = if i = a.size then some x else a.get? i := by
  rw [get?, get?, push, size, List.getElem?_append]
  grind

theorem lt_size_of_get? {i : Nat} {x : α} (h : a.get? i = some x) : i < a.size :=
  (List.getElem?_eq_some_iff.mp h).1

theorem exists_get? {i : Nat} (h : i < a.size) : ∃ x, a.get? i = some x :=
  ⟨_, List.getElem?_eq_getElem h⟩

theorem mem_items {x : α} : x ∈ a.items ↔ ∃ i, a.get? i = some x := List.mem_iff_getElem?

theorem idOf_of_lt {i : Nat} (h : i < UInt32.size) : idOf i = i := Nat.mod_eq_of_lt h

theorem idOf_le (i : Nat) : idOf i ≤ i := Nat.mod_le i UInt32.size

theorem nextId_of_lt (h : a.size < UInt32.size) : a.nextId = a.size := idOf_of_lt h

theorem lastId?_of_size {n : Nat} (h : a.size = n + 1) : a.lastId? = some (idOf n) := by
  have hne : a.isEmpty = false := by
    rw [isEmpty, List.isEmpty_eq_false_iff, ← List.length_pos_iff, ← size, h]
    exact Nat.succ_pos n
  rw [lastId?, hne, h]
  rfl

/-- A number names an item exactly if it is an id and the item is there. -/
theorem named?_eq_some {i : Nat} {x : α} :
    a.named? i = some x ↔ i < UInt32.size ∧ a.get? i = some x := by
  simp only [named?, id?, contains, decide_eq_true_eq]
  split
  next h => simp [h.1]
  next h =>
    simp only [Option.bind_none, reduceCtorEq, false_iff]
    exact fun hi => h ⟨hi.1, lt_size_of_get? hi.2⟩

theorem named?_eq_none {i : Nat} :
    a.named? i = none ↔ UInt32.size ≤ i ∨ a.get? i = none := by
  rw [Option.eq_none_iff_forall_ne_some, Option.eq_none_iff_forall_ne_some]
  simp only [ne_eq, named?_eq_some, not_and]
  constructor
  · intro h
    by_cases hi : i < UInt32.size
    · exact Or.inr fun x => h x hi
    · exact Or.inl (Nat.le_of_not_lt hi)
  · rintro (hi | h) x hlt
    · omega
    · exact h x

end Arena

namespace Tree

variable {α : Type} {t t' : Tree α} {P : α → Prop} {i j p : Nat} {label : α}

/-- The node with the first number is above the one with the second number, or is that node. -/
inductive Above (t : Tree α) (j : Nat) : Nat → Prop
  | here : Above t j j
  | up {i p : Nat} {n : Node α} (hn : t.get? i = some n) (hp : n.parent = some p)
      (h : Above t j p) : Above t j i

/-- Whether every node but the root has a parent that comes before it and lists its id, and only
nodes that are there are listed. -/
structure Rooted (t : Tree α) : Prop where
  /-- The root has no parent. -/
  root : ∃ n, t.get? Tree.root = some n ∧ n.parent = none
  /-- The id of every other node is listed by an earlier one, its parent. -/
  parent : ∀ {i : Nat} {n : Node α}, t.get? i = some n → i ≠ Tree.root →
    ∃ p m, n.parent = some p ∧ p < i ∧ t.get? p = some m ∧ Arena.idOf i ∈ m.children
  /-- A listed id names a node. -/
  listed : ∀ {p : Nat} {m : Node α}, t.get? p = some m → ∀ i ∈ m.children, i < t.size

/-- Whether parents and children refer to each other and parents come before their children. -/
structure Linked (t : Tree α) : Prop extends Rooted t where
  /-- There is an id for every node. -/
  fits : t.size ≤ UInt32.size
  /-- A node lists nodes of which it is the parent. -/
  child : ∀ {p : Nat} {m : Node α}, t.get? p = some m → ∀ i ∈ m.children,
    ∃ n, t.get? i = some n ∧ n.parent = some p
  /-- A node lists its children in the order of their numbers. -/
  ordered : ∀ {p : Nat} {m : Node α}, t.get? p = some m → m.children.Pairwise (· < ·)

theorem eq_of_get?_single {n : Node α} (h : (single label).get? i = some n) :
    i = root ∧ n = ⟨none, label, false, []⟩ := by
  have hi : i = 0 := Nat.lt_one_iff.mp (Arena.lt_size_of_get? h)
  subst hi
  exact ⟨rfl, (Option.some.inj h).symm⟩

theorem linked_single (label : α) : Linked (single label) where
  root := ⟨_, rfl, rfl⟩
  parent hn hi := absurd (eq_of_get?_single hn).1 hi
  listed hm i hi := by
    rw [(eq_of_get?_single hm).2] at hi
    cases hi
  fits := by
    change 1 ≤ UInt32.size
    decide
  child hm i hi := by
    rw [(eq_of_get?_single hm).2] at hi
    cases hi
  ordered hm := by
    rw [(eq_of_get?_single hm).2]
    exact List.Pairwise.nil

/-- The parent of a node is an earlier node that lists its id. -/
theorem Rooted.of_parent (ht : Rooted t) {n : Node α} (hn : t.get? i = some n)
    (hp : n.parent = some p) : p < i ∧ ∃ m, t.get? p = some m ∧ Arena.idOf i ∈ m.children := by
  have hi : i ≠ Tree.root := by
    rintro rfl
    obtain ⟨r, hr, hnone⟩ := ht.root
    cases hr.symm.trans hn
    cases hnone.symm.trans hp
  obtain ⟨q, m, hq, hlt, hm, hmem⟩ := ht.parent hn hi
  cases hp.symm.trans hq
  exact ⟨hlt, m, hm, hmem⟩

/-- In a tree that is no greater than there are ids, numbers are ids. -/
theorem Linked.idOf_eq (ht : Linked t) {n : Node α} (hn : t.get? i = some n) : Arena.idOf i = i :=
  Arena.idOf_of_lt (Nat.lt_of_lt_of_le (Arena.lt_size_of_get? hn) ht.fits)

/-- The parent of a node is an earlier node that lists it. -/
theorem Linked.of_parent (ht : Linked t) {n : Node α} (hn : t.get? i = some n)
    (hp : n.parent = some p) : p < i ∧ ∃ m, t.get? p = some m ∧ i ∈ m.children := by
  obtain ⟨hlt, m, hm, hmem⟩ := ht.toRooted.of_parent hn hp
  exact ⟨hlt, m, hm, ht.idOf_eq hn ▸ hmem⟩

theorem isLeaf_eq_false_of_mem {n : Node α} (h : i ∈ n.children) : n.isLeaf = false :=
  List.isEmpty_eq_false_iff_exists_mem.mpr ⟨i, h⟩

/-- Nodes above come earlier. -/
theorem Above.le (ht : Rooted t) (h : Above t j i) : j ≤ i := by
  induction h with
  | here => exact Nat.le_refl j
  | up hn hp _ ih => exact Nat.le_trans ih (Nat.le_of_lt (ht.of_parent hn hp).1)

theorem Above.trans {k : Nat} (hkj : Above t k j) (hji : Above t j i) : Above t k i := by
  induction hji with
  | here => exact hkj
  | up hn hp _ ih => exact .up hn hp ih

/-- Of two nodes above a third one, one is above the other. -/
theorem Above.total {k : Nat} (hji : Above t j i) (hki : Above t k i) :
    Above t j k ∨ Above t k j := by
  induction hji with
  | here => exact Or.inr hki
  | up hn hp h ih =>
    cases hki with
    | here => exact Or.inl (.up hn hp h)
    | up hn' hp' hk =>
      cases hn.symm.trans hn'
      cases hp.symm.trans hp'
      exact ih hk

/-- Nodes with the same parent have nothing below them in common. -/
theorem Rooted.eq_of_above_both (ht : Rooted t) {c d : Nat}
    (hc : ∃ n, t.get? c = some n ∧ n.parent = some p)
    (hd : ∃ n, t.get? d = some n ∧ n.parent = some p) (hcj : Above t c j) (hdj : Above t d j) :
    c = d := by
  -- One of them would otherwise be above the parent.
  have hcase {c d : Nat} (hc : ∃ n, t.get? c = some n ∧ n.parent = some p)
      (hd : ∃ n, t.get? d = some n ∧ n.parent = some p) (hcd : Above t c d) : c = d := by
    obtain ⟨m, hm, hmp⟩ := hd
    cases hcd with
    | here => rfl
    | up hm' hq habove =>
      cases hm.symm.trans hm'
      cases hmp.symm.trans hq
      obtain ⟨n, hn, hnp⟩ := hc
      have hlt := (ht.of_parent hn hnp).1
      have hle := habove.le ht
      omega
  rcases hcj.total hdj with h | h
  · exact hcase hc hd h
  · exact (hcase hd hc h).symm

/-- What is below a node is at or below one of which it is the parent. -/
theorem Above.exists_child (h : Above t i j) (hne : j ≠ i) :
    ∃ c n, t.get? c = some n ∧ n.parent = some i ∧ Above t c j := by
  induction h with
  | here => exact absurd rfl hne
  | @up j p _ hm hp _ ih =>
    by_cases hpi : p = i
    · subst hpi
      exact ⟨j, _, hm, hp, .here⟩
    · obtain ⟨c, n, hn, hparent, habove⟩ := ih hpi
      exact ⟨c, n, hn, hparent, .up hm hp habove⟩

/-- The root is above every node. -/
theorem Rooted.above_root (ht : Rooted t) (hi : i < t.size) : Above t Tree.root i := by
  induction i using Nat.strongRecOn with
  | ind i ih =>
    by_cases hroot : i = Tree.root
    · exact hroot ▸ .here
    · obtain ⟨n, hn⟩ := Arena.exists_get? hi
      obtain ⟨p, m, hp, hlt, hm, -⟩ := ht.parent hn hroot
      exact .up hn hp (ih p hlt (Arena.lt_size_of_get? hm))

/-- Whether every node is still there with the parent that it had. -/
def KeepsParents (t t' : Tree α) : Prop :=
  ∀ i n, t.get? i = some n → ∃ n', t'.get? i = some n' ∧ n'.parent = n.parent

/-- What is above a node stays above it. -/
theorem Above.of_keepsParents (h : KeepsParents t t') (hji : Above t j i) : Above t' j i := by
  induction hji with
  | here => exact .here
  | up hn hp _ ih =>
    obtain ⟨n', hn', hparent⟩ := h _ _ hn
    exact .up hn' (hparent.trans hp) ih

/-- Nothing else comes to stand above a node. -/
theorem Above.before (ht : Rooted t) (h : KeepsParents t t') (hi : i < t.size)
    (hji : Above t' j i) : Above t j i := by
  induction hji with
  | here => exact .here
  | up hn' hp _ ih =>
    obtain ⟨n, hn⟩ := Arena.exists_get? hi
    obtain ⟨k, hk, hparent⟩ := h _ _ hn
    cases hk.symm.trans hn'
    have hp := hparent.symm.trans hp
    obtain ⟨-, m, hm, -⟩ := ht.of_parent hn hp
    exact .up hn hp (ih (Arena.lt_size_of_get? hm))

/-! ### Growing -/

/-- A grown tree has one more node, whose id its parent lists last. -/
theorem get?_grow (hp : p < t.size) (label : α) (i : Nat) :
    (grow t p label).get? i =
      if i = t.size then some ⟨some p, label, false, []⟩
      else (t.get? i).map fun n =>
        if p = i then { n with children := n.children ++ [t.nextId] } else n := by
  rw [grow, Arena.get?_modify, Arena.get?_push]
  by_cases hi : i = t.size
  · have hne : p ≠ i := fun hpi => Nat.lt_irrefl i (by omega)
    simp [hi, hi ▸ hne]
  · simp [hi]

@[simp] theorem size_grow (t : Tree α) (p : Nat) (label : α) :
    (grow t p label).size = t.size + 1 := by
  simp [grow, Arena.size, Arena.modify, Arena.push]

theorem get?_grow_new (hp : p < t.size) (label : α) :
    (grow t p label).get? t.size = some ⟨some p, label, false, []⟩ := by
  rw [get?_grow hp, if_pos rfl]

/-- Every node but the parent of the new one stays as it is. -/
theorem get?_grow_of_ne {n : Node α} (hp : p < t.size) (hpi : p ≠ i) (hn : t.get? i = some n) :
    (grow t p label).get? i = some n := by
  rw [get?_grow hp, if_neg (Nat.ne_of_lt (Arena.lt_size_of_get? hn)), hn]
  simp [hpi]

/-- A node of a grown tree is the new one or an old one, of which only the parent of the new one
lists one child more. -/
theorem of_get?_grow {n : Node α} (hp : p < t.size) (hn : (grow t p label).get? i = some n) :
    (i = t.size ∧ n = ⟨some p, label, false, []⟩) ∨
      ∃ m, t.get? i = some m ∧
        n = if p = i then { m with children := m.children ++ [t.nextId] } else m := by
  rw [get?_grow hp] at hn
  split at hn
  next hi => exact Or.inl ⟨hi, (Option.some.inj hn).symm⟩
  · obtain ⟨m, hm, rfl⟩ := Option.map_eq_some_iff.mp hn
    exact Or.inr ⟨m, hm, rfl⟩

/-- A tree comes from another one by adding open nodes below old ones. -/
structure Extends (t t' : Tree α) : Prop where
  /-- No node is lost, and of the old ones only the children change. -/
  node : ∀ {i : Nat} {n : Node α}, t.get? i = some n →
    ∃ ids, t'.get? i = some { n with children := n.children ++ ids }
  /-- Nodes that are not old are open. -/
  isOpen : ∀ {i : Nat} {n : Node α}, t'.get? i = some n → t.get? i = none → n.isClosed = false

theorem Extends.refl (t : Tree α) : Extends t t where
  node hn := ⟨[], by simpa using hn⟩
  isOpen hn hnone := by cases hnone.symm.trans hn

theorem Extends.trans {t'' : Tree α} (h : Extends t t') (h' : Extends t' t'') : Extends t t'' where
  node hn := by
    obtain ⟨ids, hids⟩ := h.node hn
    obtain ⟨ids', hids'⟩ := h'.node hids
    exact ⟨ids ++ ids', by simpa using hids'⟩
  isOpen {i n} hn hnone := by
    cases hmid : t'.get? i with
    | none => exact h'.isOpen hn hmid
    | some m =>
      have hopen := h.isOpen hmid hnone
      obtain ⟨ids, hids⟩ := h'.node hmid
      cases hids.symm.trans hn
      exact hopen

theorem extends_grow (hp : p < t.size) (label : α) : Extends t (grow t p label) where
  node {i n} hn := by
    rw [get?_grow hp, if_neg (Nat.ne_of_lt (Arena.lt_size_of_get? hn)), hn]
    by_cases hpi : p = i
    · exact ⟨[t.nextId], by simp [hpi]⟩
    · exact ⟨[], by simp [hpi]⟩
  isOpen hn hnone := by
    rcases of_get?_grow hp hn with ⟨-, rfl⟩ | ⟨m, hm, -⟩
    · rfl
    · cases hnone.symm.trans hm

theorem Extends.keepsParents (h : Extends t t') : KeepsParents t t' := by
  intro i n hn
  obtain ⟨ids, hids⟩ := h.node hn
  exact ⟨_, hids, rfl⟩

theorem Above.mono (h : Extends t t') (hji : Above t j i) : Above t' j i :=
  hji.of_keepsParents h.keepsParents

theorem KeepsParents.size_le (h : KeepsParents t t') : t.size ≤ t'.size := by
  cases hsize : t.size with
  | zero => exact Nat.zero_le _
  | succ k =>
    obtain ⟨n, hn⟩ := Arena.exists_get? (a := t) (i := k) (by omega)
    obtain ⟨n', hn', -⟩ := h k n hn
    exact Arena.lt_size_of_get? hn'

theorem Rooted.grow (ht : Rooted t) (hp : p < t.size) (label : α) : Rooted (grow t p label) where
  root := by
    obtain ⟨n, hn, hnone⟩ := ht.root
    obtain ⟨ids, hids⟩ := (extends_grow hp label).node hn
    exact ⟨_, hids, hnone⟩
  parent {i n} hn hi := by
    rcases of_get?_grow hp hn with ⟨rfl, rfl⟩ | ⟨m, hm, rfl⟩
    · obtain ⟨m, hm⟩ := Arena.exists_get? hp
      refine ⟨p, { m with children := m.children ++ [t.nextId] }, rfl, hp, ?_, ?_⟩
      · rw [get?_grow hp, if_neg (Nat.ne_of_lt hp), hm]
        simp
      · exact List.mem_append_right _ (List.mem_singleton.mpr rfl)
    · obtain ⟨q, k, hq, hlt, hk, hmem⟩ := ht.parent hm hi
      refine ⟨q, if p = q then { k with children := k.children ++ [t.nextId] } else k, ?_, hlt, ?_,
        ?_⟩
      · split <;> exact hq
      · rw [get?_grow hp, if_neg (Nat.ne_of_lt (Arena.lt_size_of_get? hk)), hk]
        rfl
      · split
        · exact List.mem_append_left _ hmem
        · exact hmem
  listed {q m} hm i hi := by
    rw [size_grow]
    rcases of_get?_grow hp hm with ⟨rfl, rfl⟩ | ⟨k, hk, rfl⟩
    · cases hi
    · have hold (hi : i ∈ k.children) : i < t.size + 1 := Nat.lt_succ_of_lt (ht.listed hk i hi)
      split at hi
      · rcases List.mem_append.mp hi with hi | hi
        · exact hold hi
        · rw [List.mem_singleton.mp hi]
          exact Nat.lt_succ_of_le (Arena.idOf_le t.size)
      · exact hold hi

/-- A tree with proper links keeps them when it grows, as long as there are ids. -/
theorem Linked.grow (ht : Linked t) (hfits : t.size < UInt32.size) (hp : p < t.size) (label : α) :
    Linked (grow t p label) where
  toRooted := ht.toRooted.grow hp label
  fits := by
    rw [size_grow]
    exact hfits
  child {q m} hm i hi := by
    have old {k : Node α} (hk : t.get? q = some k) (hi : i ∈ k.children) :
        ∃ n, (Tree.grow t p label).get? i = some n ∧ n.parent = some q := by
      obtain ⟨n, hn, hparent⟩ := ht.child hk i hi
      obtain ⟨ids, hids⟩ := (extends_grow hp label).node hn
      exact ⟨_, hids, hparent⟩
    rcases of_get?_grow hp hm with ⟨rfl, rfl⟩ | ⟨k, hk, rfl⟩
    · cases hi
    · split at hi
      next hpq =>
        rcases List.mem_append.mp hi with hi | hi
        · exact old hk hi
        · rw [List.mem_singleton.mp hi, Arena.nextId_of_lt hfits, ← hpq]
          exact ⟨_, get?_grow_new hp label, rfl⟩
      · exact old hk hi
  ordered {q m} hm := by
    rcases of_get?_grow hp hm with ⟨rfl, rfl⟩ | ⟨k, hk, rfl⟩
    · exact List.Pairwise.nil
    · split
      · refine List.pairwise_append.mpr ⟨ht.ordered hk, List.pairwise_singleton _ _, ?_⟩
        intro a ha b hb
        rw [List.mem_singleton.mp hb, Arena.nextId_of_lt hfits]
        exact ht.listed hk a ha
      · exact ht.ordered hk

/-! ### Branches -/

/-- Whether every label on the branch to a node has a property. -/
def Along (t : Tree α) (P : α → Prop) (i : Nat) : Prop :=
  ∀ j n, Above t j i → t.get? j = some n → P n.label

/-- Whether a node is a leaf and every label on the branch to it has a property. -/
structure LiveAt (t : Tree α) (P : α → Prop) (i : Nat) : Prop where
  /-- The node is a leaf. -/
  leaf : ∃ n, t.get? i = some n ∧ n.isLeaf = true
  /-- Every label has the property. -/
  along : Along t P i

/-- A branch does not change when the tree grows. -/
theorem Along.mono (ht : Rooted t) (h : Extends t t') (hi : i < t.size) (hP : Along t P i) :
    Along t' P i := by
  intro j n' hji hn'
  have hji := hji.before ht h.keepsParents hi
  obtain ⟨n, hn⟩ := Arena.exists_get? (Nat.lt_of_le_of_lt (hji.le ht) hi)
  obtain ⟨ids, hids⟩ := h.node hn
  cases hids.symm.trans hn'
  exact hP j n hji hn

/-- A leaf below which nothing is added keeps its branch. -/
theorem LiveAt.grow_of_ne (ht : Rooted t) (hp : p < t.size) (hpi : p ≠ i) (h : LiveAt t P i) :
    LiveAt (grow t p label) P i := by
  obtain ⟨n, hn, hleaf⟩ := h.leaf
  exact ⟨⟨n, get?_grow_of_ne hp hpi hn, hleaf⟩,
    h.along.mono ht (extends_grow hp label) (Arena.lt_size_of_get? hn)⟩

/-- The branch to a new leaf is that to its parent with the new label. -/
theorem LiveAt.grow_new (ht : Rooted t) (hp : p < t.size) (h : Along t P p) (hlabel : P label) :
    LiveAt (grow t p label) P t.size := by
  refine ⟨⟨_, get?_grow_new hp label, rfl⟩, fun j n hj hn => ?_⟩
  cases hj with
  | here =>
    cases (get?_grow_new hp label).symm.trans hn
    exact hlabel
  | up hnew hparent hj =>
    cases (get?_grow_new hp label).symm.trans hnew
    cases hparent
    exact h.mono ht (extends_grow hp label) hp j n hj hn

/-! ### Changes that keep the shape -/

/-- Two trees with the same nodes below each other. -/
def SameShape (t t' : Tree α) : Prop :=
  ∀ i, (t'.get? i).map (fun n => (n.parent, n.children)) =
    (t.get? i).map fun n => (n.parent, n.children)

/-- Changing nodes without their references keeps the shape. -/
theorem sameShape_of_map {g : Nat → Node α → Node α} (h : ∀ i, t'.get? i = (t.get? i).map (g i))
    (hg : ∀ i n, (g i n).parent = n.parent ∧ (g i n).children = n.children) : SameShape t t' := by
  intro i
  rw [h, Option.map_map]
  congr 1
  funext n
  exact Prod.ext (hg i n).1 (hg i n).2

theorem SameShape.symm (h : SameShape t t') : SameShape t' t := fun i => (h i).symm

theorem SameShape.node (h : SameShape t t') {n : Node α} (hn : t.get? i = some n) :
    ∃ n', t'.get? i = some n' ∧ n'.parent = n.parent ∧ n'.children = n.children := by
  have hi := h i
  rw [hn, Option.map_some] at hi
  obtain ⟨n', hn', heq⟩ := Option.map_eq_some_iff.mp hi
  exact ⟨n', hn', congrArg Prod.fst heq, congrArg Prod.snd heq⟩

theorem SameShape.keepsParents (h : SameShape t t') : KeepsParents t t' := by
  intro i n hn
  obtain ⟨n', hn', hparent, -⟩ := h.node hn
  exact ⟨n', hn', hparent⟩

theorem Above.of_sameShape (h : SameShape t t') (hji : Above t j i) : Above t' j i :=
  hji.of_keepsParents h.keepsParents

theorem SameShape.size_eq (h : SameShape t t') : t'.size = t.size :=
  Nat.le_antisymm h.symm.keepsParents.size_le h.keepsParents.size_le

theorem Rooted.of_sameShape (h : SameShape t t') (ht : Rooted t) : Rooted t' where
  root := by
    obtain ⟨n, hn, hnone⟩ := ht.root
    obtain ⟨n', hn', hparent, -⟩ := h.node hn
    exact ⟨n', hn', hparent.trans hnone⟩
  parent {i n'} hn' hi := by
    obtain ⟨n, hn, hparent, -⟩ := h.symm.node hn'
    obtain ⟨p, m, hp, hlt, hm, hmem⟩ := ht.parent hn hi
    obtain ⟨m', hm', -, hchildren⟩ := h.node hm
    exact ⟨p, m', hparent.symm.trans hp, hlt, hm', hchildren ▸ hmem⟩
  listed {p m'} hm' i hi := by
    obtain ⟨m, hm, -, hchildren⟩ := h.symm.node hm'
    rw [h.size_eq]
    exact ht.listed hm i (hchildren ▸ hi)

theorem Linked.of_sameShape (h : SameShape t t') (ht : Linked t) : Linked t' where
  toRooted := ht.toRooted.of_sameShape h
  fits := h.size_eq ▸ ht.fits
  child {p m'} hm' i hi := by
    obtain ⟨m, hm, -, hchildren⟩ := h.symm.node hm'
    obtain ⟨n, hn, hp⟩ := ht.child hm i (hchildren ▸ hi)
    obtain ⟨n', hn', hparent, -⟩ := h.node hn
    exact ⟨n', hn', hparent.trans hp⟩
  ordered {p m'} hm' := by
    obtain ⟨m, hm, -, hchildren⟩ := h.symm.node hm'
    exact hchildren ▸ ht.ordered hm

/-- A leaf keeps its branch if what its labels say is kept. -/
theorem LiveAt.of_sameShape {Q : α → Prop} (h : SameShape t t')
    (hlabel : ∀ j n n', t.get? j = some n → t'.get? j = some n' → P n.label → Q n'.label)
    (hi : LiveAt t P i) : LiveAt t' Q i := by
  obtain ⟨n, hn, hleaf⟩ := hi.leaf
  obtain ⟨n', hn', -, hchildren⟩ := h.node hn
  refine ⟨⟨n', hn', ?_⟩, fun j m' hj hm' => ?_⟩
  · rw [Node.isLeaf, hchildren]
    exact hleaf
  · obtain ⟨m, hm, -⟩ := h.symm.node hm'
    exact hlabel j m m' hm hm' (hi.along j m (hj.of_sameShape h.symm) hm)

/-! ### Walks -/

/-- A node met on the way up is above. -/
theorem above_of_mem_ascend {fuel : Nat} {ref : Option Nat} (h : j ∈ (ascend t fuel ref).ids) :
    ∃ p, ref = some p ∧ Above t j p := by
  induction fuel generalizing ref with
  | zero => cases ref <;> cases h
  | succ fuel ih =>
    cases ref with
    | none => cases h
    | some p =>
      refine ⟨p, rfl, ?_⟩
      rw [ascend] at h
      split at h
      · cases h
      next n hn =>
        rcases List.mem_cons.mp h with rfl | h
        · exact .here
        · obtain ⟨q, hq, hjq⟩ := ih h
          exact .up hn hq hjq

/-- A node found among the ancestors of another one is above it. -/
theorem above_of_any_ancestors (h : (ancestors t i).any (· == j) = some true) : Above t j i := by
  rw [ancestors] at h
  split at h
  · cases h
  next n hn =>
    rw [Ascent.any] at h
    split at h
    next hany =>
      obtain ⟨k, hk, hkj⟩ := List.any_eq_true.mp hany
      obtain ⟨p, hp, hjp⟩ := above_of_mem_ascend hk
      rw [← beq_iff_eq.mp hkj]
      exact .up hn hp hjp
    · split at h <;> cases h

/-- The way up is short enough to be walked, since parents come before their children, and what is
above is met. -/
theorem mem_ascend {fuel : Nat} (ht : Rooted t) (hp : p < fuel) (hj : Above t j p) {n : Node α}
    (hn : t.get? p = some n) : j ∈ (ascend t fuel (some p)).ids := by
  induction fuel generalizing p n with
  | zero => exact absurd hp (Nat.not_lt_zero p)
  | succ fuel ih =>
    rw [ascend, hn]
    cases hj with
    | here => exact List.mem_cons_self
    | up hn' hq hj =>
      cases hn.symm.trans hn'
      obtain ⟨hlt, m, hm, -⟩ := ht.of_parent hn hq
      refine List.mem_cons_of_mem p ?_
      rw [hq]
      exact ih (by omega) hj hm

/-- The way up ends at the root. -/
theorem complete_ascend {fuel : Nat} {ref : Option Nat} (ht : Rooted t)
    (href : ∀ p, ref = some p → p < fuel ∧ ∃ n, t.get? p = some n) :
    (ascend t fuel ref).complete = true := by
  induction fuel generalizing ref with
  | zero =>
    cases ref with
    | none => rfl
    | some p => exact absurd (href p rfl).1 (Nat.not_lt_zero p)
  | succ fuel ih =>
    cases ref with
    | none => rfl
    | some p =>
      obtain ⟨hlt, n, hn⟩ := href p rfl
      rw [ascend, hn]
      refine ih fun q hq => ?_
      obtain ⟨hqp, m, hm, -⟩ := ht.of_parent hn hq
      exact ⟨by omega, m, hm⟩

theorem complete_ancestors (ht : Rooted t) {n : Node α} (hn : t.get? i = some n) :
    (ancestors t i).complete = true := by
  rw [ancestors, hn]
  refine complete_ascend ht fun p hp => ?_
  obtain ⟨-, m, hm, -⟩ := ht.of_parent hn hp
  exact ⟨Arena.lt_size_of_get? hm, m, hm⟩

/-- The ancestors of a node are the other nodes above it. -/
theorem mem_ancestors (ht : Rooted t) {n : Node α} (hn : t.get? i = some n) :
    j ∈ (ancestors t i).ids ↔ Above t j i ∧ j ≠ i := by
  have hids : (ancestors t i).ids = (ascend t (Arena.size t) n.parent).ids := by
    rw [ancestors, hn]
  rw [hids]
  constructor
  · intro hj
    obtain ⟨p, hp, hjp⟩ := above_of_mem_ascend hj
    have hlt := (ht.of_parent hn hp).1
    have hle := hjp.le ht
    exact ⟨.up hn hp hjp, by omega⟩
  · rintro ⟨hji, hne⟩
    cases hji with
    | here => exact absurd rfl hne
    | up hn' hp hjp =>
      cases hn.symm.trans hn'
      obtain ⟨-, m, hm, -⟩ := ht.of_parent hn hp
      rw [hp]
      exact mem_ascend ht (Arena.lt_size_of_get? hm) hjp hm

/-- Whether a node with a property is above another one is found out among all its ancestors. -/
theorem any_ancestors_eq (ht : Rooted t) {n : Node α} (hn : t.get? i = some n) (p : Nat → Bool) :
    (ancestors t i).any p = some ((ancestors t i).ids.any p) := by
  rw [Ascent.any, complete_ancestors ht hn]
  cases (ancestors t i).ids.any p <;> rfl

/-- A node above another one is found among its ancestors. -/
theorem any_ancestors_of_above (ht : Rooted t) (hji : Above t j i) (hne : j ≠ i) :
    (ancestors t i).any (· == j) = some true := by
  cases hji with
  | here => exact absurd rfl hne
  | up hn hp hj =>
    rw [any_ancestors_eq ht hn, Option.some_inj]
    exact List.any_eq_true.mpr
      ⟨j, (mem_ancestors ht hn).mpr ⟨.up hn hp hj, hne⟩, beq_self_eq_true j⟩

/-- Whether a node with a property is above another one is always found out. -/
theorem exists_any_ancestors (ht : Rooted t) {n : Node α} (hn : t.get? i = some n)
    (p : Nat → Bool) : ∃ b, (ancestors t i).any p = some b :=
  ⟨_, any_ancestors_eq ht hn p⟩

/-- The results of a list of look-ups are those of its members, in the same order. -/
theorem map_eq_of_mapM {β γ : Type} {f : β → Option γ} {xs : List β} {ys : List γ}
    (h : xs.mapM f = some ys) : xs.map f = ys.map some := by
  induction xs generalizing ys with
  | nil =>
    cases h
    rfl
  | cons x xs ih =>
    rw [List.mapM_cons] at h
    obtain ⟨y, hy, h⟩ := Option.bind_eq_some_iff.mp h
    obtain ⟨zs, hzs, h⟩ := Option.bind_eq_some_iff.mp h
    rw [← Option.some.inj h, List.map_cons, List.map_cons, hy, ih hzs]

/-- A walk down to the open leaves ends at a leaf, or it goes on from all children. -/
theorem openLeavesWithin_cases {fuel : Nat} {ids : List Nat}
    (h : openLeavesWithin t (fuel + 1) i = some ids) :
    ∃ n, t.get? i = some n ∧
      (n.isLeaf = true ∧ ids = (if n.isClosed then [] else [i]) ∨
        n.isLeaf = false ∧ ∃ below : List (List Nat), ids = below.flatten ∧
          n.children.map (openLeavesWithin t fuel) = below.map some) := by
  obtain ⟨n, hn, h⟩ := Option.bind_eq_some_iff.mp h
  refine ⟨n, hn, ?_⟩
  split at h
  next hleaf => exact Or.inl ⟨hleaf, (Option.some.inj h).symm⟩
  next hinner =>
    obtain ⟨below, hbelow, h⟩ := Option.bind_eq_some_iff.mp h
    exact Or.inr ⟨Bool.not_eq_true _ ▸ hinner, below, (Option.some.inj h).symm,
      map_eq_of_mapM hbelow⟩

/-- A property that listing hands down from a node is one of the open leaves listed for it, and
those are open leaves. -/
theorem of_mem_openLeavesWithin {Q : Nat → Prop}
    (hstep : ∀ p m, t.get? p = some m → ∀ c ∈ m.children, Q p → Q c) {fuel : Nat} {ids : List Nat}
    (h : openLeavesWithin t fuel i = some ids) (hQ : Q i) (hj : j ∈ ids) :
    Q j ∧ ∃ n, t.get? j = some n ∧ n.isLeaf = true ∧ n.isClosed = false := by
  induction fuel generalizing i ids with
  | zero => cases h
  | succ fuel ih =>
    obtain ⟨n, hn, ⟨hleaf, rfl⟩ | ⟨-, below, rfl, hbelow⟩⟩ := openLeavesWithin_cases h
    · split at hj
      · cases hj
      next hopen =>
        rw [List.mem_singleton.mp hj]
        exact ⟨hQ, n, hn, hleaf, Bool.not_eq_true _ ▸ hopen⟩
    · obtain ⟨js, hjs, hj⟩ := List.mem_flatten.mp hj
      obtain ⟨k, hk, hwithin⟩ := List.mem_map.mp (hbelow ▸ List.mem_map_of_mem hjs)
      exact ih hwithin (hstep i n hn k hk hQ) hj

/-- The open leaves that are listed for a node are open leaves. -/
theorem isOpen_of_mem_openLeaves {ids : List Nat} (h : openLeaves t i = some ids) (hj : j ∈ ids) :
    ∃ n, t.get? j = some n ∧ n.isLeaf = true ∧ n.isClosed = false :=
  (of_mem_openLeavesWithin (Q := fun _ => True) (fun _ _ _ _ _ _ => trivial) h trivial hj).2

/-- The open leaves that are listed for a node are below it. -/
theorem above_of_mem_openLeavesWithin (ht : Linked t) {fuel : Nat} {ids : List Nat}
    (h : openLeavesWithin t fuel i = some ids) (hj : j ∈ ids) : Above t i j := by
  refine (of_mem_openLeavesWithin (Q := Above t i) (fun p m hm c hc hp => ?_) h .here hj).1
  obtain ⟨n, hn, hparent⟩ := ht.child hm c hc
  exact .up hn hparent hp

/-- A list of look-ups of which every one succeeds does so itself. -/
theorem exists_mapM_eq_some {β γ : Type} {f : β → Option γ} {xs : List β}
    (h : ∀ x ∈ xs, ∃ y, f x = some y) : ∃ ys, xs.mapM f = some ys := by
  induction xs with
  | nil => exact ⟨[], rfl⟩
  | cons x xs ih =>
    obtain ⟨y, hy⟩ := h x List.mem_cons_self
    obtain ⟨ys, hys⟩ := ih fun z hz => h z (List.mem_cons_of_mem x hz)
    exact ⟨y :: ys, by simp [List.mapM_cons, hy, hys]⟩

/-- The way down to the leaves is short enough to be walked, since children come after their
parents. -/
theorem exists_openLeavesWithin (ht : Linked t) {fuel : Nat} (hi : i < t.size)
    (hfuel : t.size ≤ fuel + i) : ∃ ids, openLeavesWithin t fuel i = some ids := by
  induction fuel generalizing i with
  | zero => omega
  | succ fuel ih =>
    obtain ⟨n, hn⟩ := Arena.exists_get? hi
    have hbelow : ∃ below, n.children.mapM (openLeavesWithin t fuel) = some below := by
      refine exists_mapM_eq_some fun j hj => ?_
      obtain ⟨m, hm, hparent⟩ := ht.child hn j hj
      have hlt := (ht.of_parent hm hparent).1
      exact ih (Arena.lt_size_of_get? hm) (by omega)
    obtain ⟨below, hbelow⟩ := hbelow
    rw [openLeavesWithin, hn]
    by_cases hleaf : n.isLeaf
    · exact ⟨if n.isClosed then [] else [i], by simp [hleaf]⟩
    · exact ⟨below.flatten, by simp [hleaf, hbelow]⟩

theorem exists_openLeaves (ht : Linked t) {n : Node α} (hn : t.get? i = some n) :
    ∃ ids, openLeaves t i = some ids :=
  exists_openLeavesWithin ht (Arena.lt_size_of_get? hn) (Nat.le_add_right _ _)

end Tree

end Deduction
