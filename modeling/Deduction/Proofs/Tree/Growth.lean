import Deduction.Proofs.Tree.Closing
import Mathlib.Data.List.Sort

/-!
# Adding children to a node

A rule adds several nodes at once below a node, from left to right. The children of a
node that had none then say exactly what was added, and those of every other node say
what they said before. The leaves of the tree are the old ones, less the node that got
children, and the new ones. The children of a node are here the nodes of which it is the
parent, which are the ones that it lists as long as there are ids.
-/

namespace Deduction.Tree

variable {α : Type} {t t' : Tree α} {i j p : Nat} {label : α} {labels : List α}

/-- Add nodes below another one, from left to right. -/
def growAll (t : Tree α) (p : Nat) (labels : List α) : Tree α :=
  labels.foldl (fun t label => grow t p label) t

theorem growAll_cons (t : Tree α) (p : Nat) (label : α) (labels : List α) :
    growAll t p (label :: labels) = growAll (grow t p label) p labels := rfl

/-- The new nodes are numbered from the size on, and their parent lists their ids behind those that
it has listed. -/
theorem get?_growAll (hp : p < t.size) (labels : List α) (i : Nat) :
    (growAll t p labels).get? i =
      if i < t.size then (t.get? i).map fun n =>
        if p = i then
          { n with children := n.children ++ (List.range' t.size labels.length).map Arena.idOf }
        else n
      else labels[i - t.size]?.map fun label => ⟨some p, label, false, []⟩ := by
  induction labels generalizing t with
  | nil =>
    by_cases hi : i < t.size
    · simp [growAll, hi]
    · have hnone : t.get? i = none := List.getElem?_eq_none (Nat.le_of_not_lt hi)
      simp [growAll, hi, hnone]
  | cons label labels ih =>
    have hp' : p < (grow t p label).size := by
      rw [size_grow]
      omega
    rw [growAll_cons, ih hp', size_grow, get?_grow hp]
    rcases Nat.lt_trichotomy i t.size with hi | rfl | hi
    · rw [if_pos (by omega), if_neg (Nat.ne_of_lt hi), if_pos hi, Option.map_map]
      congr 1
      funext n
      by_cases hpi : p = i
      · simp [hpi, List.range'_succ, Arena.nextId]
      · simp [hpi]
    · simp [Nat.ne_of_lt hp]
    · have hindex : i - t.size = i - (t.size + 1) + 1 := by omega
      rw [if_neg (by omega), if_neg (by omega), hindex, List.getElem?_cons_succ]

theorem size_growAll (t : Tree α) (p : Nat) (labels : List α) :
    (growAll t p labels).size = t.size + labels.length := by
  induction labels generalizing t with
  | nil => rfl
  | cons label labels ih =>
    rw [growAll_cons, ih, size_grow, List.length_cons]
    omega

/-- Every node but the parent of the new ones stays as it is. -/
theorem get?_growAll_of_ne (hp : p < t.size) (hpi : p ≠ i) (hi : i < t.size) :
    (growAll t p labels).get? i = t.get? i := by
  rw [get?_growAll hp, if_pos hi]
  simp [hpi]

/-- A property that is kept whenever a node is added is kept when several are. -/
theorem growAll_induction {motive : Tree α → Prop} (hp : p < t.size) (start : motive t)
    (step : ∀ t' label, label ∈ labels → Extends t t' → motive t' → motive (grow t' p label)) :
    motive (growAll t p labels) := by
  have hall : ∀ (more : List α) (t' : Tree α), more ⊆ labels → Extends t t' → motive t' →
      motive (growAll t' p more) := by
    intro more
    induction more with
    | nil => exact fun _ _ _ h => h
    | cons label more ih =>
      intro t' hsub hext h
      obtain ⟨n, hn⟩ := Arena.exists_get? hp
      obtain ⟨ids, hids⟩ := hext.node hn
      have hp' : p < t'.size := Arena.lt_size_of_get? hids
      obtain ⟨hlabel, hmore⟩ := List.cons_subset.mp hsub
      exact ih _ hmore (hext.trans (extends_grow hp' label)) (step t' label hlabel hext h)
  exact hall labels t (List.Subset.refl labels) (.refl t) start

section Grown

variable (labels)

theorem extends_growAll (hp : p < t.size) : Extends t (growAll t p labels) := by
  obtain ⟨n, hn⟩ := Arena.exists_get? hp
  refine growAll_induction hp (.refl t) fun t' label _ hext _ => ?_
  obtain ⟨ids, hids⟩ := hext.node hn
  exact hext.trans (extends_grow (Arena.lt_size_of_get? hids) label)

theorem Rooted.growAll (ht : Rooted t) (hp : p < t.size) : Rooted (growAll t p labels) := by
  refine growAll_induction hp ht fun t' label _ hext hrooted => ?_
  exact hrooted.grow (Nat.lt_of_lt_of_le hp hext.keepsParents.size_le) label

theorem Linked.growAll (ht : Linked t) (hp : p < t.size)
    (hfits : (growAll t p labels).size ≤ UInt32.size) : Linked (growAll t p labels) := by
  induction labels generalizing t with
  | nil => exact ht
  | cons label labels ih =>
    rw [growAll_cons] at hfits ⊢
    have hlt : t.size < UInt32.size := by
      rw [size_growAll, size_grow] at hfits
      omega
    refine ih (ht.grow hlt hp label) ?_ hfits
    rw [size_grow]
    omega

/-- A tree stays settled when an open node gets children. -/
theorem Settled.growAll (ht : Rooted t) (hs : Settled t) {n : Node α} (hn : t.get? p = some n)
    (hopen : n.isClosed = false) : Settled (growAll t p labels) := by
  have hp : p < t.size := Arena.lt_size_of_get? hn
  have hboth : Rooted (Tree.growAll t p labels) ∧ Settled (Tree.growAll t p labels) := by
    refine growAll_induction (motive := fun t => Rooted t ∧ Settled t) hp ⟨ht, hs⟩ ?_
    rintro t' label - hext ⟨hrooted, hsettled⟩
    obtain ⟨ids, hids⟩ := hext.node hn
    have hp' : p < t'.size := Arena.lt_size_of_get? hids
    exact ⟨hrooted.grow hp' label, hsettled.grow hrooted hids hopen label⟩
  exact hboth.2

end Grown

/-- The node that gets children. -/
theorem get?_growAll_parent {n : Node α} (hn : t.get? p = some n) :
    (growAll t p labels).get? p = some
      { n with children := n.children ++ (List.range' t.size labels.length).map Arena.idOf } := by
  have hp : p < t.size := Arena.lt_size_of_get? hn
  rw [get?_growAll hp, if_pos hp, hn, Option.map_some, if_pos rfl]

/-- The new nodes. -/
theorem get?_growAll_new (hp : p < t.size) (hj : labels[j]? = some label) :
    (growAll t p labels).get? (t.size + j) = some ⟨some p, label, false, []⟩ := by
  have hge : ¬ t.size + j < t.size := by omega
  rw [get?_growAll hp, if_neg hge, Nat.add_sub_cancel_left, hj, Option.map_some]

/-- The new node if there is one only. -/
theorem get?_growAll_single (label : α) (hp : p < t.size) :
    (growAll t p [label]).get? t.size = some ⟨some p, label, false, []⟩ :=
  get?_growAll_new (j := 0) hp rfl

/-- A node of the grown tree is an old one or a new one. -/
theorem of_get?_growAll {n : Node α} (hp : p < t.size)
    (hn : (growAll t p labels).get? i = some n) :
    (∃ m, t.get? i = some m ∧ n = if p = i then
        { m with children := m.children ++ (List.range' t.size labels.length).map Arena.idOf }
        else m) ∨
      ∃ label ∈ labels, t.size ≤ i ∧ n = ⟨some p, label, false, []⟩ := by
  rw [get?_growAll hp] at hn
  split at hn
  · obtain ⟨m, hm, rfl⟩ := Option.map_eq_some_iff.mp hn
    exact Or.inl ⟨m, hm, rfl⟩
  next hi =>
    obtain ⟨label, hlabel, rfl⟩ := Option.map_eq_some_iff.mp hn
    exact Or.inr ⟨label, List.mem_of_getElem? hlabel, Nat.le_of_not_lt hi, rfl⟩

/-- The children of a leaf are numbered one after the other, so a node that owns one with an id of
its own either owns all that it lists or lists the root. -/
theorem Tidy.growAll (ht : Rooted t) (htidy : Tidy t) {m : Node α} (hm : t.get? p = some m)
    (hleaf : m.isLeaf = true) (labels : List α) : Tidy (growAll t p labels) := by
  have hp : p < t.size := Arena.lt_size_of_get? hm
  have hnil : m.children = [] := List.isEmpty_iff.mp hleaf
  have hparent : (Tree.growAll t p labels).get? p =
      some { m with children := (List.range' t.size labels.length).map Arena.idOf } := by
    rw [get?_growAll_parent hm, hnil, List.nil_append]
  intro i n q hi hn hq
  rcases of_get?_growAll hp hn with ⟨k, hk, rfl⟩ | ⟨label, hlabel, hge, rfl⟩
  · have hkq : k.parent = some q := by
      split at hq <;> exact hq
    obtain ⟨-, l, hl, hmem⟩ := ht.of_parent hk hkq
    have hpq : p ≠ q := by
      rintro rfl
      cases hm.symm.trans hl
      rw [hnil] at hmem
      cases hmem
    have hsame : (Tree.growAll t p labels).get? q = some l :=
      (get?_growAll_of_ne hp hpq (Arena.lt_size_of_get? hl)).trans hl
    rcases htidy i k q hi hk hkq with howns | ⟨l', hl', hroot⟩
    · refine Or.inl fun l' hl' j hj => ?_
      cases hsame.symm.trans hl'
      obtain ⟨n, hn, hparent⟩ := howns l hl j hj
      obtain ⟨ids, hids⟩ := (extends_growAll labels hp).node hn
      exact ⟨_, hids, hparent⟩
    · cases hl.symm.trans hl'
      exact Or.inr ⟨l, hsame, hroot⟩
  · cases hq
    have hlast := Arena.lt_size_of_get? hn
    rw [size_growAll] at hlast
    by_cases hfits : t.size + labels.length ≤ UInt32.size
    · refine Or.inl fun l hl j hj => ?_
      cases hparent.symm.trans hl
      obtain ⟨c, hc, rfl⟩ := List.mem_map.mp hj
      obtain ⟨hle, hlt⟩ := List.mem_range'_1.mp hc
      rw [Arena.idOf_of_lt (by omega), ← Nat.add_sub_of_le hle]
      exact ⟨_, get?_growAll_new hp (List.getElem?_eq_getElem (by omega)), rfl⟩
    · refine Or.inr ⟨_, hparent, List.mem_map.mpr ⟨UInt32.size, ?_, by decide⟩⟩
      exact List.mem_range'_1.mpr ⟨by omega, by omega⟩

/-- The nodes with a given parent, in the order of their numbers. -/
def childrenOf (t : Tree α) (p : Nat) : List Nat :=
  (List.range t.size).filter fun i => (t.get? i).bind Node.parent = some p

theorem mem_childrenOf :
    i ∈ childrenOf t p ↔ ∃ n, t.get? i = some n ∧ n.parent = some p := by
  rw [childrenOf, List.mem_filter, decide_eq_true_eq, Option.bind_eq_some_iff, List.mem_range]
  refine and_iff_right_of_imp ?_
  rintro ⟨n, hn, -⟩
  exact Arena.lt_size_of_get? hn

/-- A leaf is nobody's parent. -/
theorem Rooted.childrenOf_of_isLeaf (ht : Rooted t) {m : Node α} (hm : t.get? p = some m)
    (hleaf : m.isLeaf = true) : childrenOf t p = [] := by
  refine List.eq_nil_iff_forall_not_mem.mpr fun i hi => ?_
  obtain ⟨n, hn, hparent⟩ := mem_childrenOf.mp hi
  obtain ⟨-, m', hm', hmem⟩ := ht.of_parent hn hparent
  cases hm.symm.trans hm'
  cases hleaf.symm.trans (isLeaf_eq_false_of_mem hmem)

/-- The new nodes are the last children of the node below which they are added. -/
theorem childrenOf_growAll (hp : p < t.size) (labels : List α) (q : Nat) :
    childrenOf (growAll t p labels) q =
      childrenOf t q ++ if p = q then List.range' t.size labels.length else [] := by
  rw [childrenOf, size_growAll, List.range_add, List.filter_append, ← List.range'_eq_map_range]
  congr 1
  · refine List.filter_congr fun i hi => ?_
    obtain ⟨n, hn⟩ := Arena.exists_get? (List.mem_range.mp hi)
    obtain ⟨ids, hids⟩ := (extends_growAll labels hp).node hn
    simp [hn, hids]
  · have hnew : ∀ i ∈ List.range' t.size labels.length,
        ((growAll t p labels).get? i).bind Node.parent = some p := by
      intro i hi
      obtain ⟨hle, hlt⟩ := List.mem_range'_1.mp hi
      rw [← Nat.add_sub_of_le hle, get?_growAll_new hp (List.getElem?_eq_getElem (by omega))]
      rfl
    split
    next hpq =>
      exact List.filter_eq_self.mpr fun i hi => decide_eq_true (hpq ▸ hnew i hi)
    next hpq => exact List.filter_eq_nil_iff.mpr fun i hi => by simp [hnew i hi, hpq]

theorem SameShape.childrenOf_eq (h : SameShape t t') (p : Nat) :
    childrenOf t' p = childrenOf t p := by
  rw [childrenOf, childrenOf, h.size_eq]
  refine List.filter_congr fun i hi => ?_
  obtain ⟨n, hn⟩ := Arena.exists_get? (List.mem_range.mp hi)
  obtain ⟨n', hn', hparent, -⟩ := h.node hn
  simp [hn, hn', hparent]

/-- What the children of a node say, from left to right. -/
def childLabels (t : Tree α) (p : Nat) : List (Option α) :=
  (childrenOf t p).map fun i => (t.get? i).map Node.label

/-- The new children say what was added. -/
theorem map_label_range' (hp : p < t.size) (labels : List α) :
    (List.range' t.size labels.length).map
        (fun i => ((growAll t p labels).get? i).map Node.label) = labels.map some := by
  refine List.ext_getElem? fun j => ?_
  rw [List.getElem?_map, List.getElem?_map]
  by_cases hj : j < labels.length
  · have hlabel : labels[j]? = some labels[j] := List.getElem?_eq_getElem hj
    rw [List.getElem?_range' hj, hlabel]
    simp [get?_growAll_new hp hlabel]
  · have hle : labels.length ≤ j := Nat.le_of_not_lt hj
    rw [List.getElem?_eq_none hle, List.getElem?_eq_none (by simpa using hle)]
    rfl

/-- The children that there were say what they said, and the new ones what was added. -/
theorem childLabels_growAll (hp : p < t.size) (labels : List α) (q : Nat) :
    childLabels (growAll t p labels) q =
      childLabels t q ++ if p = q then labels.map some else [] := by
  rw [childLabels, childrenOf_growAll hp, List.map_append]
  congr 1
  · refine List.map_congr_left fun i hi => ?_
    obtain ⟨n, hn, -⟩ := mem_childrenOf.mp hi
    obtain ⟨ids, hids⟩ := (extends_growAll labels hp).node hn
    rw [hids, hn, Option.map_some, Option.map_some]
  · split
    · exact map_label_range' hp labels
    · rfl

/-- If what the children of every inner node say has a property for that node, and what is added to
a leaf has it there, then this is still so in the grown tree. -/
theorem forall_childLabels_growAll {P : Nat → List (Option α) → Prop} (ht : Rooted t) {n : Node α}
    (hn : t.get? p = some n) (hleaf : n.isLeaf = true)
    (hold : ∀ i m, t.get? i = some m → m.isLeaf = false → P i (childLabels t i))
    (hnew : P p (labels.map some)) :
    ∀ i m, (growAll t p labels).get? i = some m → m.isLeaf = false →
      P i (childLabels (growAll t p labels) i) := by
  have hp : p < t.size := Arena.lt_size_of_get? hn
  intro i m hm hinner
  rw [childLabels_growAll hp]
  rcases of_get?_growAll hp hm with ⟨k, hk, rfl⟩ | ⟨label, -, -, rfl⟩
  · by_cases hpi : p = i
    · subst hpi
      rw [if_pos rfl, childLabels, ht.childrenOf_of_isLeaf hn hleaf, List.map_nil, List.nil_append]
      exact hnew
    · rw [if_neg hpi] at hinner ⊢
      rw [List.append_nil]
      exact hold i k hk hinner
  · cases hinner

/-- A property of what nodes say is kept if what is added has it. -/
theorem forall_labels_growAll {P : α → Prop} (hp : p < t.size)
    (hold : ∀ i n, t.get? i = some n → P n.label) (hnew : ∀ label ∈ labels, P label) :
    ∀ i n, (growAll t p labels).get? i = some n → P n.label := by
  intro i n hn
  rcases of_get?_growAll hp hn with ⟨m, hm, rfl⟩ | ⟨label, hlabel, -, rfl⟩
  · split <;> exact hold i m hm
  · exact hnew label hlabel

/-- The leaves of a tree all say something with a property exactly if this is so after one of them
got children and the property passes from it to them and back. -/
theorem forall_leaves_growAll {P : α → Prop} {n : Node α} (hn : t.get? p = some n)
    (hleaf : n.isLeaf = true) (hne : labels ≠ [])
    (hP : P n.label ↔ ∀ label ∈ labels, P label) :
    (∀ i m, (growAll t p labels).get? i = some m → m.isLeaf = true → P m.label) ↔
      ∀ i m, t.get? i = some m → m.isLeaf = true → P m.label := by
  have hp : p < t.size := Arena.lt_size_of_get? hn
  constructor
  · intro h i m hm hm_leaf
    by_cases hpi : p = i
    · subst hpi
      cases hn.symm.trans hm
      refine hP.mpr fun label hlabel => ?_
      obtain ⟨j, hj⟩ := List.mem_iff_getElem?.mp hlabel
      exact h _ _ (get?_growAll_new hp hj) rfl
    · have hsame : (growAll t p labels).get? i = some m :=
        (get?_growAll_of_ne hp hpi (Arena.lt_size_of_get? hm)).trans hm
      exact h i m hsame hm_leaf
  · intro h i m hm hm_leaf
    rcases of_get?_growAll hp hm with ⟨k, hk, rfl⟩ | ⟨label, hlabel, -, rfl⟩
    · by_cases hpi : p = i
      · -- The parent of the new nodes is no leaf any more.
        obtain ⟨label, more, rfl⟩ := List.exists_cons_of_ne_nil hne
        simp [hpi, Node.isLeaf] at hm_leaf
      · rw [if_neg hpi] at hm_leaf ⊢
        exact h i k hk hm_leaf
    · exact hP.mp (h p n hn hleaf) label hlabel

/-- Marking nodes changes no leaf but in whether it is closed. -/
theorem forall_leaves_markAll {P : α → Prop} (t : Tree α) (ids : List Nat) :
    (∀ i m, (markAll t ids).get? i = some m → m.isLeaf = true → P m.label) ↔
      ∀ i m, t.get? i = some m → m.isLeaf = true → P m.label := by
  constructor
  · intro h i m hm hleaf
    have hP := h i _ (get?_markAll_of_some hm ids) hleaf
    exact hP
  · intro h i m' hm' hleaf
    rw [get?_markAll] at hm'
    obtain ⟨m, hm, rfl⟩ := Option.map_eq_some_iff.mp hm'
    exact h i m hm hleaf

/-- A closed leaf of a grown tree has been one before. -/
theorem Extends.get?_of_closed_leaf (h : Extends t t') {n : Node α} (hn : t'.get? i = some n)
    (hleaf : n.isLeaf = true) (hclosed : n.isClosed = true) : t.get? i = some n := by
  cases hold : t.get? i with
  | none =>
    rw [h.isOpen hn hold] at hclosed
    cases hclosed
  | some m =>
    obtain ⟨ids, hids⟩ := h.node hold
    cases hids.symm.trans hn
    have hnil : m.children ++ ids = [] := List.isEmpty_iff.mp hleaf
    rw [(List.append_eq_nil_iff.mp hnil).2, List.append_nil]

/-- A property of nodes that every inner node hands on to some child is handed on to a leaf. -/
theorem exists_leaf_of_descends {Q : Nat → Prop} (ht : Rooted t)
    (hstep : ∀ p m, t.get? p = some m → m.isLeaf = false → Q p → ∃ j ∈ childrenOf t p, Q j)
    {n : Node α} (hn : t.get? i = some n) (hQ : Q i) :
    ∃ j m, t.get? j = some m ∧ m.isLeaf = true ∧ Q j := by
  -- Children have greater numbers, of which there are finitely many.
  induction hk : t.size - i using Nat.strongRecOn generalizing i n with
  | ind k ih =>
    by_cases hleaf : n.isLeaf = true
    · exact ⟨i, n, hn, hleaf, hQ⟩
    · obtain ⟨j, hj, hQj⟩ := hstep i n hn (Bool.not_eq_true _ ▸ hleaf) hQ
      obtain ⟨m, hm, hparent⟩ := mem_childrenOf.mp hj
      have hlt : i < j := (ht.of_parent hm hparent).1
      have hsize : j < t.size := Arena.lt_size_of_get? hm
      exact ih (t.size - j) (by omega) hm hQj rfl

/-- Below an open node of a settled tree there is an open leaf. -/
theorem exists_open_leaf (ht : Linked t) (hs : Settled t) {n : Node α} (hn : t.get? i = some n)
    (hopen : n.isClosed = false) :
    ∃ j m, t.get? j = some m ∧ m.isLeaf = true ∧ m.isClosed = false := by
  let Q (i : Nat) : Prop := ∃ m, t.get? i = some m ∧ m.isClosed = false
  have hstep : ∀ p m, t.get? p = some m → m.isLeaf = false → Q p → ∃ j ∈ childrenOf t p, Q j := by
    rintro p m hm hinner ⟨m', hm', hopen⟩
    cases hm.symm.trans hm'
    by_contra hnone
    have hall : ∀ j ∈ m.children, ClosedBelow t p j := by
      intro j hj
      obtain ⟨k, hk, hparent⟩ := ht.child hm j hj
      refine ⟨k, hk, hparent, ?_⟩
      by_contra hk_open
      exact hnone ⟨j, mem_childrenOf.mpr ⟨k, hk, hparent⟩, k, hk, Bool.not_eq_true _ ▸ hk_open⟩
    exact Bool.false_ne_true (hopen.symm.trans ((hs p m hm hinner).mpr hall))
  obtain ⟨j, m, hm, hleaf, m', hm', hm_open⟩ :=
    exists_leaf_of_descends ht.toRooted hstep hn ⟨n, hn, hopen⟩
  cases hm.symm.trans hm'
  exact ⟨j, m, hm, hleaf, hm_open⟩

end Deduction.Tree
