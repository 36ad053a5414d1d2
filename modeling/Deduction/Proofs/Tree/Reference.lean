import Deduction.Proofs.Tree.Growth
import Mathlib.Data.List.Nodup

/-!
# References of closed leaves

A leaf is closed against a node above it, to which its label then refers, and the two
labels clash. New nodes refer to nothing. A reference stays justified as long as labels
are only changed in such a way that those that clash still do.
-/

namespace Deduction.Tree

variable {α : Type} {t t' : Tree α} {ref : α → Option Nat} {Clash : α → α → Prop}
  {p leaf partner : Nat} {label : α}

/-- Whether exactly the closed leaves refer to another node, and each of them to one above it with
which it clashes. -/
structure Referenced (ref : α → Option Nat) (Clash : α → α → Prop) (t : Tree α) : Prop where
  /-- Closed leaves, and no other nodes, refer to a node. -/
  isSome_iff : ∀ {i : Nat} {n : Node α}, t.get? i = some n →
    ((ref n.label).isSome = true ↔ n.isLeaf = true ∧ n.isClosed = true)
  /-- A node that is referred to is another one, stands above and clashes. -/
  clash : ∀ {i j : Nat} {n : Node α}, t.get? i = some n → ref n.label = some j →
    j ≠ i ∧ Above t j i ∧ ∃ m, t.get? j = some m ∧ Clash n.label m.label

theorem referenced_single (hlabel : ref label = none) : Referenced ref Clash (single label) where
  isSome_iff hn := by
    rw [(eq_of_get?_single hn).2]
    simp [hlabel]
  clash hn hj := by
    rw [(eq_of_get?_single hn).2] at hj
    cases hlabel.symm.trans hj

namespace Referenced

/-- A new node below an open one refers to nothing. -/
theorem grow (h : Referenced ref Clash t) {m : Node α} (hm : t.get? p = some m)
    (hopen : m.isClosed = false) (hlabel : ref label = none) :
    Referenced ref Clash (grow t p label) := by
  have hp := Arena.lt_size_of_get? hm
  constructor
  case isSome_iff =>
    intro i n hn
    rcases of_get?_grow hp hn with ⟨-, rfl⟩ | ⟨k, hk, rfl⟩
    · simp [hlabel]
    · by_cases hpi : p = i
      · -- The parent of the new node was open, so it did not refer to anything.
        subst hpi
        cases hm.symm.trans hk
        have hnone := h.isSome_iff hm
        rw [hopen] at hnone
        simpa [hopen] using hnone
      · rw [if_neg hpi]
        exact h.isSome_iff hk
  case clash =>
    intro i j n hn hj
    rcases of_get?_grow hp hn with ⟨-, rfl⟩ | ⟨k, hk, rfl⟩
    · cases hlabel.symm.trans hj
    · have hkeep : (if p = i then { k with children := k.children ++ [t.nextId] } else k).label =
          k.label := by split <;> rfl
      rw [hkeep] at hj ⊢
      obtain ⟨hne, habove, l, hl, hclash⟩ := h.clash hk hj
      obtain ⟨ids, hids⟩ := (extends_grow hp label).node hl
      exact ⟨hne, habove.mono (extends_grow hp label), _, hids, hclash⟩

/-- References stay justified in a tree of the same shape if labels that clash still do and the
leaves stay as they are, except for those that are closed against a node above them. -/
theorem of_map {g : Nat → Node α → Node α} (h : Referenced ref Clash t)
    (hget : ∀ i, t'.get? i = (t.get? i).map (g i))
    (hg : ∀ i n, (g i n).parent = n.parent ∧ (g i n).children = n.children)
    (hclash : ∀ i j n m, Clash n.label m.label → Clash (g i n).label (g j m).label)
    (hnode : ∀ i n, t.get? i = some n →
      (ref (g i n).label = ref n.label ∧ (n.isLeaf = true → (g i n).isClosed = n.isClosed)) ∨
      (n.isLeaf = true ∧ (g i n).isClosed = true ∧ ∃ j m, ref (g i n).label = some j ∧ j ≠ i ∧
        Above t j i ∧ t.get? j = some m ∧ Clash n.label m.label)) :
    Referenced ref Clash t' := by
  have hshape := sameShape_of_map hget hg
  have hleaf (i : Nat) (n : Node α) : (g i n).isLeaf = n.isLeaf := by
    rw [Node.isLeaf, (hg i n).2, Node.isLeaf]
  constructor
  case isSome_iff =>
    intro i n' hn'
    obtain ⟨n, hn, rfl⟩ := Option.map_eq_some_iff.mp ((hget i).symm.trans hn')
    rw [hleaf]
    rcases hnode i n hn with ⟨href, hclosed⟩ | ⟨hn_leaf, hclosed, j, m, hj, -⟩
    · rw [href, h.isSome_iff hn]
      exact and_congr_right fun hn_leaf => by rw [hclosed hn_leaf]
    · simp [hj, hn_leaf, hclosed]
  case clash =>
    intro i j n' hn' hj
    obtain ⟨n, hn, rfl⟩ := Option.map_eq_some_iff.mp ((hget i).symm.trans hn')
    have hold : j ≠ i ∧ Above t j i ∧ ∃ m, t.get? j = some m ∧ Clash n.label m.label := by
      rcases hnode i n hn with ⟨href, -⟩ | ⟨-, -, k, m, hk, hne, habove, hm, hnm⟩
      · exact h.clash hn (href.symm.trans hj)
      · cases hk.symm.trans hj
        exact ⟨hne, habove, m, hm, hnm⟩
    obtain ⟨hne, habove, m, hm, hnm⟩ := hold
    refine ⟨hne, habove.of_sameShape hshape, g j m, ?_, hclash i j n m hnm⟩
    rw [hget, hm, Option.map_some]

/-- Changing all labels keeps references justified if labels that clash still do. -/
theorem mapLabels (h : Referenced ref Clash t) (f : α → α) (href : ∀ l, ref (f l) = ref l)
    (hclash : ∀ l m, Clash l m → Clash (f l) (f m)) : Referenced ref Clash (mapLabels t f) :=
  h.of_map (Arena.get?_map t _) (fun _ _ => ⟨rfl, rfl⟩) (fun _ _ n m => hclash n.label m.label)
    fun _ n _ => Or.inl ⟨href n.label, fun _ => rfl⟩

/-- References stay justified when a leaf is closed against a node above it. -/
theorem closeLeaf (h : Referenced ref Clash t) (ht : Rooted t) (f : α → α)
    (href : ∀ l, ref (f l) = some partner) (hirrefl : ∀ l, ¬ Clash l l)
    (hleft : ∀ l m, Clash l m → Clash (f l) m) (hright : ∀ l m, Clash l m → Clash l (f m))
    {n m : Node α} (hn : t.get? leaf = some n) (hleaf : n.isLeaf = true)
    (hm : t.get? partner = some m) (habove : Above t partner leaf) (hnm : Clash n.label m.label)
    (hclose : closeLeaf (t.modify leaf fun n => { n with label := f n.label }) leaf = some t') :
    Referenced ref Clash t' := by
  have hmodify (i : Nat) : Arena.get? (t.modify leaf fun n => { n with label := f n.label }) i =
      (t.get? i).map fun n => if leaf = i then { n with label := f n.label } else n :=
    Arena.get?_modify t leaf i _
  have hshape := sameShape_of_map hmodify fun i n => by split <;> exact ⟨rfl, rfl⟩
  obtain ⟨ids, rfl, hmem, hinner⟩ := closeLeaf_eq_markAll (ht.of_sameShape hshape) hclose
  have hget (i : Nat) := get?_markAll (t.modify leaf fun n => { n with label := f n.label }) ids i
  simp only [hmodify, Option.map_map, Function.comp_def] at hget
  refine h.of_map hget (fun i n => by split <;> exact ⟨rfl, rfl⟩) ?_ fun i k hk => ?_
  · intro i j k l hkl
    split
    · split
      · exact hright _ _ (hleft _ _ hkl)
      · exact hleft _ _ hkl
    · split
      · exact hright _ _ hkl
      · exact hkl
  · by_cases hi : leaf = i
    · subst hi
      cases hn.symm.trans hk
      have hne : partner ≠ leaf := by
        rintro rfl
        cases hn.symm.trans hm
        exact hirrefl _ hnm
      refine Or.inr ⟨hleaf, by simp [hmem], partner, m, ?_, hne, habove, hm, hnm⟩
      rw [if_pos rfl]
      exact href n.label
    · refine Or.inl ⟨by rw [if_neg hi], fun hk_leaf => ?_⟩
      -- The other nodes that are marked have children.
      have hunmarked : i ∉ ids := by
        intro hi_mem
        have hk' := hmodify i
        rw [hk, Option.map_some, if_neg hi] at hk'
        exact Bool.false_ne_true ((hinner i hi_mem (Ne.symm hi) k hk').symm.trans hk_leaf)
      simp [hi, hunmarked]

end Referenced

/-- The properties that the tree of a tableau has after every move. -/
structure Intact (ref : α → Option Nat) (Clash : α → α → Prop) (t : Tree α) : Prop where
  /-- There is a root, and it is the only node without parent. -/
  root : (∃ n, t.get? Tree.root = some n) ∧
    ∀ i n, t.get? i = some n → (n.parent = none ↔ i = Tree.root)
  /-- A parent comes earlier and lists its child exactly once. -/
  parent : ∀ i n p, t.get? i = some n → n.parent = some p →
    p < i ∧ ∃ m, t.get? p = some m ∧ m.children.count i = 1
  /-- A node lists no nodes but those of which it is the parent. -/
  child : ∀ p m, t.get? p = some m → ∀ i ∈ m.children,
    ∃ n, t.get? i = some n ∧ n.parent = some p
  /-- The closed nodes are the leaves with a reference and the inner nodes with closed children
  only. -/
  closed : ∀ i n, t.get? i = some n → (n.isClosed = true ↔
    if n.isLeaf then (ref n.label).isSome = true
    else ∀ j ∈ n.children, ∀ m, t.get? j = some m → m.isClosed = true)
  /-- A reference leads to another node above with a label that clashes. -/
  clash : ∀ i n j, t.get? i = some n → ref n.label = some j →
    j ≠ i ∧ Above t j i ∧ ∃ m, t.get? j = some m ∧ Clash n.label m.label

theorem Referenced.intact (h : Referenced ref Clash t) (ht : Linked t) (hs : Settled t) :
    Intact ref Clash t where
  root := by
    obtain ⟨r, hr, hnone⟩ := ht.root
    refine ⟨⟨r, hr⟩, fun i n hn => ⟨fun hn_none => ?_, ?_⟩⟩
    · by_contra hi
      obtain ⟨p, -, hp, -⟩ := ht.parent hn hi
      cases hn_none.symm.trans hp
    · rintro rfl
      cases hr.symm.trans hn
      exact hnone
  parent i n p hn hp := by
    obtain ⟨hlt, m, hm, hmem⟩ := ht.of_parent hn hp
    exact ⟨hlt, m, hm, List.count_eq_one_of_mem (ht.ordered hm).nodup hmem⟩
  child p m hm := ht.child hm
  closed i n hn := by
    split
    next hleaf => rw [h.isSome_iff hn, and_iff_right hleaf]
    next hinner =>
      rw [hs i n hn (Bool.not_eq_true _ ▸ hinner)]
      refine forall₂_congr fun j hj => ?_
      obtain ⟨m, hm, hparent⟩ := ht.child hn j hj
      simp [ClosedBelow, hm, hparent]
  clash i n j := h.clash

/-- Whether no leaf is open. -/
def LeavesClosed (t : Tree α) : Prop :=
  ∀ i n, t.get? i = some n → n.isLeaf = true → n.isClosed = true

/-- A root is closed exactly if no leaf is open. -/
theorem isClosed_root_iff (ht : Linked t) (hs : Settled t) {r : Node α}
    (hr : t.get? root = some r) : r.isClosed = true ↔ LeavesClosed t := by
  refine ⟨fun hclosed i n hn _ => isClosed_of_root ht hs hr hclosed hn, fun hall => ?_⟩
  by_contra hopen
  obtain ⟨i, n, hn, hleaf, hn_open⟩ := exists_open_leaf ht hs hr (Bool.not_eq_true _ ▸ hopen)
  exact Bool.false_ne_true (hn_open.symm.trans (hall i n hn hleaf))

end Deduction.Tree
