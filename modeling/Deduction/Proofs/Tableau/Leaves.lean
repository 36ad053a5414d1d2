import Deduction.Proofs.Tableau.Soundness

/-!
# Working at the leaves of a clausal tableau

A move at a leaf changes nothing of the other leaves and of their branches: no node gets
another parent or another atom, and of the nodes with children some are closed at most.
So one leaf after the other can be closed, each as if it were the only one.
-/

namespace Deduction.Tableau

open Deduction.Tree

variable {L : Type} {t t' t'' : Tree (Label L)} {ids ids' : List Nat} {i : Nat}
  {branch : List (Atom L)}

/-- Whether a tree has become another one by moves at some of its leaves. -/
structure GoesOn (ids : List Nat) (t t' : Tree (Label L)) : Prop where
  /-- Nodes keep their parents and atoms, closed nodes stay closed and inner nodes get no
  children. -/
  node : ∀ {i : Nat} {n : Node (Label L)}, t.get? i = some n → ∃ n', t'.get? i = some n' ∧
    n'.parent = n.parent ∧ n'.label.atom = n.label.atom ∧
    (n.isClosed = true → n'.isClosed = true) ∧ (n.isLeaf = false → n'.children = n.children)
  /-- The other leaves stay as they are. -/
  leaf : ∀ {i : Nat} {n : Node (Label L)}, t.get? i = some n → n.isLeaf = true → i ∉ ids →
    t'.get? i = some n

namespace GoesOn

theorem refl (ids : List Nat) (t : Tree (Label L)) : GoesOn ids t t where
  node {_ n} hn := ⟨n, hn, rfl, rfl, id, fun _ => rfl⟩
  leaf hn _ _ := hn

theorem trans {ids'' : List Nat} (h : GoesOn ids t t') (h' : GoesOn ids' t' t'')
    (hids : ∀ i < t.size, i ∈ ids ∨ i ∈ ids' → i ∈ ids'') : GoesOn ids'' t t'' where
  node hn := by
    obtain ⟨n', hn', hparent, hatom, hclosed, hchildren⟩ := h.node hn
    obtain ⟨n'', hn'', hparent', hatom', hclosed', hchildren'⟩ := h'.node hn'
    refine ⟨n'', hn'', hparent'.trans hparent, hatom'.trans hatom, fun hn => hclosed' (hclosed hn),
      fun hinner => ?_⟩
    have hsame := hchildren hinner
    rw [hchildren' (by rw [Node.isLeaf, hsame]; exact hinner), hsame]
  leaf {i n} hn hleaf hi := by
    have hlt := Arena.lt_size_of_get? hn
    exact h'.leaf (h.leaf hn hleaf fun hmem => hi (hids i hlt (Or.inl hmem))) hleaf
      fun hmem => hi (hids i hlt (Or.inr hmem))

theorem keepsParents (h : GoesOn ids t t') : KeepsParents t t' := by
  intro i n hn
  obtain ⟨n', hn', hparent, -⟩ := h.node hn
  exact ⟨n', hn', hparent⟩

theorem atomAt_eq (h : GoesOn ids t t') (hi : i < t.size) : atomAt t' i = atomAt t i := by
  obtain ⟨n, hn⟩ := Arena.exists_get? hi
  obtain ⟨n', hn', -, hatom, -⟩ := h.node hn
  rw [atomAt, atomAt, hn, hn']
  exact hatom

end GoesOn

/-- Whether a node is closed. -/
def ClosedAt (t : Tree (Label L)) (i : Nat) : Prop := ∃ n, t.get? i = some n ∧ n.isClosed = true

theorem ClosedAt.goesOn (h : GoesOn ids t t') (hi : ClosedAt t i) : ClosedAt t' i := by
  obtain ⟨n, hn, hclosed⟩ := hi
  obtain ⟨n', hn', -, -, hkeep, -⟩ := h.node hn
  exact ⟨n', hn', hkeep hclosed⟩

/-- A node with children is closed when they have been closed. -/
theorem GoesOn.closedAt (h : GoesOn ids t t') (ht : Linked t) (hs : Settled t')
    {n : Node (Label L)} (hn : t.get? i = some n) (hinner : n.isLeaf = false)
    (hall : ∀ j ∈ n.children, ClosedAt t' j) : ClosedAt t' i := by
  obtain ⟨n', hn', -, -, -, hchildren⟩ := h.node hn
  have hsame := hchildren hinner
  have hinner' : n'.isLeaf = false := by
    rw [Node.isLeaf, hsame]
    exact hinner
  refine ⟨n', hn', (hs i n' hn' hinner').mpr fun j hj => ?_⟩
  rw [hsame] at hj
  obtain ⟨m, hm, hparent⟩ := ht.child hn j hj
  obtain ⟨m', hm', hparent', -⟩ := h.node hm
  obtain ⟨k, hk, hclosed⟩ := hall j hj
  cases hm'.symm.trans hk
  exact ⟨m', hm', hparent'.trans hparent, hclosed⟩

/-- Whether the atoms on the branch to a node are the given ones, its own one first. -/
structure BranchAt (t : Tree (Label L)) (i : Nat) (branch : List (Atom L)) : Prop where
  /-- The atom of the node comes first. -/
  own : atomAt t i = branch.head?
  /-- The atoms are those above the node. -/
  mem_iff : ∀ a, a ∈ branch ↔ ∃ j, Above t j i ∧ atomAt t j = some a

/-- Whether a node is an open leaf at the end of a branch with the given atoms. -/
structure OpenLeaf (t : Tree (Label L)) (i : Nat) (branch : List (Atom L)) : Prop extends
    BranchAt t i branch where
  /-- The node is an open leaf. -/
  node : ∃ n, t.get? i = some n ∧ n.isLeaf = true ∧ n.isClosed = false

theorem OpenLeaf.lt_size (h : OpenLeaf t i branch) : i < t.size := by
  obtain ⟨n, hn, -⟩ := h.node
  exact Arena.lt_size_of_get? hn

/-- The branch to a node is that to its parent with its own atom. -/
theorem BranchAt.child (hi : BranchAt t i branch) {j : Nat} {n : Node (Label L)} {a : Atom L}
    (hn : t.get? j = some n) (hp : n.parent = some i) (ha : n.label.atom = some a) :
    BranchAt t j (a :: branch) := by
  have hatom : atomAt t j = some a := by
    rw [atomAt, hn]
    exact ha
  refine ⟨hatom, fun b => ?_⟩
  rw [List.mem_cons, hi.mem_iff]
  constructor
  · rintro (rfl | ⟨k, hk, hb⟩)
    · exact ⟨j, .here, hatom⟩
    · exact ⟨k, .up hn hp hk, hb⟩
  · rintro ⟨k, hk, hb⟩
    cases hk with
    | here => exact Or.inl (Option.some.inj (hb.symm.trans hatom))
    | up hn' hp' hk =>
      cases hn.symm.trans hn'
      cases hp.symm.trans hp'
      exact Or.inr ⟨k, hk, hb⟩

/-- The atoms above a node stay the same. -/
theorem GoesOn.onBranch_iff (h : GoesOn ids t t') (ht : Rooted t) (hi : i < t.size) (a : Atom L) :
    (∃ j, Above t' j i ∧ atomAt t' j = some a) ↔ ∃ j, Above t j i ∧ atomAt t j = some a := by
  constructor
  · rintro ⟨j, hji, ha⟩
    have hji := hji.before ht h.keepsParents hi
    refine ⟨j, hji, ?_⟩
    rw [← ha, h.atomAt_eq (Nat.lt_of_le_of_lt (hji.le ht) hi)]
  · rintro ⟨j, hji, ha⟩
    refine ⟨j, hji.of_keepsParents h.keepsParents, ?_⟩
    rw [← ha, h.atomAt_eq (Nat.lt_of_le_of_lt (hji.le ht) hi)]

/-- Moves do not change the branch to a node. -/
theorem BranchAt.goesOn (hi : BranchAt t i branch) (ht : Rooted t) (h : GoesOn ids t t')
    (hlt : i < t.size) : BranchAt t' i branch where
  own := by rw [h.atomAt_eq hlt, hi.own]
  mem_iff a := by rw [hi.mem_iff, h.onBranch_iff ht hlt]

/-- Moves at other leaves leave an open leaf and its branch as they are. -/
theorem OpenLeaf.goesOn (hi : OpenLeaf t i branch) (ht : Rooted t) (h : GoesOn ids t t')
    (hnot : i ∉ ids) : OpenLeaf t' i branch where
  toBranchAt := hi.toBranchAt.goesOn ht h hi.lt_size
  node := by
    obtain ⟨n, hn, hleaf, hopen⟩ := hi.node
    exact ⟨n, h.leaf hn hleaf hnot, hleaf, hopen⟩

theorem goesOn_growAll {n : Node (Label L)} (hn : t.get? i = some n) (hleaf : n.isLeaf = true)
    (labels : List (Label L)) : GoesOn [i] t (growAll t i labels) := by
  have hi := Arena.lt_size_of_get? hn
  constructor
  case node =>
    intro j m hm
    obtain ⟨ids, hids⟩ := (extends_growAll labels hi).node hm
    refine ⟨_, hids, rfl, rfl, id, fun hinner => ?_⟩
    have hij : i ≠ j := by
      rintro rfl
      cases hn.symm.trans hm
      exact Bool.false_ne_true (hinner.symm.trans hleaf)
    rw [get?_growAll_of_ne hi hij (Arena.lt_size_of_get? hm), hm] at hids
    exact congrArg Node.children (Option.some.inj hids).symm
  case leaf =>
    intro j m hm _ hj
    have hij : i ≠ j := fun hij => hj (List.mem_singleton.mpr hij.symm)
    rw [get?_growAll_of_ne hi hij (Arena.lt_size_of_get? hm), hm]

/-- The leaves below an expanded leaf have its branch, and one atom of the clause each. -/
theorem OpenLeaf.child (hi : OpenLeaf t i branch) (ht : Rooted t) {atoms : List (Atom L)}
    {a : Atom L} {j : Nat} (hj : atoms[j]? = some a) :
    OpenLeaf (growAll t i (atoms.map fun a => ⟨some a, none⟩)) (t.size + j) (a :: branch) := by
  obtain ⟨n, hn, hleaf, -⟩ := hi.node
  have hgoes := goesOn_growAll hn hleaf (atoms.map fun a => (⟨some a, none⟩ : Label L))
  have hnew : (growAll t i (atoms.map fun a => (⟨some a, none⟩ : Label L))).get? (t.size + j) =
      some ⟨some i, ⟨some a, none⟩, false, []⟩ := by
    refine get?_growAll_new hi.lt_size ?_
    rw [List.getElem?_map, hj, Option.map_some]
  exact ⟨(hi.toBranchAt.goesOn ht hgoes hi.lt_size).child hnew rfl rfl, _, hnew, rfl, rfl⟩

theorem Closes.goesOn {s s' : State L} {leaf partner : Nat} (h : Closes s s' leaf partner)
    (ht : Rooted s.tree) : GoesOn [leaf] s.tree s'.tree ∧ ClosedAt s'.tree leaf := by
  obtain ⟨ids, hmem, hget⟩ := h.exists_get?_eq ht
  have hnode {i : Nat} {n : Node (Label L)} (hn : s.tree.get? i = some n) :=
    (hget i).trans (congrArg _ hn)
  refine ⟨⟨fun hn => ?_, fun hn hleaf hi => ?_⟩, ?_⟩
  · refine ⟨_, hnode hn, rfl, rfl, fun hclosed => ?_, fun _ => rfl⟩
    exact Bool.or_eq_true_iff.mpr (Or.inl hclosed)
  · have hne := fun heq => hi (List.mem_singleton.mpr heq)
    have hold := h.get?_of_leaf ht (hnode hn) hne hleaf
    exact (hnode hn).trans (hold.symm.trans hn)
  · obtain ⟨n, -, -, hn, -⟩ := h.pair
    refine ⟨_, hnode hn, ?_⟩
    simp [hmem]

/-- If branches may repeat atoms, a clause with atoms that is connected as it must be is added to an
open leaf. -/
theorem advance_expand {s : State String} {n : Node (Label String)} {c : Clause String}
    {leaf id : Nat} (hnamed : leaf < UInt32.size) (hn : s.tree.get? leaf = some n)
    (hleaf : n.isLeaf = true) (hopen : n.isClosed = false) (hc : s.clauses.get? id = some c)
    (hne : c.atoms ≠ []) (hregular : s.regular = false)
    (hconnected : leaf ≠ root → s.checkConnected leaf c = .ok ())
    (hroom : s.expansions + 1 < UInt64.size) :
    Propositional.advance s (.expand leaf id) = .ok (State.record { s with
      tree := growAll s.tree leaf (c.atoms.map fun a => ⟨some a, none⟩)
      expansions := s.expansions + 1 } (.expand leaf id)) := by
  have hexpand : s.expand n leaf c = .ok { s with
      tree := growAll s.tree leaf (c.atoms.map fun a => ⟨some a, none⟩)
      expansions := s.expansions + 1 } := by
    simp only [State.expand, refuse, Outcome.bind_eq_ok, checkOpenLeaf_eq_ok, hregular,
      Outcome.check_eq_ok, Outcome.pure_eq_ok, reduceCtorEq, exists_false, imp_false,
      Outcome.ofCount_eq_ok, growAll, List.foldl_map, Clause.isEmpty, List.isEmpty_iff]
    exact ⟨(), ⟨hleaf, hopen⟩, hne, False.elim, fun hi => ⟨(), hconnected hi⟩, _, ⟨hroom, rfl⟩, rfl⟩
  rw [Propositional.advance, node_eq_ok.mpr ⟨hnamed, hn⟩, Outcome.ok_bind, clause_eq_ok.mpr hc,
    Outcome.ok_bind, hexpand]
  rfl

/-- Closing an open leaf against its complement above it is accepted. -/
theorem exists_close [DecidableEq L] [Literal L] {s : State L} (ht : Rooted s.tree)
    {leaf partner : Nat} {n m : Node (Label L)} {a : Atom L} (hnamed : leaf < UInt32.size)
    (hn : s.tree.get? leaf = some n) (hleaf : n.isLeaf = true) (hopen : n.isClosed = false)
    (hna : n.label.atom = some a) (hm : s.tree.get? partner = some m)
    (hma : m.label.atom = some a.complement) (habove : Above s.tree partner leaf) :
    ∃ t, s.close leaf partner = .ok { s with tree := t } := by
  have hne : partner ≠ leaf := by
    rintro rfl
    cases hn.symm.trans hm
    exact a.complement_ne (Option.some.inj (hma.symm.trans hna))
  have hn' : s.node leaf = .ok n := node_eq_ok.mpr ⟨hnamed, hn⟩
  have hm' : s.node partner = .ok m :=
    node_eq_ok.mpr ⟨Nat.lt_of_le_of_lt (habove.le ht) hnamed, hm⟩
  have hpair : s.closePair leaf partner = .ok (a, a.complement) := by
    simp [State.closePair, hn', hm', Outcome.ok_bind, State.checkOpenLeaf, hleaf, hopen, hna, hma,
      any_ancestors_of_above ht habove hne, Outcome.ofReference, Atom.complement]
  have hrefer := ht.of_sameShape (Closes.sameShape_refer s.tree leaf partner)
  have hnode := (get?_refer s.tree leaf partner leaf).trans (congrArg _ hn)
  obtain ⟨t, hclose⟩ := exists_closeLeaf hrefer hnode
  exact ⟨t, close_eq_ok.mpr ⟨a, a.complement, t, hpair, rfl, complete_ancestors ht hn, hclose, rfl⟩⟩

end Deduction.Tableau
