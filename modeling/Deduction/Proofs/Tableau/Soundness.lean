import Deduction.Proofs.Semantics
import Deduction.Proofs.Tableau.Moves
import Deduction.Proofs.Valuation
import Mathlib

/-!
# Soundness of clausal tableaux

In every tableau the atoms below a node are an instance of a clause, and a closed leaf
has its complement above it. If all clauses were true, every inner node would have a
child with a true atom, and so some branch would have true atoms only: a closed tableau
has no such branch. Nothing else is asked of the substitutions that are used.
-/

namespace Deduction

universe u

namespace Tableau

open Deduction.Tree

variable {L : Type} {t t' : Tree (Label L)} {s s' : State L} {clauses : ClauseSet L}

/-- The atom at a node. -/
def atomAt (t : Tree (Label L)) (i : Nat) : Option (Atom L) :=
  (t.get? i).bind fun n => n.label.atom

/-- The atoms at the children of a node from left to right. -/
def childAtoms (t : Tree (Label L)) (i : Nat) : List (Option (Atom L)) :=
  (childrenOf t i).map (atomAt t)

theorem childAtoms_eq (t : Tree (Label L)) (i : Nat) :
    childAtoms t i = (childLabels t i).map fun label => label.bind Label.atom := by
  rw [childAtoms, childLabels, List.map_map]
  refine List.map_congr_left fun i _ => ?_
  rw [atomAt, Function.comp]
  cases t.get? i <;> rfl

/-- An atom stays at its node when the tree grows. -/
theorem atomAt_mono (h : Extends t t') {i : Nat} {a : Atom L} (ha : atomAt t i = some a) :
    atomAt t' i = some a := by
  obtain ⟨n, hn, ha⟩ := Option.bind_eq_some_iff.mp ha
  obtain ⟨ids, hids⟩ := h.node hn
  exact Option.bind_eq_some_iff.mpr ⟨_, hids, ha⟩

/-- An atom in the tableau after a clause has been added was there or is one of the clause. -/
theorem Expands.atomAt_eq_some {leaf : Nat} {c : Clause L} (h : Expands s s' leaf c) {i : Nat}
    {a : Atom L} (ha : atomAt s'.tree i = some a) : atomAt s.tree i = some a ∨ a ∈ c.atoms := by
  obtain ⟨-, ⟨n, hn, -⟩, -, rfl⟩ := h
  obtain ⟨m, hm, ha⟩ := Option.bind_eq_some_iff.mp ha
  rcases of_get?_growAll (Arena.lt_size_of_get? hn) hm with ⟨k, hk, rfl⟩ | ⟨label, hlabel, -, rfl⟩
  · refine Or.inl (Option.bind_eq_some_iff.mpr ⟨k, hk, ?_⟩)
    split at ha <;> exact ha
  · obtain ⟨b, hb, rfl⟩ := List.mem_map.mp hlabel
    cases ha
    exact Or.inr hb

theorem get?_map (g : L → L) (s : State L) (i : Nat) :
    (s.map g).tree.get? i =
      (s.tree.get? i).map fun n => { n with label := n.label.map g } :=
  Arena.get?_map _ _ i

theorem atomAt_map (g : L → L) (s : State L) (i : Nat) :
    atomAt (s.map g).tree i = (atomAt s.tree i).map (Atom.map g) := by
  rw [atomAt, atomAt, get?_map]
  cases s.tree.get? i <;> rfl

theorem get?_refer (t : Tree (Label L)) (leaf partner i : Nat) :
    (refer t leaf partner).get? i = (t.get? i).map fun n =>
      if leaf = i then { n with label := { n.label with closeRef := some partner } } else n :=
  Arena.get?_modify t leaf i _

namespace Closes

variable {leaf partner : Nat}

theorem sameShape_refer (t : Tree (Label L)) (leaf partner : Nat) :
    SameShape t (refer t leaf partner) := by
  refine sameShape_of_map (get?_refer t leaf partner) fun i n => ?_
  split <;> exact ⟨rfl, rfl⟩

/-- Closing marks the leaf and other nodes, and changes no parent, child or atom. -/
theorem exists_get?_eq (h : Closes s s' leaf partner) (ht : Rooted s.tree) :
    ∃ ids : List Nat, leaf ∈ ids ∧ ∀ i, s'.tree.get? i = (s.tree.get? i).map fun n =>
      { n with
        isClosed := n.isClosed || ids.contains i
        label := ⟨n.label.atom, if leaf = i then some partner else n.label.closeRef⟩ } := by
  obtain ⟨t, ht', rfl⟩ := h.eq
  have hrooted := ht.of_sameShape (sameShape_refer s.tree leaf partner)
  obtain ⟨ids, rfl, hmem, -⟩ := closeLeaf_eq_markAll hrooted ht'
  refine ⟨ids, hmem, fun i => ?_⟩
  rw [get?_markAll, get?_refer, Option.map_map]
  congr 1
  funext n
  by_cases hi : leaf = i <;> simp [hi]

theorem sameShape (h : Closes s s' leaf partner) (ht : Rooted s.tree) :
    SameShape s.tree s'.tree := by
  obtain ⟨ids, -, hget⟩ := h.exists_get?_eq ht
  exact sameShape_of_map hget fun _ _ => ⟨rfl, rfl⟩

/-- Every other leaf stays as it is. -/
theorem get?_of_leaf (h : Closes s s' leaf partner) (ht : Rooted s.tree) {i : Nat}
    {n : Node (Label L)} (hn : s'.tree.get? i = some n) (hi : i ≠ leaf)
    (hleaf : n.isLeaf = true) : s.tree.get? i = some n := by
  obtain ⟨t, ht', rfl⟩ := h.eq
  have hrooted := ht.of_sameShape (sameShape_refer s.tree leaf partner)
  have hrefer := get?_of_closeLeaf hrooted ht' hn hi hleaf
  simpa [get?_refer, Ne.symm hi] using hrefer

theorem atomAt_eq (h : Closes s s' leaf partner) (ht : Rooted s.tree) (i : Nat) :
    atomAt s'.tree i = atomAt s.tree i := by
  obtain ⟨ids, -, hget⟩ := h.exists_get?_eq ht
  rw [atomAt, atomAt, hget]
  cases s.tree.get? i <;> rfl

theorem settled (h : Closes s s' leaf partner) (ht : Rooted s.tree) (htidy : Tidy s.tree)
    (hs : Settled s.tree) : Settled s'.tree := by
  obtain ⟨n, -, -, hn, hleaf, hopen, -⟩ := h.pair
  obtain ⟨t, hclose, rfl⟩ := h.eq
  have hrefer : Settled (refer s.tree leaf partner) := by
    refine hs.of_map (get?_refer s.tree leaf partner) fun i n => ?_
    split <;> exact ⟨rfl, rfl, rfl⟩
  have hnode := (get?_refer s.tree leaf partner leaf).trans (congrArg _ hn)
  rw [Option.map_some, if_pos rfl] at hnode
  have hshape := sameShape_refer s.tree leaf partner
  exact hrefer.closeLeaf (ht.of_sameShape hshape) (htidy.of_sameShape hshape) h.named hnode hleaf
    hopen hclose

end Closes

/-- Whether a node and one above it have atoms that are complements of each other. -/
def ClashesAt (t : Tree (Label L)) (i : Nat) : Prop :=
  ∃ j a, Above t j i ∧ atomAt t i = some a ∧ atomAt t j = some a.complement

/-- What holds of every tableau for a clause set. -/
structure Sound [Replaceable L] (clauses : ClauseSet L) (s : State L) : Prop where
  /-- The clauses stay. -/
  kept : s.clauses = clauses
  /-- Every node but the root has a parent that lists its id. -/
  rooted : Rooted s.tree
  /-- The links are proper as long as there are ids. -/
  linked : s.tree.size ≤ UInt32.size → Linked s.tree
  /-- What is listed together belongs together. -/
  tidy : Tidy s.tree
  /-- Nodes are closed as their children are. -/
  settled : Settled s.tree
  /-- The root has no atom. -/
  bare : atomAt s.tree root = none
  /-- The atoms below a node are an instance of a clause. -/
  instances : ∀ i n, s.tree.get? i = some n → n.isLeaf = false →
    ∃ c ∈ clauses.clauses, ∃ g, Replaceable.Replaces g ∧
      childAtoms s.tree i = (c.map g).atoms.map some
  /-- A closed leaf has its complement above it. -/
  justified : ∀ i n, s.tree.get? i = some n → n.isLeaf = true → n.isClosed = true →
    ClashesAt s.tree i

variable [Replaceable L]

theorem sound_initial (clauses : ClauseSet L) (kind : Connectedness)
    (regular backtracking manual : Bool) :
    Sound clauses (.initial clauses kind regular backtracking manual) where
  kept := rfl
  rooted := (linked_single _).toRooted
  linked _ := linked_single _
  tidy := (linked_single _).tidy
  settled := settled_single _
  bare := rfl
  instances i n hn hinner := by
    rw [(eq_of_get?_single hn).2] at hinner
    cases hinner
  justified i n hn _ hclosed := by
    rw [(eq_of_get?_single hn).2] at hclosed
    cases hclosed

theorem Sound.fresh (h : Sound clauses s) : Sound clauses s.fresh := by
  rw [State.fresh, h.kept]
  exact sound_initial clauses _ _ _ _

/-- Only the tree and the clauses matter. -/
theorem Sound.of_eq (h : Sound clauses s) (hclauses : s'.clauses = s.clauses)
    (htree : s'.tree = s.tree) : Sound clauses s' where
  kept := hclauses.trans h.kept
  rooted := htree ▸ h.rooted
  linked := htree ▸ h.linked
  tidy := htree ▸ h.tidy
  settled := htree ▸ h.settled
  bare := htree ▸ h.bare
  instances := htree ▸ h.instances
  justified := htree ▸ h.justified

theorem Sound.expand {leaf : Nat} {c : Clause L} {g : L → L} (h : Sound clauses s)
    (hc : c ∈ clauses.clauses) (hg : Replaceable.Replaces g)
    (hexpand : Expands s s' leaf (c.map g)) : Sound clauses s' := by
  obtain ⟨-, ⟨n, hn, hleaf, hopen⟩, -, rfl⟩ := hexpand
  have hlt := Arena.lt_size_of_get? hn
  have hext := extends_growAll ((c.map g).atoms.map fun a => (⟨some a, none⟩ : Label L)) hlt
  constructor
  case kept => exact h.kept
  case rooted => exact h.rooted.growAll _ hlt
  case linked =>
    exact fun hfits =>
      (h.linked (Nat.le_trans hext.keepsParents.size_le hfits)).growAll _ hlt hfits
  case tidy => exact h.tidy.growAll h.rooted hn hleaf _
  case settled => exact h.settled.growAll _ h.rooted hn hopen
  case bare =>
    obtain ⟨r, hr, -⟩ := h.rooted.root
    obtain ⟨ids, hids⟩ := hext.node hr
    have hroot := h.bare
    rw [atomAt, hr] at hroot
    rw [atomAt, hids]
    exact hroot
  case instances =>
    simp only [childAtoms_eq]
    refine forall_childLabels_growAll (P := fun _ labels => ∃ c ∈ clauses.clauses, ∃ g,
      Replaceable.Replaces g ∧ labels.map (fun label => label.bind Label.atom) =
        (c.map g).atoms.map some) h.rooted hn hleaf ?_ ⟨c, hc, g, hg, ?_⟩
    · simpa only [childAtoms_eq] using h.instances
    · simp
  case justified =>
    intro i m hm hm_leaf hclosed
    have hold := hext.get?_of_closed_leaf hm hm_leaf hclosed
    obtain ⟨j, a, hji, hi, hj⟩ := h.justified i m hold hm_leaf hclosed
    exact ⟨j, a, hji.mono hext, atomAt_mono hext hi, atomAt_mono hext hj⟩

theorem Sound.map {g : L → L} (h : Sound clauses s) (hg : Replaceable.Replaces g) :
    Sound clauses (s.map g) := by
  have hshape : SameShape s.tree (s.map g).tree :=
    sameShape_of_map (get?_map g s) fun _ _ => ⟨rfl, rfl⟩
  constructor
  case kept => exact h.kept
  case rooted => exact h.rooted.of_sameShape hshape
  case linked => exact fun hfits => (h.linked (hshape.size_eq ▸ hfits)).of_sameShape hshape
  case tidy => exact h.tidy.of_sameShape hshape
  case settled => exact h.settled.of_map (get?_map g s) fun _ _ => ⟨rfl, rfl, rfl⟩
  case bare => rw [atomAt_map, h.bare, Option.map_none]
  case instances =>
    intro i n' hn' hinner
    rw [get?_map] at hn'
    obtain ⟨n, hn, rfl⟩ := Option.map_eq_some_iff.mp hn'
    obtain ⟨c, hc, f, hf, hatoms⟩ := h.instances i n hn hinner
    refine ⟨c, hc, g ∘ f, Replaceable.comp hf hg, ?_⟩
    calc childAtoms (s.map g).tree i
        = (childAtoms s.tree i).map (Option.map (Atom.map g)) := by
          rw [childAtoms, childAtoms, hshape.childrenOf_eq, List.map_map]
          exact List.map_congr_left fun i _ => atomAt_map g s i
      _ = (c.map (g ∘ f)).atoms.map some := by
          rw [hatoms]
          simp [Clause.map, Function.comp_def, Atom.map]
  case justified =>
    intro i n' hn' hleaf hclosed
    rw [get?_map] at hn'
    obtain ⟨n, hn, rfl⟩ := Option.map_eq_some_iff.mp hn'
    obtain ⟨j, a, hji, hi, hj⟩ := h.justified i n hn hleaf hclosed
    refine ⟨j, a.map g, hji.of_sameShape hshape, ?_, ?_⟩
    · rw [atomAt_map, hi, Option.map_some]
    · rw [atomAt_map, hj, Option.map_some, Atom.map_complement]

theorem Sound.close {leaf partner : Nat} (h : Sound clauses s)
    (hclose : Closes s s' leaf partner) : Sound clauses s' := by
  have hshape := hclose.sameShape h.rooted
  have hatom := hclose.atomAt_eq h.rooted
  constructor
  case kept =>
    obtain ⟨t, -, rfl⟩ := hclose.eq
    exact h.kept
  case rooted => exact h.rooted.of_sameShape hshape
  case linked => exact fun hfits => (h.linked (hshape.size_eq ▸ hfits)).of_sameShape hshape
  case tidy => exact h.tidy.of_sameShape hshape
  case settled => exact hclose.settled h.rooted h.tidy h.settled
  case bare => rw [hatom, h.bare]
  case instances =>
    intro i n' hn' hn'_inner
    obtain ⟨n, hn, -, hchildren⟩ := hshape.symm.node hn'
    rw [Node.isLeaf, ← hchildren] at hn'_inner
    obtain ⟨c, hc, g, hg, hatoms⟩ := h.instances i n hn hn'_inner
    refine ⟨c, hc, g, hg, ?_⟩
    rw [← hatoms, childAtoms, childAtoms, hshape.childrenOf_eq]
    exact List.map_congr_left fun j _ => hatom j
  case justified =>
    intro i n' hn' hn'_leaf hclosed
    have hclash : ClashesAt s.tree i := by
      by_cases hi : i = leaf
      · obtain ⟨n, m, a, hn, -, -, hm, hna, hma⟩ := hclose.pair
        refine ⟨partner, a, hi ▸ hclose.above, ?_, ?_⟩
        · rw [hi, atomAt, hn, Option.bind_some, hna]
        · rw [atomAt, hm, Option.bind_some, hma]
      · have hold := hclose.get?_of_leaf h.rooted hn' hi hn'_leaf
        exact h.justified i n' hold hn'_leaf hclosed
    obtain ⟨j, a, hji, hi, hj⟩ := hclash
    exact ⟨j, a, hji.of_sameShape hshape, (hatom i).trans hi, (hatom j).trans hj⟩

theorem Sound.advance (h : Sound clauses s) (hadvance : Advances s s') : Sound clauses s' := by
  cases hadvance with
  | expand hc hg hexpand m =>
    rw [h.kept] at hc
    exact (h.expand hc hg hexpand).of_eq (clauses_record _ m) (tree_record _ m)
  | close hg hclose m =>
    exact ((h.map hg).close hclose).of_eq (clauses_record _ m) (tree_record _ m)

/-- A verdict is given. -/
theorem Sound.exists_verdict (h : Sound clauses s) : ∃ v, s.verdict = .ok v := by
  obtain ⟨n, hn, -⟩ := h.rooted.root
  obtain ⟨v, hv, -⟩ := Verdict.exists_ofRoot_eq hn
  exact ⟨v, hv⟩

/-- A closed tableau has no more nodes than there are ids, so its links are proper. -/
theorem Sound.linked_of_closed (h : Sound clauses s) {r : Node (Label L)}
    (hr : s.tree.get? root = some r) (hclosed : r.isClosed = true) : Linked s.tree :=
  h.linked (fits_of_isClosed_root h.rooted h.settled hr hclosed)

/-- In a closed tableau there is no way of making some atom of each instance of a clause true and
never an atom and its complement. -/
theorem Sound.exists_false_clause (h : Sound clauses s) {v : Verdict} (hv : s.verdict = .ok v)
    (hclosed : v.closed = true) {T : Atom L → Prop} (hT : ∀ a, T a → ¬ T a.complement) :
    ∃ c ∈ clauses.clauses, ∃ g, Replaceable.Replaces g ∧ ∀ a ∈ (c.map g).atoms, ¬ T a := by
  obtain ⟨r, hr, hr_closed⟩ := Verdict.exists_closed_root hv hclosed
  have hlinked := h.linked_of_closed hr hr_closed
  by_contra hnone
  push Not at hnone
  -- Follow the true atoms from the root down to a leaf.
  let Q (i : Nat) : Prop := ∀ j a, Above s.tree j i → atomAt s.tree j = some a → T a
  have hroot : Q root := by
    intro j a hj ha
    rw [Nat.le_zero.mp (hj.le h.rooted), ← root, h.bare] at ha
    cases ha
  have hstep : ∀ p m, s.tree.get? p = some m → m.isLeaf = false → Q p →
      ∃ j ∈ childrenOf s.tree p, Q j := by
    intro p m hm hinner hQ
    obtain ⟨c, hc, g, hg, hatoms⟩ := h.instances p m hm hinner
    obtain ⟨a, ha, htrue⟩ := hnone c hc g hg
    have hmem : some a ∈ childAtoms s.tree p := hatoms ▸ List.mem_map_of_mem ha
    obtain ⟨j, hj, hja⟩ := List.mem_map.mp hmem
    refine ⟨j, hj, fun k b hk hb => ?_⟩
    cases hk with
    | here => exact Option.some.inj (hja.symm.trans hb) ▸ htrue
    | up hn hparent hk =>
      obtain ⟨n, hn', hparent'⟩ := mem_childrenOf.mp hj
      cases hn.symm.trans hn'
      cases hparent.symm.trans hparent'
      exact hQ k b hk hb
  obtain ⟨i, n, hn, hleaf, hQ⟩ := exists_leaf_of_descends h.rooted hstep hr hroot
  have hn_closed := isClosed_of_root hlinked h.settled hr hr_closed hn
  obtain ⟨j, a, hji, hi, hj⟩ := h.justified i n hn hleaf hn_closed
  exact hT a (hQ i a .here hi) (hQ j _ hji hj)

section Runs

variable {kind : Connectedness} {regular backtracking manual : Bool} {moves : List Move}

/-- After every run a tableau is sound, and what holds before the first move and is kept by moves in
sound tableaux holds. -/
theorem sound_and_of_run {advance : State L → Move → Outcome (State L)}
    (hadvances : ∀ s s' m, advance s m = .ok s' → Advances s s') {P : State L → Prop}
    (hfresh : ∀ s, P s → P s.fresh)
    (hkeeps : ∀ s s' m, advance s m = .ok s' → Sound clauses s → P s → P s')
    (hrun : moves.foldlM (rules advance).step
      (.initial clauses kind regular backtracking manual) = .ok s)
    (hinitial : P (.initial clauses kind regular backtracking manual)) : Sound clauses s ∧ P s := by
  refine rules_run (P := fun s => Sound clauses s ∧ P s) (fun s hs => ⟨hs.1.fresh, hfresh s hs.2⟩)
    (fun s s' m hstep hs => ?_) hrun ⟨sound_initial .., hinitial⟩
  exact ⟨hs.1.advance (hadvances s s' m hstep), hkeeps s s' m hstep hs.1 hs.2⟩

theorem Propositional.sound_of_run {clauses : ClauseSet String} {s : State String}
    (h : moves.foldlM step (.initial clauses kind regular backtracking manual) = .ok s) :
    Sound clauses s :=
  rules_run (fun _ hs => hs.fresh)
    (fun _ _ _ hstep hs => hs.advance (advances_of_advance hstep)) h (sound_initial ..)

theorem FirstOrder.sound_of_run {clauses : ClauseSet Relation} {s : State Relation}
    (h : moves.foldlM step (.initial clauses kind regular backtracking manual) = .ok s) :
    Sound clauses s :=
  rules_run (fun _ hs => hs.fresh)
    (fun _ _ _ hstep hs => hs.advance (advances_of_advance hstep)) h (sound_initial ..)

end Runs

/-- A closed propositional tableau shows that no valuation makes all clauses true. -/
theorem Sound.eval_eq_false {clauses : ClauseSet String} {s : State String} {v : Verdict}
    (h : Sound clauses s) (hv : s.verdict = .ok v) (hclosed : v.closed = true)
    (val : String → Bool) : clauses.eval val = false := by
  have hT (a : Atom String) (ha : a.eval val = true) : ¬ a.complement.eval val = true :=
    fun hcomplement => (Atom.eval_complement val a).mp hcomplement ha
  obtain ⟨c, hc, g, rfl, hfalse⟩ := h.exists_false_clause hv hclosed hT
  rw [Clause.map_id] at hfalse
  have hclause : c.eval val = false := by
    rw [Clause.eval, List.any_eq_false]
    exact hfalse
  rw [ClauseSet.eval, List.all_eq_false]
  exact ⟨c, hc, by simp [hclause]⟩

/-- A closed first-order tableau shows that the clauses are true in no interpretation. -/
theorem Sound.unsatisfiable {clauses : ClauseSet Relation} {s : State Relation} {v : Verdict}
    (h : Sound clauses s) (hv : s.verdict = .ok v) (hclosed : v.closed = true) :
    ClauseSet.Unsatisfiable.{u} clauses := by
  intro D _ M htrue
  obtain ⟨d⟩ := ‹Nonempty D›
  have hT (a : Atom Relation) (ha : a.Holds M fun _ => d) : ¬ a.complement.Holds M fun _ => d :=
    fun hcomplement => (Atom.holds_complement M _ a).mp hcomplement ha
  obtain ⟨c, hc, g, ⟨σ, rfl⟩, hfalse⟩ := h.exists_false_clause hv hclosed hT
  obtain ⟨a, ha, hholds⟩ := (htrue c hc).bind σ fun _ => d
  exact hfalse a ha hholds

/-- The clauses `{a, b}`, `{¬a}` and `{¬b}`. -/
def excludedPair : ClauseSet String :=
  ⟨[⟨[⟨"a", false⟩, ⟨"b", false⟩]⟩, ⟨[⟨"a", true⟩]⟩, ⟨[⟨"b", true⟩]⟩]⟩

/-- The clauses `{R(X), Q(f(X))}`, `{¬R(c)}` and `{¬Q(Y)}`. -/
def excludedInstance : ClauseSet Relation :=
  ⟨[⟨[⟨⟨"R", [.var "X"]⟩, false⟩, ⟨⟨"Q", [.app "f" [.var "X"]]⟩, false⟩]⟩,
    ⟨[⟨⟨"R", [.const "c"]⟩, true⟩]⟩, ⟨[⟨⟨"Q", [.var "Y"]⟩, true⟩]⟩]⟩

/-- A refutation of either. A leaf is closed with a given substitution and another one without,
and a move is taken back on the way. -/
def refutation : List Move :=
  [.expand 0 0, .expand 2 2, .undo, .expand 1 1, .close 3 1 none, .expand 2 2,
    .close 4 2 (some (.ofList [("Y_3", "f(c)")]))]

theorem refutation_excludedPair :
    (refutation.foldlM Propositional.step (.initial excludedPair .strong true true false) >>=
      State.verdict).toOption.map Verdict.closed = some true := by
  cbv

theorem refutation_excludedInstance :
    (refutation.foldlM FirstOrder.step (.initial excludedInstance .strong true true false) >>=
      State.verdict).toOption.map Verdict.closed = some true := by
  cbv

end Tableau

end Deduction
