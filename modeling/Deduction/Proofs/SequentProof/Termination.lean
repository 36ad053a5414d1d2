import Deduction.Proofs.SequentProof.Moves
import Mathlib.Algebra.GroupWithZero.Nat
import Mathlib.Algebra.Order.BigOperators.Group.Finset

/-!
# Propositional proofs end

A rule for a connective takes one connective away and makes at most two sequents of one.
Counting three to the number of connectives for every open leaf that has an id of its
own, each move makes the total smaller, so a proof with no moves taken back has at most as
many moves as the total is before the first of them. A move adds at most two nodes, so
there are ids for all nodes unless the sequent has many connectives.
-/

namespace Deduction

/-- The number of connectives and quantifiers of a formula. -/
def Formula.connectives : Formula → Nat
  | var _ => 0
  | rel _ => 0
  | not f => f.connectives + 1
  | and f g => f.connectives + g.connectives + 1
  | or f g => f.connectives + g.connectives + 1
  | imp f g => f.connectives + g.connectives + 1
  | iff f g => f.connectives + g.connectives + 1
  | all _ f => f.connectives + 1
  | ex _ f => f.connectives + 1

namespace Sequent

/-- The number of connectives and quantifiers of the formulas of a sequent. -/
def connectives (q : Sequent) : Nat :=
  (q.left.map Formula.connectives).sum + (q.right.map Formula.connectives).sum

private theorem connectives_distinct_le (q : Sequent) : q.distinct.connectives ≤ q.connectives := by
  have hside (fs : List Formula) :
      (fs.eraseDups.map Formula.connectives).sum ≤ (fs.map Formula.connectives).sum := by
    have hsubset : fs.eraseDups ⊆ fs := fun f => List.mem_eraseDups.mp
    obtain ⟨gs, hperm, hsublist⟩ := (nodup_eraseDups fs).subperm hsubset
    rw [← (hperm.map Formula.connectives).sum_eq]
    exact (hsublist.map _).sum_le_sum fun _ _ => Nat.zero_le _
  exact Nat.add_le_add (hside q.left) (hside q.right)

/-- Leaving a formula out takes its connectives away. -/
theorem connectives_eraseAt {q : Sequent} {side : Side} {index : Nat} {f : Formula}
    (h : (q.onSide side)[index]? = some f) :
    (q.eraseAt index side).connectives + f.connectives = q.connectives := by
  have hside (fs : List Formula) (h : fs[index]? = some f) :
      ((fs.eraseIdx index).map Formula.connectives).sum + f.connectives =
        (fs.map Formula.connectives).sum := by
    obtain ⟨hlt, rfl⟩ := List.getElem?_eq_some_iff.mp h
    have hperm := (List.getElem_cons_eraseIdx_perm hlt).map Formula.connectives
    rw [← hperm.sum_eq, List.map_cons, List.sum_cons, Nat.add_comm]
  cases side with
  | left =>
    have hleft := hside q.left h
    simp only [connectives, eraseAt]
    omega
  | right =>
    have hright := hside q.right h
    simp only [connectives, eraseAt]
    omega

end Sequent

namespace SequentProof

open Deduction.Tree

variable {q : Sequent} {s s' : State} {t t' : Tree Label} {i p : Nat}

/-- A rule for a connective makes one or two sequents, each with fewer connectives. -/
theorem Rule.connectives_premisses {rule : Rule} {f : Formula} {premisses : List Sequent}
    (h : rule.premisses f q = some premisses) :
    premisses.length ≤ 2 ∧ ∀ r ∈ premisses, r.connectives < q.connectives + f.connectives := by
  rw [Rule.premisses.eq_def] at h
  split at h <;> cases h <;>
    simp [Sequent.connectives, Formula.connectives] <;> omega

/-- What a rule makes in propositional logic. -/
theorem Infers.connectives_lt {premisses : List Sequent}
    (h : Infers .propositional q premisses) :
    premisses.length ≤ 2 ∧ ∀ r ∈ premisses, r.connectives < q.connectives := by
  cases h with
  | connective hf hpremisses =>
    rw [← Sequent.connectives_eraseAt hf]
    exact Rule.connectives_premisses hpremisses
  | keeping hlogic | dropping hlogic => cases hlogic

/-- What a node counts: three to the number of connectives if it is an open leaf. -/
def openWeight (n : Node Label) : Nat :=
  if n.isLeaf = true ∧ n.isClosed = false then 3 ^ n.label.sequent.connectives else 0

/-- What the node with a number counts, if the number is its id. -/
def weightAt (t : Tree Label) (i : Nat) : Nat :=
  if i < UInt32.size then ((t.get? i).map openWeight).getD 0 else 0

/-- What all nodes of a tree count. -/
def weight (t : Tree Label) : Nat := ∑ i ∈ Finset.range t.size, weightAt t i

theorem weightAt_of_get? {n : Node Label} (hi : i < UInt32.size) (hn : t.get? i = some n) :
    weightAt t i = openWeight n := by
  rw [weightAt, if_pos hi, hn, Option.map_some, Option.getD_some]

theorem weightAt_le {n : Node Label} (hn : t.get? i = some n) : weightAt t i ≤ openWeight n := by
  by_cases hi : i < UInt32.size
  · exact (weightAt_of_get? hi hn).le
  · simp [weightAt, hi]

theorem openWeight_of_open {n : Node Label} (hleaf : n.isLeaf = true)
    (hopen : n.isClosed = false) : openWeight n = 3 ^ n.label.sequent.connectives :=
  if_pos ⟨hleaf, hopen⟩

theorem openWeight_of_inner {n : Node Label} (h : n.isLeaf = false) : openWeight n = 0 := by
  simp [openWeight, h]

theorem openWeight_of_closed {n : Node Label} (h : n.isClosed = true) : openWeight n = 0 := by
  simp [openWeight, h]

/-- A tree counts less if one node counts nothing any more, the others at most what they did, and
the new nodes together less than the one did. -/
theorem weight_lt {k : Nat} (hp : p < t.size) (hsize : t'.size = t.size + k)
    (hold : ∀ i < t.size, i ≠ p → weightAt t' i ≤ weightAt t i) (hparent : weightAt t' p = 0)
    (hnew : ∑ j ∈ Finset.range k, weightAt t' (t.size + j) < weightAt t p) :
    weight t' < weight t := by
  have hmem : p ∈ Finset.range t.size := Finset.mem_range.mpr hp
  have hothers : ∑ i ∈ (Finset.range t.size).erase p, weightAt t' i ≤
      ∑ i ∈ (Finset.range t.size).erase p, weightAt t i := by
    refine Finset.sum_le_sum fun i hi => ?_
    obtain ⟨hne, hi⟩ := Finset.mem_erase.mp hi
    exact hold i (Finset.mem_range.mp hi) hne
  calc weight t'
      = ∑ i ∈ Finset.range t.size, weightAt t' i +
          ∑ j ∈ Finset.range k, weightAt t' (t.size + j) := by
        rw [weight, hsize, Finset.sum_range_add]
    _ = ∑ i ∈ (Finset.range t.size).erase p, weightAt t' i +
          ∑ j ∈ Finset.range k, weightAt t' (t.size + j) := by
        rw [← Finset.sum_erase_add _ _ hmem, hparent, Nat.add_zero]
    _ < ∑ i ∈ (Finset.range t.size).erase p, weightAt t i + weightAt t p :=
        Nat.add_lt_add_of_le_of_lt hothers hnew
    _ = weight t := Finset.sum_erase_add _ _ hmem

theorem weightAt_markAll_le (t : Tree Label) (ids : List Nat) (i : Nat) :
    weightAt (markAll t ids) i ≤ weightAt t i := by
  cases hn : t.get? i with
  | none => simp [weightAt, get?_markAll, hn]
  | some n =>
    rw [weightAt, weightAt, get?_markAll_of_some hn ids, hn]
    by_cases hmarked : i ∈ ids <;> simp [openWeight, hmarked]

theorem weightAt_markAll_of_mem {ids : List Nat} (h : i ∈ ids) :
    weightAt (markAll t ids) i = 0 := by
  cases hn : t.get? i with
  | none => simp [weightAt, get?_markAll, hn]
  | some n =>
    have hclosed : openWeight { n with isClosed := n.isClosed || ids.contains i } = 0 :=
      openWeight_of_closed (by simp [h])
    exact Nat.le_zero.mp (hclosed ▸ weightAt_le (get?_markAll_of_some hn ids))

section Growing

variable {n : Node Label} {labels : List Label}

theorem weightAt_growAll_of_ne (labels : List Label) (hp : p < t.size) (hi : i < t.size)
    (hne : i ≠ p) :
    weightAt (growAll t p labels) i = weightAt t i := by
  rw [weightAt, weightAt, get?_growAll_of_ne hp (Ne.symm hne) hi]

theorem weightAt_growAll_parent (hn : t.get? p = some n) (hne : labels ≠ []) :
    weightAt (growAll t p labels) p = 0 := by
  obtain ⟨label, more, rfl⟩ := List.exists_cons_of_ne_nil hne
  refine Nat.le_zero.mp (Nat.le_trans (weightAt_le (get?_growAll_parent hn)) ?_)
  rw [openWeight_of_inner (by simp [Node.isLeaf])]

private theorem weightAt_growAll_new_le (hp : p < t.size) {j : Nat} {label : Label}
    (hj : labels[j]? = some label) :
    weightAt (growAll t p labels) (t.size + j) ≤ 3 ^ label.sequent.connectives :=
  weightAt_le (get?_growAll_new hp hj)

/-- What the new nodes count together. -/
theorem sum_weightAt_growAll_le (hp : p < t.size) {c : Nat}
    (h : ∀ label ∈ labels, label.sequent.connectives ≤ c) :
    ∑ j ∈ Finset.range labels.length, weightAt (growAll t p labels) (t.size + j) ≤
      labels.length * 3 ^ c := by
  calc ∑ j ∈ Finset.range labels.length, weightAt (growAll t p labels) (t.size + j)
      ≤ ∑ _ ∈ Finset.range labels.length, 3 ^ c := by
        refine Finset.sum_le_sum fun j hj => ?_
        have hlabel := List.getElem?_eq_getElem (Finset.mem_range.mp hj)
        exact Nat.le_trans (weightAt_growAll_new_le hp hlabel)
          (Nat.pow_le_pow_right (by omega) (h _ (List.mem_of_getElem? hlabel)))
    _ = labels.length * 3 ^ c := by
        rw [Finset.sum_const_nat fun _ _ => rfl, Finset.card_range]

end Growing

/-- Every move that takes none back makes the tree count less. -/
theorem weight_lt_of_advances (h : Formed q s.tree) (hadvance : Advances .propositional s s') :
    weight s'.tree < weight s.tree := by
  cases hadvance with
  | @infer leaf r premisses hleaf hinfers m =>
    obtain ⟨hid, n, hn, hn_leaf, hopen, rfl⟩ := hleaf
    have hp := Arena.lt_size_of_get? hn
    obtain ⟨hlength, hless⟩ := hinfers.connectives_lt
    obtain ⟨c, hc⟩ : ∃ c, n.label.sequent.connectives = c + 1 := by
      obtain ⟨r, hr⟩ := List.exists_mem_of_ne_nil premisses hinfers.ne_nil
      exact ⟨_, (Nat.sub_add_cancel (Nat.one_le_of_lt (hless r hr))).symm⟩
    have hlabels : ∀ label ∈ labels premisses m, label.sequent.connectives ≤ c := by
      intro label hlabel
      obtain ⟨r, hr, rfl⟩ := List.mem_map.mp hlabel
      have hlt := hless r hr
      exact r.connectives_distinct_le.trans (by omega)
    rw [tree_grow]
    refine weight_lt hp (size_growAll _ _ _)
      (fun i hi hne => (weightAt_growAll_of_ne _ hp hi hne).le) (weightAt_growAll_parent hn ?_) ?_
    · simpa [labels] using hinfers.ne_nil
    · -- There are at most two new nodes, and each counts at most a third.
      have hsum := sum_weightAt_growAll_le hp hlabels
      have htwo : (labels premisses m).length * 3 ^ c ≤ 2 * 3 ^ c := by
        rw [labels, List.length_map]
        exact Nat.mul_le_mul_right _ hlength
      have hpos : 0 < 3 ^ c := Nat.pow_pos (by omega)
      rw [weightAt_of_get? hid hn, openWeight_of_open hn_leaf hopen, hc, Nat.pow_succ]
      omega
  | @ax leaf r f t hleaf _ _ m ht =>
    obtain ⟨hid, n, hn, hn_leaf, hopen, rfl⟩ := hleaf
    have hp := Arena.lt_size_of_get? hn
    obtain ⟨ids, rfl, hmem, -⟩ := closeLeaf_eq_markAll (h.growAll hn hopen _).rooted ht
    refine weight_lt (k := 1) hp ?_ (fun i hi hne => ?_) ?_ ?_
    · rw [size_markAll, size_growAll]
      rfl
    · rw [← weightAt_growAll_of_ne (labels [n.label.sequent] m) hp hi hne]
      exact weightAt_markAll_le _ ids i
    · have hinner : weightAt (growAll s.tree leaf (labels [n.label.sequent] m)) leaf = 0 :=
        weightAt_growAll_parent hn (List.cons_ne_nil _ _)
      exact Nat.le_zero.mp (hinner ▸ weightAt_markAll_le _ ids leaf)
    · -- The new node is closed, or its number is not its id.
      have hnew : weightAt (markAll (growAll s.tree leaf (labels [n.label.sequent] m)) ids)
          s.tree.size = 0 := by
        by_cases hlt : s.tree.size < UInt32.size
        · rw [Arena.nextId_of_lt hlt] at hmem
          exact weightAt_markAll_of_mem hmem
        · simp [weightAt, hlt]
      rw [Finset.sum_range_one, Nat.add_zero, hnew, weightAt_of_get? hid hn,
        openWeight_of_open hn_leaf hopen]
      exact Nat.pow_pos (by omega)

/-- Every move that takes none back adds one or two nodes. -/
theorem size_le_of_advances (h : Formed q s.tree) (hadvance : Advances .propositional s s') :
    s'.tree.size ≤ s.tree.size + 2 := by
  cases hadvance with
  | infer hleaf hinfers m =>
    rw [tree_grow, size_growAll, labels, List.length_map]
    exact Nat.add_le_add_left hinfers.connectives_lt.1 _
  | ax hleaf _ _ m ht =>
    obtain ⟨-, n, hn, -, hopen, -⟩ := hleaf
    obtain ⟨ids, rfl, -⟩ := closeLeaf_eq_markAll (h.growAll hn hopen _).rooted ht
    rw [size_markAll, size_growAll]
    exact Nat.add_le_add_left (Nat.le_succ 1) _

/-- Each of a run of moves that take none back makes the tree count less. -/
theorem length_add_weight_le {moves : List Move} (hmoves : ∀ m ∈ moves, m ≠ .undo)
    (hformed : Formed q s.tree) (h : moves.foldlM (step .propositional) s = .ok s') :
    moves.length + weight s'.tree ≤ weight s.tree := by
  induction moves generalizing s with
  | nil =>
    cases h
    simp
  | cons m moves ih =>
    obtain ⟨hm, hmoves⟩ := List.forall_mem_cons.mp hmoves
    rw [List.foldlM_cons, Outcome.bind_eq_ok] at h
    obtain ⟨s₁, hs₁, hrest⟩ := h
    have hadvance := advances_of_step hm hs₁
    have hlt := weight_lt_of_advances hformed hadvance
    have hle := ih hmoves (hformed.advance hadvance) hrest
    rw [List.length_cons]
    omega

private theorem weight_initial (q : Sequent) (b : Bool) :
    weight (State.initial q b).tree = 3 ^ q.splitIff.distinct.connectives := by
  have hroot : (State.initial q b).tree.get? 0 =
      some ⟨none, ⟨q.splitIff.distinct, none⟩, false, []⟩ := rfl
  exact (Finset.sum_range_one _).trans
    ((weightAt_of_get? (by decide) hroot).trans (openWeight_of_open rfl rfl))

/-- What a proof counts, and how many nodes it has, is bounded by what its sequent counts at the
start. -/
theorem bounds_of_run {b : Bool} {moves : List Move}
    (h : moves.foldlM (step .propositional) (.initial q b) = .ok s) :
    Formed q s.tree ∧
      s.tree.size + 2 * weight s.tree ≤ 1 + 2 * 3 ^ q.splitIff.distinct.connectives := by
  refine run_induction (P := fun s =>
    s.tree.size + 2 * weight s.tree ≤ 1 + 2 * 3 ^ q.splitIff.distinct.connectives) ?_
    (fun s s' hformed hadvance hle => ?_) h
  · rw [weight_initial]
    exact Nat.le_refl _
  · have hlt := weight_lt_of_advances hformed hadvance
    have hsize := size_le_of_advances hformed hadvance
    omega

/-- After any run, no more moves can follow each other than the sequent at the start counts, unless
some are taken back. -/
theorem length_le_of_run {b : Bool} {moves more : List Move}
    (h : moves.foldlM (step .propositional) (.initial q b) = .ok s)
    (hmore : ∀ m ∈ more, m ≠ .undo) (h' : more.foldlM (step .propositional) s = .ok s') :
    more.length ≤ 3 ^ q.splitIff.distinct.connectives := by
  obtain ⟨hformed, hle⟩ := bounds_of_run h
  have hlength := length_add_weight_le hmore hformed h'
  have hpos : 0 < s.tree.size := by
    obtain ⟨n, hn, -⟩ := hformed.origin
    exact Arena.lt_size_of_get? hn
  omega

end SequentProof

end Deduction
