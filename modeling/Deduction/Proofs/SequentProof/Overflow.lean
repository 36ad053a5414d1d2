import Deduction.Proofs.Legible
import Deduction.Proofs.SequentProof.Decision

/-!
# Proofs with more nodes than there are ids

The leaf that is added to close a proof is found by the last id. The number of the node
that comes after as many as there are ids is truncated to that of the root, so a proof
with just as many nodes is closed at its root as soon as one leaf has a formula on both
sides, whatever the others say. Disjunctions on the left are enough to get there: each
one doubles the leaves, and by leaving some of them alone every even number of nodes can
be added.
-/

namespace Deduction.SequentProof

open Deduction.Tree

variable {logic : Logic} {s s' s'' : State} {leaf leaf' id n k : Nat} {q r : Sequent}

/-- Whether moves add nodes below a leaf and leave the others alone. -/
structure Grows (logic : Logic) (leaf n : Nat) (s s' : State) : Prop where
  /-- The moves lead from one proof to the other. -/
  run : ∃ moves : List Move, moves.foldlM (step logic) s = .ok s'
  /-- So many nodes are added. -/
  size : s'.tree.size = s.tree.size + n
  /-- The other open leaves stay. -/
  others : ∀ id q, id ≠ leaf → OpenLeaf s id q → OpenLeaf s' id q

theorem OpenLeaf.lt_size (h : OpenLeaf s id q) : id < s.tree.size := by
  obtain ⟨-, n, hn, -⟩ := h
  exact Arena.lt_size_of_get? hn

namespace Grows

theorem refl (logic : Logic) (leaf : Nat) (s : State) : Grows logic leaf 0 s s where
  run := ⟨[], rfl⟩
  size := rfl
  others _ _ _ h := h

/-- What is added below a new leaf is added below the leaf that it was added to. -/
theorem trans (h : Grows logic leaf n s s') (h' : Grows logic leaf' k s' s'')
    (hnew : s.tree.size ≤ leaf') : Grows logic leaf (n + k) s s'' where
  run := by
    obtain ⟨moves, hrun⟩ := h.run
    obtain ⟨more, hmore⟩ := h'.run
    refine ⟨moves ++ more, ?_⟩
    rw [List.foldlM_append, hrun]
    exact hmore
  size := by rw [h'.size, h.size, Nat.add_assoc]
  others id q hne hid := by
    refine h'.others id q ?_ (h.others id q hne hid)
    rintro rfl
    exact Nat.not_le.mpr hid.lt_size hnew

/-- A rule for a connective adds its sequents. -/
theorem connective (rule : Rule) {index : Nat} {f : Formula} {premisses : List Sequent}
    (hleaf : OpenLeaf s leaf r) (hf : (r.onSide rule.side)[index]? = some f)
    (hpremisses : rule.premisses f (r.eraseAt index rule.side) = some premisses) :
    Grows logic leaf premisses.length s
      (s.grow leaf premisses (.connective rule leaf index)) where
  run := by
    refine ⟨[.connective rule leaf index], ?_⟩
    rw [List.foldlM_cons, step_of_ne (by simp)]
    exact Outcome.bind_eq_ok.mpr
      ⟨_, connective_eq_ok.mpr ⟨r, f, premisses, hleaf, hf, hpremisses, rfl⟩, rfl⟩
  size := by rw [tree_grow, size_growAll, labels, List.length_map]
  others id q hne hid := by
    obtain ⟨hlt, n, hn, hopen⟩ := hid
    refine ⟨hlt, n, ?_, hopen⟩
    rw [tree_grow, get?_growAll_of_ne hleaf.lt_size (Ne.symm hne) (Arena.lt_size_of_get? hn)]
    exact hn

end Grows

/-- The new sequents stand at open leaves, as long as there are ids. -/
theorem OpenLeaf.grow (hleaf : OpenLeaf s leaf r) {premisses : List Sequent} {j : Nat} (m : Move)
    (hj : premisses[j]? = some q) (hfits : s.tree.size + j < UInt32.size) :
    OpenLeaf (s.grow leaf premisses m) (s.tree.size + j) q.distinct := by
  have hlabel : (labels premisses m)[j]? = some ⟨q.distinct, some m⟩ := by
    rw [labels, List.getElem?_map, hj]
    rfl
  refine ⟨hfits, ⟨some leaf, ⟨q.distinct, some m⟩, false, []⟩, ?_, rfl, rfl, rfl⟩
  rw [tree_grow]
  exact get?_growAll_new hleaf.lt_size hlabel

/-- Whether a sequent has the formulas of another one but for one on the left. -/
structure Inherits (f : Formula) (r q : Sequent) : Prop where
  /-- The other formulas on the left are there. -/
  left : ∀ g ∈ r.left, g ≠ f → g ∈ q.left
  /-- Those on the right are there. -/
  right : ∀ g ∈ r.right, g ∈ q.right

theorem inherits_eraseAt {f : Formula} {index : Nat} (hindex : r.left[index]? = some f)
    (left right : List Formula) :
    Inherits f r (Sequent.distinct ⟨r.left.eraseIdx index ++ left, r.right ++ right⟩) where
  left g hg hne := by
    rcases List.mem_append.mp ((Sequent.mem_iff_of_getElem? hindex g).mp hg) with hg | hg
    · exact List.mem_eraseDups.mpr (List.mem_append_left _ hg)
    · exact absurd (List.mem_singleton.mp hg) hne
  right g hg := List.mem_eraseDups.mpr (List.mem_append_left _ hg)

/-- A disjunction on the left is decomposed. -/
theorem exists_orLeft (logic : Logic) (hleaf : OpenLeaf s leaf r) {f g : Formula}
    (hmem : .or f g ∈ r.left) (hfits : s.tree.size + 2 ≤ UInt32.size) :
    ∃ s' q₁ q₂, Grows logic leaf 2 s s' ∧ OpenLeaf s' s.tree.size q₁ ∧
      OpenLeaf s' (s.tree.size + 1) q₂ ∧ f ∈ q₁.left ∧ Inherits (.or f g) r q₁ ∧
      Inherits (.or f g) r q₂ := by
  obtain ⟨index, hindex⟩ := List.mem_iff_getElem?.mp hmem
  let q₁ : Sequent := ⟨r.left.eraseIdx index ++ [f], r.right⟩
  let q₂ : Sequent := ⟨r.left.eraseIdx index ++ [g], r.right⟩
  have hgrows : Grows logic leaf 2 s (s.grow leaf [q₁, q₂] (.connective .orLeft leaf index)) :=
    .connective .orLeft hleaf hindex rfl
  refine ⟨_, q₁.distinct, q₂.distinct, hgrows, hleaf.grow (j := 0) _ rfl (by omega),
    hleaf.grow (j := 1) _ rfl (by omega), ?_, ?_, ?_⟩
  · exact List.mem_eraseDups.mpr (by simp [q₁])
  · simpa using inherits_eraseAt hindex [f] []
  · simpa using inherits_eraseAt hindex [g] []

/-- A negation on the left is decomposed. -/
theorem exists_notLeft (logic : Logic) (hleaf : OpenLeaf s leaf r) {f : Formula}
    (hmem : .not f ∈ r.left) (hfits : s.tree.size < UInt32.size) :
    ∃ s' q, Grows logic leaf 1 s s' ∧ OpenLeaf s' s.tree.size q ∧ Inherits (.not f) r q := by
  obtain ⟨index, hindex⟩ := List.mem_iff_getElem?.mp hmem
  let q : Sequent := ⟨r.left.eraseIdx index, r.right ++ [f]⟩
  have hgrows : Grows logic leaf 1 s (s.grow leaf [q] (.connective .notLeft leaf index)) :=
    .connective .notLeft hleaf hindex rfl
  refine ⟨_, q.distinct, hgrows, hleaf.grow (j := 0) _ rfl hfits, ?_⟩
  simpa using inherits_eraseAt hindex [] [f]

/-- With as many nodes as there are ids, a formula on both sides of a leaf closes the root. -/
theorem exists_ax_closed_root (logic : Logic) (hformed : Formed q s.tree)
    (hsize : s.tree.size = UInt32.size) (hleaf : OpenLeaf s leaf r) {f : Formula}
    (hleft : f ∈ r.left) (hright : f ∈ r.right) :
    ∃ s' n, step logic s (.ax leaf) = .ok s' ∧ s'.tree.get? root = some n ∧
      n.isClosed = true := by
  obtain ⟨t, ht⟩ := exists_closeLeaf_nextId hformed.rooted hleaf.lt_size r (.ax leaf)
  have hax := ax_eq_ok.mpr ⟨r, t, hleaf, ⟨f, hleft, hright⟩, ht, rfl⟩
  -- The id of the new node is that of the root.
  have hnext : s.tree.nextId = root := by
    rw [Arena.nextId, hsize]
    rfl
  rw [hnext] at ht
  obtain ⟨ids, rfl, hmarked, -⟩ := closeLeaf_eq_markAll (hformed.rooted.growAll _ hleaf.lt_size) ht
  obtain ⟨n, hn, -⟩ := hformed.origin
  obtain ⟨children, hgrown⟩ := (extends_growAll (labels [r] (.ax leaf)) hleaf.lt_size).node hn
  refine ⟨_, _, (step_of_ne (by simp)).trans hax, get?_markAll_of_some hgrown ids, ?_⟩
  simp [hmarked]

/-- Whether so many disjunctions that start with a formula stand on the left. -/
def Splits (f : Formula) (k : Nat) (r : Sequent) : Prop :=
  ∃ fs : List Formula, fs.Nodup ∧ fs.length = k ∧ ∀ d ∈ fs, d ∈ r.left ∧ ∃ g, d = .or f g

theorem Splits.of_notLeft {f g : Formula} (h : Splits f k r) (hq : Inherits (.not g) r q) :
    Splits f k q := by
  obtain ⟨fs, hnodup, hlength, hfs⟩ := h
  refine ⟨fs, hnodup, hlength, fun d hd => ?_⟩
  obtain ⟨hleft, g, rfl⟩ := hfs d hd
  exact ⟨hq.left _ hleft (by simp), g, rfl⟩

theorem Splits.exists_or {f : Formula} (h : Splits f (k + 1) r) :
    ∃ g, .or f g ∈ r.left ∧ ∀ q, Inherits (.or f g) r q → Splits f k q := by
  obtain ⟨fs, hnodup, hlength, hfs⟩ := h
  obtain ⟨d, fs, rfl⟩ := List.exists_of_length_succ fs hlength
  obtain ⟨⟨hleft, g, rfl⟩, hrest⟩ := List.forall_mem_cons.mp hfs
  obtain ⟨hnew, hnodup⟩ := List.nodup_cons.mp hnodup
  refine ⟨g, hleft, fun q hq => ⟨fs, hnodup, Nat.succ.inj hlength, fun e he => ?_⟩⟩
  obtain ⟨he_left, he_or⟩ := hrest e he
  exact ⟨hq.left e he_left (ne_of_mem_of_not_mem he hnew), he_or⟩

/-- Below a leaf with disjunctions twice as many nodes can be added as any number below two to the
power of the number of disjunctions. -/
theorem Splits.exists_grows (logic : Logic) {f : Formula} {j : Nat} (h : Splits f k r)
    (hleaf : OpenLeaf s leaf r) (hj : j < 2 ^ k) (hfits : s.tree.size + 2 * j ≤ UInt32.size) :
    ∃ s', Grows logic leaf (2 * j) s s' := by
  induction k generalizing r s leaf j with
  | zero =>
    obtain rfl : j = 0 := by omega
    exact ⟨s, .refl logic leaf s⟩
  | succ k ih =>
    cases j with
    | zero => exact ⟨s, .refl logic leaf s⟩
    | succ j =>
      obtain ⟨g, hmem, hsplits⟩ := h.exists_or
      obtain ⟨s₁, q₁, q₂, hgrows, hq₁, hq₂, -, hinherits₁, hinherits₂⟩ :=
        exists_orLeft logic hleaf hmem (by omega)
      -- What is left to add is divided between the two new leaves.
      obtain ⟨j₁, j₂, hj₁, hj₂, rfl⟩ : ∃ j₁ j₂, j₁ < 2 ^ k ∧ j₂ < 2 ^ k ∧ j = j₁ + j₂ := by
        rw [Nat.pow_succ] at hj
        by_cases hlt : j < 2 ^ k
        · exact ⟨j, 0, hlt, by omega, rfl⟩
        · exact ⟨2 ^ k - 1, j - (2 ^ k - 1), by omega, by omega, by omega⟩
      have hsize := hgrows.size
      obtain ⟨s₂, hs₂⟩ := ih (hsplits q₁ hinherits₁) hq₁ hj₁ (by omega)
      have hsize₂ := hs₂.size
      have hq₂ := hs₂.others _ _ (by omega) hq₂
      obtain ⟨s₃, hs₃⟩ := ih (hsplits q₂ hinherits₂) hq₂ hj₂ (by omega)
      have htotal := (hgrows.trans hs₂ (Nat.le_refl _)).trans hs₃ (Nat.le_succ _)
      have hcount : 2 + 2 * j₁ + 2 * j₂ = 2 * (j₁ + j₂ + 1) := by omega
      exact ⟨s₃, hcount ▸ htotal⟩

/-- Whether the formulas for names are atoms of their own. -/
structure Atomic (atom : String → Formula) : Prop where
  /-- Different names have different atoms. -/
  injective : Function.Injective atom
  /-- An atom is no equivalence. -/
  splitIff : ∀ x, (atom x).splitIff = atom x
  /-- An atom is true if its name is. -/
  holds : ∀ val x, (atom x).Holds (Sequent.valuationModel val) (fun _ => ()) ↔ val x = true

/-- The sequent `¬B, P ∨ Q0, …, P ∨ Q31 ⊢ P`. -/
def crowded (atom : String → Formula) : Sequent :=
  ⟨.not (atom "B") ::
    (List.range 32).map fun k => .or (atom "P") (atom ("Q" ++ Decimal.render k)), [atom "P"]⟩

variable {atom : String → Formula}

theorem atomic_var : Atomic .var where
  injective _ _ h := Formula.var.inj h
  splitIff _ := rfl
  holds _ _ := Iff.rfl

theorem atomic_rel : Atomic fun x => .rel ⟨x, []⟩ where
  injective _ _ h := (Relation.mk.inj (Formula.rel.inj h)).1
  splitIff _ := rfl
  holds _ _ := Iff.rfl

theorem Atomic.splitIff_crowded (h : Atomic atom) : (crowded atom).splitIff = crowded atom := by
  simp [crowded, Sequent.splitIff, Formula.splitIff, h.splitIff]

theorem Atomic.splits_crowded (h : Atomic atom) : Splits (atom "P") 32 (crowded atom).distinct := by
  refine ⟨(List.range 32).map fun k => .or (atom "P") (atom ("Q" ++ Decimal.render k)), ?_, by simp,
    fun d hd => ⟨?_, ?_⟩⟩
  · refine List.nodup_range.map fun i j hij => ?_
    exact Decimal.numbered_injective "Q" (h.injective (Formula.or.inj hij).2)
  · exact List.mem_eraseDups.mpr (List.mem_cons_of_mem _ hd)
  · obtain ⟨k, -, rfl⟩ := List.mem_map.mp hd
    exact ⟨_, rfl⟩

/-- The sequent is not valid: `P` and `B` may be false and all else true. -/
theorem Atomic.not_valid_crowded (h : Atomic atom) : ¬ Sequent.Valid.{0} (crowded atom) := by
  intro hvalid
  obtain ⟨f, hf, hholds⟩ := hvalid Unit
    (Sequent.valuationModel fun x => x ≠ "P" && x ≠ "B") (fun _ => ()) fun f hf => by
      rcases List.mem_cons.mp hf with rfl | hf
      · simp [Formula.Holds, h.holds]
      · obtain ⟨k, -, rfl⟩ := List.mem_map.mp hf
        refine Or.inr ((h.holds _ _).mpr ?_)
        have hne (x : String) (hx : x.toList.head? ≠ some 'Q') : "Q" ++ Decimal.render k ≠ x := by
          rintro rfl
          exact hx (by simp)
        simpa using ⟨hne "P" (by decide), hne "B" (by decide)⟩
  cases List.mem_singleton.mp hf
  simp [h.holds] at hholds

/-- Its proof is found to be finished if a leaf is closed when there are as many nodes as ids. -/
theorem Atomic.exists_closed_crowded (h : Atomic atom) (logic : Logic) (b : Bool) :
    ∃ (moves : List Move) (s : State) (n : Node Label),
      moves.foldlM (step logic) (.initial (crowded atom) b) = .ok s ∧
        s.tree.get? root = some n ∧ n.isClosed = true := by
  have hids : UInt32.size = 2 ^ 32 := rfl
  have hone : (State.initial (crowded atom) b).tree.size < UInt32.size := by
    change 1 < UInt32.size
    decide
  have hprepared : (crowded atom).splitIff.distinct = (crowded atom).distinct := by
    rw [h.splitIff_crowded]
  have hroot : OpenLeaf (.initial (crowded atom) b) root (crowded atom).distinct :=
    ⟨by decide, _, rfl, rfl, rfl, hprepared⟩
  have hnot : .not (atom "B") ∈ (crowded atom).distinct.left :=
    List.mem_eraseDups.mpr List.mem_cons_self
  obtain ⟨s₁, q₁, hgrows₁, hq₁, hinherits₁⟩ := exists_notLeft logic hroot hnot hone
  have hsize₁ : s₁.tree.size = 2 := hgrows₁.size
  -- The first disjunction splits off a leaf with `P` on both sides.
  obtain ⟨g, hmem, hsplits⟩ := (h.splits_crowded.of_notLeft hinherits₁).exists_or
  obtain ⟨s₂, q₂, q₃, hgrows₂, hq₂, hq₃, hleft, hinherits₂, hinherits₃⟩ :=
    exists_orLeft logic hq₁ hmem (by omega)
  have hsize₂ : s₂.tree.size = 4 := by rw [hgrows₂.size, hsize₁]
  have hright : atom "P" ∈ q₂.right :=
    hinherits₂.right _ (hinherits₁.right _ (List.mem_eraseDups.mpr List.mem_cons_self))
  -- The other disjunctions use up the ids.
  obtain ⟨s₃, hgrows₃⟩ := (hsplits q₃ hinherits₃).exists_grows logic hq₃ (j := 2 ^ 31 - 2)
    (by omega) (by omega)
  have hsize₃ : s₃.tree.size = UInt32.size := by
    have hadded := hgrows₃.size
    omega
  have hq₂ : OpenLeaf s₃ s₁.tree.size q₂ := hgrows₃.others _ _ (by omega) hq₂
  have htotal := (hgrows₁.trans hgrows₂ (Nat.le_refl _)).trans hgrows₃ (by
    rw [hsize₁]
    exact Nat.le_add_left 1 2)
  obtain ⟨moves, hrun⟩ := htotal.run
  obtain ⟨s₄, n, hax, hn, hclosed⟩ :=
    exists_ax_closed_root logic (formed_of_run hrun) hsize₃ hq₂ hleft hright
  refine ⟨moves ++ [.ax s₁.tree.size], s₄, n, ?_, hn, hclosed⟩
  rw [List.foldlM_append, hrun, Outcome.ok_bind, List.foldlM_cons]
  exact Outcome.bind_eq_ok.mpr ⟨s₄, hax, rfl⟩

/-- A proof of the sequent is found to be finished, though it is not valid. -/
theorem crowded_closed_not_valid :
    (∃ (moves : List Move) (s : State) (v : Verdict),
      moves.foldlM (step .firstOrder) (.initial (crowded fun x => .rel ⟨x, []⟩) false) = .ok s ∧
        s.verdict .firstOrder = .ok v ∧ v.closed = true) ∧
    ¬ Sequent.Valid.{0} (crowded fun x => .rel ⟨x, []⟩) := by
  refine ⟨?_, atomic_rel.not_valid_crowded⟩
  obtain ⟨moves, s, n, hrun, hn, hclosed⟩ := atomic_rel.exists_closed_crowded .firstOrder false
  obtain ⟨v, hv, hverdict⟩ := Verdict.exists_ofRoot_eq hn
  exact ⟨moves, s, v, hrun, hv, hverdict.trans hclosed⟩

/-- What is closed stays closed unless a move is taken back. -/
theorem closed_of_advances (hformed : Formed q s.tree) (hadvance : Advances logic s s')
    {n : Node Label} (hn : s.tree.get? id = some n) (hclosed : n.isClosed = true) :
    ∃ n', s'.tree.get? id = some n' ∧ n'.isClosed = true := by
  cases hadvance with
  | infer hleaf _ m =>
    obtain ⟨children, hgrown⟩ := (extends_growAll (labels _ m) hleaf.lt_size).node hn
    rw [tree_grow]
    exact ⟨_, hgrown, hclosed⟩
  | ax hleaf _ _ m ht =>
    obtain ⟨children, hgrown⟩ := (extends_growAll (labels _ m) hleaf.lt_size).node hn
    obtain ⟨ids, rfl, -⟩ := closeLeaf_eq_markAll (hformed.rooted.growAll _ hleaf.lt_size) ht
    exact ⟨_, get?_markAll_of_some hgrown ids, by simp [hclosed]⟩

/-- Every proof can be gone on with until no move is left, and a root that is closed stays so. -/
theorem exists_stuck (hformed : Formed q s.tree) {n : Node Label}
    (hn : s.tree.get? root = some n) (hclosed : n.isClosed = true) :
    ∃ (moves : List Move) (s' : State) (n' : Node Label),
      moves.foldlM (step .propositional) s = .ok s' ∧ Stuck s' ∧
        s'.tree.get? root = some n' ∧ n'.isClosed = true := by
  induction hweight : weight s.tree using Nat.strongRecOn generalizing s n with
  | ind w ih =>
    by_cases hstuck : Stuck s
    · exact ⟨[], s, n, rfl, hstuck, hn, hclosed⟩
    · obtain ⟨m, s₁, hm, hstep⟩ : ∃ m s₁, m ≠ .undo ∧ step .propositional s m = .ok s₁ := by
        simpa [Stuck] using hstuck
      have hadvance := advances_of_step hm hstep
      have hlt := weight_lt_of_advances hformed hadvance
      obtain ⟨n₁, hn₁, hclosed₁⟩ := closed_of_advances hformed hadvance hn hclosed
      obtain ⟨moves, s', n', hrun, hend⟩ :=
        ih _ (hweight ▸ hlt) (hformed.advance hadvance) hn₁ hclosed₁ rfl
      refine ⟨m :: moves, s', n', ?_, hend⟩
      rw [List.foldlM_cons, hstep]
      exact hrun

theorem propositional_crowded : (crowded .var).Propositional := by
  intro f hf
  rcases List.mem_append.mp hf with hf | hf
  · rcases List.mem_cons.mp hf with rfl | hf
    · simp [Formula.Composed, Formula.quantifierFree, Formula.atoms, Formula.IsVariable]
    · obtain ⟨k, -, rfl⟩ := List.mem_map.mp hf
      simp [Formula.Composed, Formula.quantifierFree, Formula.atoms, Formula.IsVariable]
  · cases List.mem_singleton.mp hf
    simp [Formula.Composed, Formula.quantifierFree, Formula.atoms, Formula.IsVariable]

/-- In a proof of the sequent no move is left and it is found to be finished, though the sequent is
not true under all valuations. -/
theorem crowded_closed_not_true :
    (∃ (moves : List Move) (s : State) (v : Verdict),
      moves.foldlM (step .propositional) (.initial (crowded .var) false) = .ok s ∧
        (∀ m s', m ≠ .undo → step .propositional s m ≠ .ok s') ∧
        s.verdict .propositional = .ok v ∧ v.closed = true) ∧
    (crowded .var).Propositional ∧ ¬ ∀ val, (crowded .var).TrueUnder val := by
  refine ⟨?_, propositional_crowded, ?_⟩
  · obtain ⟨moves, s, n, hrun, hn, hclosed⟩ := atomic_var.exists_closed_crowded .propositional false
    obtain ⟨more, s', n', hmore, hstuck, hn', hclosed'⟩ :=
      exists_stuck (formed_of_run hrun) hn hclosed
    obtain ⟨v, hv, hverdict⟩ := Verdict.exists_ofRoot_eq hn'
    refine ⟨moves ++ more, s', v, ?_, hstuck, hv, hverdict.trans hclosed'⟩
    rw [List.foldlM_append, hrun]
    exact hmore
  · rw [← propositional_crowded.valid_iff]
    exact atomic_var.not_valid_crowded

end Deduction.SequentProof
