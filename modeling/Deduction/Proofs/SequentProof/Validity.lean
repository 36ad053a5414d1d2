import Deduction.Proofs.SequentProof.Meaning
import Deduction.Proofs.SequentProof.Moves
import Mathlib

/-!
# The sequent calculus keeps validity in both directions

A sequent to which a rule applies is valid exactly if all sequents are that the rule
makes of it. So at every point of a proof the sequent to prove is valid exactly if those
at all leaves are. If all leaves are closed, it is valid; that the root is closed tells
this as long as there are ids for all nodes.
-/

namespace Deduction

universe u

namespace Sequent

variable {q : Sequent}

/-- Preparing a sequent for a proof keeps whether it is valid. -/
theorem valid_prepared : Valid.{u} q.splitIff.distinct ↔ Valid.{u} q := by
  refine valid_congr fun D _ => exists₂_congr fun M v => ?_
  rw [fails_distinct, fails_splitIff]

theorem valid_distinct : Valid.{u} q.distinct ↔ Valid.{u} q :=
  valid_congr fun _ _ => exists₂_congr fun _ _ => fails_distinct

/-- A sequent with a formula on both sides is valid. -/
theorem valid_of_shared {f : Formula} (hleft : f ∈ q.left) (hright : f ∈ q.right) :
    Valid.{u} q := fun _ _ _ _ hall => ⟨f, hright, hall f hleft⟩

end Sequent

namespace SequentProof

open Deduction.Tree Sequent

variable {logic : Logic} {q : Sequent} {s s' : State}

/-- A sequent is valid exactly if all are that a rule makes of it. -/
theorem Infers.valid_iff {premisses : List Sequent} (h : Infers logic q premisses) :
    Valid.{u} q ↔ ∀ p ∈ premisses, Valid.{u} p := by
  cases h with
  | connective hf hpremisses =>
    have hfails {D : Type u} {M : Interpretation D} {v : String → D} :
        q.Fails M v ↔ ∃ p ∈ premisses, p.Fails M v :=
      (fails_eraseAt hf).trans (Rule.exists_fails_iff hpremisses).symm
    simp only [Sequent.valid_iff, hfails]
    constructor
    · rintro h p hp D _ ⟨M, v, hv⟩
      exact h D ⟨M, v, p, hp, hv⟩
    · rintro h D _ ⟨M, v, p, hp, hv⟩
      exact h p hp D ⟨M, v, hv⟩
  | keeping _ hf hbody hrule =>
    rw [List.forall_mem_singleton]
    exact (valid_congr fun _ _ => exists₂_congr fun _ _ =>
      QuantifierRule.fails_add_iff hf hbody hrule _).symm
  | dropping _ hf hbody hrule hnew =>
    rw [List.forall_mem_singleton]
    exact (valid_congr fun _ _ =>
      QuantifierRule.exists_fails_add_iff hf hbody hrule hnew).symm

/-- Whether the sequents at all leaves of a tree are valid. -/
def LeavesValid (t : Tree Label) : Prop :=
  ∀ i n, t.get? i = some n → n.isLeaf = true → Valid.{u} n.label.sequent

theorem leavesValid_single :
    LeavesValid.{u} (single ⟨q.splitIff.distinct, none⟩) ↔ Valid.{u} q := by
  rw [← valid_prepared]
  constructor
  · exact fun h => h root _ rfl rfl
  · intro h i n hn _
    rw [(eq_of_get?_single hn).2]
    exact h

/-- Whether the leaves are valid does not change when sequents are added below one of them that
are valid exactly if it is. -/
theorem leavesValid_growAll {leaf : Nat} {q : Sequent} (hleaf : OpenLeaf s leaf q)
    {premisses : List Sequent} (hne : premisses ≠ [])
    (hvalid : Valid.{u} q ↔ ∀ p ∈ premisses, Valid.{u} p) (m : Move) :
    LeavesValid.{u} (growAll s.tree leaf (labels premisses m)) ↔ LeavesValid.{u} s.tree := by
  obtain ⟨-, n, hn, hn_leaf, -, rfl⟩ := hleaf
  refine forall_leaves_growAll (P := fun label => Valid.{u} label.sequent) hn hn_leaf ?_ ?_
  · simpa [labels] using hne
  · simp only [labels, List.forall_mem_map, valid_distinct]
    exact hvalid

theorem leavesValid_of_advances (h : Formed q s.tree) (hadvance : Advances logic s s') :
    LeavesValid.{u} s'.tree ↔ LeavesValid.{u} s.tree := by
  cases hadvance with
  | infer hleaf hinfers m =>
    rw [tree_grow]
    exact leavesValid_growAll hleaf hinfers.ne_nil hinfers.valid_iff m
  | @ax leaf r f t hleaf _ _ m ht =>
    have hgrown := leavesValid_growAll.{u} hleaf (List.cons_ne_nil r [])
      List.forall_mem_singleton.symm m
    obtain ⟨-, n, hn, -, hopen, -⟩ := hleaf
    obtain ⟨ids, rfl, -⟩ := closeLeaf_eq_markAll (h.growAll hn hopen _).rooted ht
    have hmarked := forall_leaves_markAll (P := fun label : Label => Valid.{u} label.sequent)
      (growAll s.tree leaf (labels [r] m)) ids
    exact hmarked.trans hgrown

/-- After every run the sequent to prove is valid exactly if those at the leaves are. -/
theorem valid_iff_leavesValid {b : Bool} {moves : List Move}
    (h : moves.foldlM (step logic) (.initial q b) = .ok s) :
    Valid.{u} q ↔ LeavesValid.{u} s.tree :=
  (run_induction (P := fun s => Valid.{u} q ↔ LeavesValid.{u} s.tree) leavesValid_single.symm
    (fun _ _ hformed hadvance hiff => hiff.trans (leavesValid_of_advances hformed hadvance).symm)
    h).2

/-- Whether a proof is finished is whether its root is closed. -/
theorem Formed.exists_verdict (h : Formed q s.tree) (logic : Logic) :
    ∃ v n, s.verdict logic = .ok v ∧ s.tree.get? root = some n ∧ v.closed = n.isClosed := by
  obtain ⟨n, hn, -⟩ := h.origin
  obtain ⟨v, hv, hclosed⟩ := Verdict.exists_ofRoot_eq hn
  exact ⟨v, n, hv, hn, hclosed⟩

theorem Formed.leavesValid_of_closed (h : Formed q s.tree) (hfits : s.tree.size ≤ UInt32.size)
    {n : Node Label} (hn : s.tree.get? root = some n) (hclosed : n.isClosed = true) :
    LeavesValid.{u} s.tree := by
  intro i m hm hleaf
  have hm_closed := isClosed_of_root (h.linked hfits) (h.settled hfits) hn hclosed hm
  obtain ⟨f, hleft, hright⟩ := h.shared hfits i m hm hleaf hm_closed
  exact valid_of_shared hleft hright

/-- The sequent calculus keeps validity in both directions: after every run from a sequent, it is
valid exactly if the sequents at all leaves are, and if the proof is found to be finished while
there are ids for all nodes, it is valid. -/
theorem valid_iff_valid_leaves (params : Params) (moves : List Move) :
    (∀ text s₀, start .firstOrder params text = .ok s₀ →
      ∃ q, Sequent.parse .firstOrder text = .ok q ∧ s₀ = .initial q params.onlyApplicable) ∧
    ∀ (q : Sequent) (s : State),
      moves.foldlM (step .firstOrder) (.initial q params.onlyApplicable) = .ok s →
      (Valid.{u} q ↔ ∀ i n, s.tree.get? i = some n → n.isLeaf = true →
        Valid.{u} n.label.sequent) ∧
      ∃ v, s.verdict .firstOrder = .ok v ∧
        (s.tree.size ≤ UInt32.size → v.closed = true → Valid.{u} q) := by
  constructor
  · intro text s₀ h
    simp only [start, Outcome.bind_eq_ok, Outcome.ofText_eq_ok, Outcome.pure_eq_ok] at h
    obtain ⟨q, hq, rfl⟩ := h
    exact ⟨q, hq, rfl⟩
  · intro q s hrun
    have hiff := valid_iff_leavesValid.{u} hrun
    have hformed := formed_of_run hrun
    obtain ⟨v, n, hv, hn, hclosed⟩ := hformed.exists_verdict .firstOrder
    refine ⟨hiff, v, hv, fun hfits hv_closed => hiff.mpr ?_⟩
    exact hformed.leavesValid_of_closed hfits hn (hclosed.symm.trans hv_closed)

/-- The sequent `P ↔ ∃X ∀Y R(X, Y), P ⊢ ∀Y ∃X R(X, Y)`. -/
def exchange : Sequent :=
  let r : Formula := .rel ⟨"R", [.var "X", .var "Y"]⟩
  let p : Formula := .rel ⟨"P", []⟩
  ⟨[.iff p (.ex "X" (.all "Y" r)), p], [.all "Y" (.ex "X" r)]⟩

/-- Its proof. A move is taken back on the way. -/
def exchangeProof : List Move :=
  let x : KeyMap String String := .ofList [("X", "c")]
  let y : KeyMap String String := .ofList [("Y", "d")]
  [.connective .andLeft 0 0, .connective .impLeft 1 1, .ax 2, .quantifier .exLeft 3 2 x, .undo,
    .quantifier .exLeft 3 2 x, .quantifier .allRight 5 0 y, .quantifier .allLeft 6 2 y,
    .quantifier .exRight 7 0 x, .ax 8]

private theorem exchangeProof_closed :
    (exchangeProof.foldlM (step .firstOrder) (.initial exchange false) >>= fun s => do
      return (s.tree.size, (← s.verdict .firstOrder).closed)) = .ok (10, true) := by
  cbv

theorem exchange_valid :
    (∃ s v, exchangeProof.foldlM (step .firstOrder) (.initial exchange false) = .ok s ∧
      s.tree.size ≤ UInt32.size ∧ s.verdict .firstOrder = .ok v ∧ v.closed = true) ∧
    Valid.{u} exchange := by
  obtain ⟨s, hs, hshown⟩ := Outcome.bind_eq_ok.mp exchangeProof_closed
  obtain ⟨v, hv, hpair⟩ := Outcome.bind_eq_ok.mp hshown
  obtain ⟨hsize, hclosed⟩ := Prod.mk.inj (Outcome.pure_eq_ok.mp hpair)
  have hfits : s.tree.size ≤ UInt32.size := by
    rw [hsize]
    decide
  obtain ⟨-, v', hv', hvalid⟩ :=
    (valid_iff_valid_leaves.{u} ⟨false⟩ exchangeProof).2 exchange s hs
  cases hv.symm.trans hv'
  exact ⟨⟨s, v, hs, hfits, hv, hclosed⟩, hvalid hfits hclosed⟩

end SequentProof

end Deduction
