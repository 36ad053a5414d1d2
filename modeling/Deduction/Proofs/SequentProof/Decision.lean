import Deduction.Proofs.Grammar.Readable
import Deduction.Proofs.SequentProof.Termination
import Deduction.Proofs.SequentProof.Validity
import Deduction.Proofs.Valuation

/-!
# The propositional sequent calculus decides

In whatever order moves are made, no more can be made at some point, since proofs end.
Then an open leaf has variables only, and none of them on both sides: it fails under the
valuation that makes the variables on its left true. So the proof is finished at that
point exactly if the sequent is true under every valuation, as long as there are ids for
all nodes.
-/

namespace Deduction

open Formula

namespace Sequent

/-- Whether all formulas of a sequent are propositional. -/
def Propositional (q : Sequent) : Prop := ∀ f ∈ q.formulas, f.Composed IsVariable

/-- Whether some formula on the right is true under a valuation if all on the left are. -/
def TrueUnder (val : String → Bool) (q : Sequent) : Prop :=
  (∀ f ∈ q.left, f.eval val = true) → ∃ f ∈ q.right, f.eval val = true

variable {q : Sequent}

theorem Propositional.holds_iff {D : Type} {M : Interpretation D} {val : String → Bool}
    (h : q.Propositional) (hval : ∀ x, M.rel x [] ↔ val x = true) (v : String → D) :
    q.Holds M v ↔ q.TrueUnder val := by
  obtain ⟨hleft, hright⟩ := List.forall_mem_append.mp h
  have hatom (a : Formula) (ha : IsVariable a) : a.Holds M v ↔ a.eval val = true := by
    obtain ⟨x, rfl⟩ := ha
    exact hval x
  refine imp_congr (forall₂_congr fun f hf => ?_) (exists_congr fun f => and_congr_right ?_)
  · exact holds_iff_eval M hatom (hleft f hf)
  · exact fun hf => holds_iff_eval M hatom (hright f hf)

/-- The interpretation in which the variables have the values of a valuation. -/
def valuationModel (val : String → Bool) : Interpretation Unit where
  const _ := ()
  func _ _ := ()
  rel x _ := val x = true

/-- A propositional sequent is valid exactly if it is true under all valuations. -/
theorem Propositional.valid_iff (h : q.Propositional) :
    Valid.{0} q ↔ ∀ val, q.TrueUnder val := by
  constructor
  · intro hvalid val
    have hmodel (x : String) : (valuationModel val).rel x [] ↔ val x = true := Iff.rfl
    exact (h.holds_iff hmodel fun _ => ()).mp (hvalid Unit _ _)
  · intro htrue D _ M v
    classical
    have hval (x : String) : M.rel x [] ↔ decide (M.rel x []) = true := decide_eq_true_iff.symm
    exact (h.holds_iff hval v).mpr (htrue _)

end Sequent

namespace Grammar

/-- What is read in propositional logic is a propositional formula. -/
theorem composed_of_equivalence {cs : List Char} {f : Formula} {r : Scan.Rest cs}
    (h : equivalence .propositional cs = .ok (f, r)) : f.Composed IsVariable := by
  obtain ⟨u, -, hu⟩ := written_of_equivalence h
  refine hu.shapeInduction ?_ (fun _ hf => composed_not.mpr hf)
    (fun _ _ _ hf hg => composed_apply.mpr ⟨hf, hg⟩) ?_
  · intro f u hf
    cases hf with
    | @var name _ _ _ => exact composed_var.mpr ⟨name, rfl⟩
  · intro hlogic
    cases hlogic

theorem composed_of_scanFormulas {cs : List Char} {fs : List Formula} {r : Scan.Remainder cs}
    (h : Sequent.scanFormulas .propositional cs = (fs, r)) :
    ∀ f ∈ fs, f.Composed IsVariable := by
  intro f hf
  obtain ⟨cs', r', hread⟩ := exists_of_mem_list0 h hf
  exact composed_of_equivalence hread

/-- A sequent that is read in propositional logic is a propositional one. -/
theorem propositional_of_parse {text : String} {q : Sequent}
    (h : Sequent.parse .propositional text = .ok q) : q.Propositional := by
  simp only [Sequent.parse, Outcome.bind_eq_ok, Outcome.pure_eq_ok, whole_eq_ok] at h
  obtain ⟨q, ⟨rest, hread, -⟩, rfl⟩ := h
  split at hread
  · rw [Sequent.scan] at hread
    split at hread
    next hleft =>
      split at hread
      · cases hread
      · split at hread
        next hright =>
          cases hread
          exact List.forall_mem_append.mpr
            ⟨composed_of_scanFormulas hleft, composed_of_scanFormulas hright⟩
  · cases hread
    exact composed_of_scanFormulas rfl

end Grammar

/-- Whether a formula is built from variables without quantifiers and equivalences. -/
def Formula.Plain : Formula → Prop
  | var _ => True
  | not f => f.Plain
  | and f g => f.Plain ∧ g.Plain
  | or f g => f.Plain ∧ g.Plain
  | imp f g => f.Plain ∧ g.Plain
  | _ => False

theorem Formula.plain_splitIff {f : Formula} (h : f.Composed IsVariable) : f.splitIff.Plain := by
  induction f using shapeInduction with
  | var name => trivial
  | rel r =>
    obtain ⟨x, hx⟩ := composed_rel.mp h
    cases hx
  | not f ih => exact ih (composed_not.mp h)
  | connective k f g ihf ihg =>
    obtain ⟨hf, hg⟩ := composed_apply.mp h
    have hf := ihf hf
    have hg := ihg hg
    cases k with
    | iff => exact ⟨⟨hf, hg⟩, hg, hf⟩
    | and | or | imp => exact ⟨hf, hg⟩
  | quantifier universal x f =>
    cases universal with
    | true => exact absurd h not_composed_all
    | false => exact absurd h not_composed_ex

/-- Whether all formulas of a sequent are plain. -/
def Sequent.Plain (q : Sequent) : Prop := ∀ f ∈ q.formulas, f.Plain

theorem Sequent.Plain.distinct {q : Sequent} (h : q.Plain) : q.distinct.Plain := by
  intro f hf
  simp only [formulas, Sequent.distinct, List.mem_append, List.mem_eraseDups] at hf
  exact h f (List.mem_append.mpr hf)

theorem Sequent.Propositional.plain_splitIff {q : Sequent} (h : q.Propositional) :
    q.splitIff.Plain := by
  intro f hf
  rw [formulas, splitIff, ← List.map_append] at hf
  obtain ⟨g, hg, rfl⟩ := List.mem_map.mp hf
  exact Formula.plain_splitIff (h g hg)

namespace SequentProof

open Deduction.Tree Sequent

variable {q r : Sequent} {s s' : State} {f : Formula} {id : Nat}

theorem Rule.plain_premisses {rule : Rule} {premisses : List Sequent}
    (h : rule.premisses f q = some premisses) (hq : q.Plain) (hf : f.Plain) :
    ∀ p ∈ premisses, p.Plain := by
  obtain ⟨hleft, hright⟩ := List.forall_mem_append.mp hq
  rw [Rule.premisses.eq_def] at h
  split at h <;> cases h <;>
    simp only [Formula.Plain, Sequent.Plain, formulas, List.forall_mem_append,
      List.forall_mem_cons] at hf ⊢ <;>
    tauto

theorem Infers.plain {premisses : List Sequent} (h : Infers .propositional q premisses)
    (hq : q.Plain) : ∀ p ∈ premisses, p.Plain := by
  cases h with
  | connective hf hpremisses =>
    refine Rule.plain_premisses hpremisses (fun g hg => hq g ?_)
      (hq _ (mem_formulas_of_mem_onSide (List.mem_of_getElem? hf)))
    rcases List.mem_append.mp hg with hg | hg
    · exact List.mem_append_left _ (onSide_eraseAt_subset _ .left hg)
    · exact List.mem_append_right _ (onSide_eraseAt_subset _ .right hg)
  | keeping hlogic | dropping hlogic => cases hlogic

/-- Whether the sequents at all nodes are plain. -/
def PlainTree (t : Tree Label) : Prop := ∀ i n, t.get? i = some n → n.label.sequent.Plain

theorem plainTree_growAll (h : PlainTree s.tree) (hleaf : OpenLeaf s id q)
    {premisses : List Sequent} (hpremisses : ∀ p ∈ premisses, p.Plain) (m : Move) :
    PlainTree (growAll s.tree id (labels premisses m)) := by
  obtain ⟨-, n, hn, -⟩ := hleaf
  refine forall_labels_growAll (P := fun label : Label => label.sequent.Plain)
    (Arena.lt_size_of_get? hn) h fun label hlabel => ?_
  obtain ⟨p, hp, rfl⟩ := List.mem_map.mp hlabel
  exact (hpremisses p hp).distinct

theorem plainTree_of_advances (hformed : Formed q s.tree)
    (hadvance : Advances .propositional s s') (h : PlainTree s.tree) : PlainTree s'.tree := by
  have plain_of_leaf {id : Nat} {r : Sequent} (hleaf : OpenLeaf s id r) : r.Plain := by
    obtain ⟨-, n, hn, -, -, rfl⟩ := hleaf
    exact h id n hn
  cases hadvance with
  | infer hleaf hinfers m =>
    rw [tree_grow]
    exact plainTree_growAll h hleaf (hinfers.plain (plain_of_leaf hleaf)) m
  | @ax leaf r f t hleaf _ _ m ht =>
    have hgrown := plainTree_growAll h hleaf
      (List.forall_mem_singleton.mpr (plain_of_leaf hleaf)) m
    obtain ⟨-, n, hn, -, hopen, -⟩ := hleaf
    obtain ⟨ids, rfl, -⟩ := closeLeaf_eq_markAll (hformed.growAll hn hopen _).rooted ht
    intro i k' hk'
    rw [get?_markAll] at hk'
    obtain ⟨k, hk, rfl⟩ := Option.map_eq_some_iff.mp hk'
    exact hgrown i k hk

theorem plainTree_of_run {b : Bool} {moves : List Move} (hq : q.Propositional)
    (h : moves.foldlM (step .propositional) (.initial q b) = .ok s) :
    Formed q s.tree ∧ PlainTree s.tree := by
  refine run_induction (P := fun s => PlainTree s.tree) (fun i n hn => ?_)
    (fun _ _ => plainTree_of_advances) h
  rw [(eq_of_get?_single hn).2]
  exact hq.plain_splitIff.distinct

/-- Whether no move but taking one back is accepted. -/
def Stuck (s : State) : Prop := ∀ m s', m ≠ .undo → step .propositional s m ≠ .ok s'

/-- There is a rule for every plain formula on either side, unless it is a variable. -/
theorem exists_rule (hf : f.Plain) (hvar : ¬ IsVariable f) (side : Side) :
    ∃ rule : Rule, rule.side = side ∧ ∀ q, ∃ premisses, rule.premisses f q = some premisses := by
  cases f with
  | var x => exact absurd ⟨x, rfl⟩ hvar
  | not f =>
    cases side with
    | left => exact ⟨.notLeft, rfl, fun _ => ⟨_, rfl⟩⟩
    | right => exact ⟨.notRight, rfl, fun _ => ⟨_, rfl⟩⟩
  | and f g =>
    cases side with
    | left => exact ⟨.andLeft, rfl, fun _ => ⟨_, rfl⟩⟩
    | right => exact ⟨.andRight, rfl, fun _ => ⟨_, rfl⟩⟩
  | or f g =>
    cases side with
    | left => exact ⟨.orLeft, rfl, fun _ => ⟨_, rfl⟩⟩
    | right => exact ⟨.orRight, rfl, fun _ => ⟨_, rfl⟩⟩
  | imp f g =>
    cases side with
    | left => exact ⟨.impLeft, rfl, fun _ => ⟨_, rfl⟩⟩
    | right => exact ⟨.impRight, rfl, fun _ => ⟨_, rfl⟩⟩
  | iff | rel | all | ex => exact hf.elim

/-- An open leaf has variables only. -/
theorem Stuck.isVariable (h : Stuck s) (hleaf : OpenLeaf s id r) (hr : r.Plain)
    (side : Side) (hf : f ∈ r.onSide side) : IsVariable f := by
  by_contra hvar
  obtain ⟨rule, rfl, hrule⟩ := exists_rule (hr f (mem_formulas_of_mem_onSide hf)) hvar side
  obtain ⟨index, hindex⟩ := List.mem_iff_getElem?.mp hf
  obtain ⟨premisses, hpremisses⟩ := hrule (r.eraseAt index rule.side)
  have hconnective := connective_eq_ok.mpr ⟨r, f, premisses, hleaf, hindex, hpremisses, rfl⟩
  exact h (.connective rule id index) _ (by simp) ((step_of_ne (by simp)).trans hconnective)

/-- An open leaf has no formula on both sides. -/
theorem Stuck.not_shared (h : Stuck s) (hformed : Formed q s.tree) (hleaf : OpenLeaf s id r)
    (hleft : f ∈ r.left) : f ∉ r.right := by
  intro hright
  have ⟨_, n, hn, _⟩ := hleaf
  obtain ⟨t, ht⟩ :=
    exists_closeLeaf_nextId hformed.rooted (Arena.lt_size_of_get? hn) r (.ax id)
  have hax := ax_eq_ok.mpr ⟨r, t, hleaf, ⟨f, hleft, hright⟩, ht, rfl⟩
  exact h (.ax id) _ (by simp) ((step_of_ne (by simp)).trans hax)

/-- An open leaf fails if the variables on its left are true. -/
theorem Stuck.fails (h : Stuck s) (hformed : Formed q s.tree) (hleaf : OpenLeaf s id r)
    (hr : r.Plain) (v : String → Unit) :
    r.Fails (valuationModel fun x => decide (Formula.var x ∈ r.left)) v := by
  rw [fails_iff]
  constructor
  · intro f hf
    obtain ⟨x, rfl⟩ := h.isVariable hleaf hr .left hf
    exact decide_eq_true hf
  · intro f hf hholds
    obtain ⟨x, rfl⟩ := h.isVariable hleaf hr .right hf
    exact h.not_shared hformed hleaf (of_decide_eq_true hholds) hf

/-- There is no rule for variables. -/
theorem not_infers_of_variables {premisses : List Sequent} (h : ∀ f ∈ q.formulas, IsVariable f) :
    ¬ Infers .propositional q premisses := by
  intro hinfers
  cases hinfers with
  | @connective rule _ _ _ hf hpremisses =>
    obtain ⟨x, rfl⟩ := h _ (mem_formulas_of_mem_onSide (List.mem_of_getElem? hf))
    cases rule <;> cases hpremisses
  | keeping hlogic | dropping hlogic => cases hlogic

/-- No move is left if the open leaves have variables only and none of them on both sides. -/
theorem stuck_of_leaves (h : ∀ id r, OpenLeaf s id r →
    (∀ f ∈ r.formulas, IsVariable f) ∧ ∀ f ∈ r.left, f ∉ r.right) : Stuck s := by
  intro m s' hm hstep
  cases advances_of_step hm hstep with
  | infer hleaf hinfers => exact not_infers_of_variables (h _ _ hleaf).1 hinfers
  | ax hleaf hleft hright => exact (h _ _ hleaf).2 _ hleft hright

/-- No move is left in a finished proof. -/
theorem Formed.stuck (h : Formed q s.tree) (hfits : s.tree.size ≤ UInt32.size) {n : Node Label}
    (hn : s.tree.get? root = some n) (hclosed : n.isClosed = true) : Stuck s := by
  refine stuck_of_leaves fun id r hleaf => ?_
  obtain ⟨-, m, hm, -, hopen, -⟩ := hleaf
  have hm_closed := isClosed_of_root (h.linked hfits) (h.settled hfits) hn hclosed hm
  exact absurd (hopen.symm.trans hm_closed) Bool.false_ne_true

/-- Where no move is left the proof is finished exactly if the sequent is true under all
valuations. -/
theorem closed_iff_of_stuck {b : Bool} {moves : List Move} (hq : q.Propositional)
    (hrun : moves.foldlM (step .propositional) (.initial q b) = .ok s)
    (hfits : s.tree.size ≤ UInt32.size) (hstuck : Stuck s) :
    ∃ v, s.verdict .propositional = .ok v ∧ (v.closed = true ↔ ∀ val, q.TrueUnder val) := by
  obtain ⟨hformed, hplain⟩ := plainTree_of_run hq hrun
  have hiff := valid_iff_leavesValid.{0} hrun
  obtain ⟨v, n, hv, hn, hclosed⟩ := hformed.exists_verdict .propositional
  refine ⟨v, hv, ?_⟩
  rw [← hq.valid_iff, hiff, hclosed]
  constructor
  · exact hformed.leavesValid_of_closed hfits hn
  · intro hvalid
    by_contra hopen
    obtain ⟨id, m, hm, hleaf, hm_open⟩ :=
      exists_open_leaf (hformed.linked hfits) (hformed.settled hfits) hn
        (Bool.not_eq_true _ ▸ hopen)
    have hid : id < UInt32.size := Nat.lt_of_lt_of_le (Arena.lt_size_of_get? hm) hfits
    have hfails := hstuck.fails hformed ⟨hid, m, hm, hleaf, hm_open, rfl⟩ (hplain id m hm)
      fun _ => ()
    exact not_holds_iff.mpr hfails (hvalid id m hm hleaf Unit _ _)

/-- Propositional proofs decide whether a sequent is true under all valuations, in whatever order
moves are made: as long as none is taken back only so many can be made, and where none is left and
there are ids for all nodes, the proof is found to be finished exactly if the sequent is. There are
ids for all nodes unless the sequent has many connectives. -/
theorem stuck_closed_iff_true (params : Params) (moves : List Move) :
    (∀ text s₀, start .propositional params text = .ok s₀ →
      ∃ q, Sequent.parse .propositional text = .ok q ∧ q.Propositional ∧
        s₀ = .initial q params.onlyApplicable) ∧
    ∀ (q : Sequent) (s : State), q.Propositional →
      moves.foldlM (step .propositional) (.initial q params.onlyApplicable) = .ok s →
      (∀ (more : List Move) s', (∀ m ∈ more, m ≠ .undo) →
        more.foldlM (step .propositional) s = .ok s' →
        more.length ≤ 3 ^ q.splitIff.distinct.connectives) ∧
      s.tree.size ≤ 1 + 2 * 3 ^ q.splitIff.distinct.connectives ∧
      (s.tree.size ≤ UInt32.size → (∀ m s', m ≠ .undo → step .propositional s m ≠ .ok s') →
        ∃ v, s.verdict .propositional = .ok v ∧
          (v.closed = true ↔ ∀ val, q.TrueUnder val)) := by
  constructor
  · intro text s₀ h
    simp only [start, Outcome.bind_eq_ok, Outcome.ofText_eq_ok, Outcome.pure_eq_ok] at h
    obtain ⟨q, hq, rfl⟩ := h
    exact ⟨q, hq, Grammar.propositional_of_parse hq, rfl⟩
  · intro q s hq hrun
    refine ⟨fun more s' hmore hrun' => length_le_of_run hrun hmore hrun', ?_,
      closed_iff_of_stuck hq hrun⟩
    exact Nat.le_trans (Nat.le_add_right _ _) (bounds_of_run hrun).2

/-- The sequent `a ↔ b, ¬b ∨ c ⊢ a → c`. -/
def chained : Sequent :=
  ⟨[.iff (.var "a") (.var "b"), .or (.not (.var "b")) (.var "c")], [.imp (.var "a") (.var "c")]⟩

private theorem propositional_chained : chained.Propositional := by
  simp [chained, Propositional, formulas, Composed, quantifierFree, atoms, IsVariable]

/-- Its proof. A move is taken back on the way. -/
def chainedProof : List Move :=
  [.connective .impRight 0 0, .connective .andLeft 1 0, .connective .impLeft 2 2, .ax 3,
    .connective .orLeft 4 0, .connective .notLeft 6 3, .ax 8, .connective .impLeft 7 1, .undo,
    .ax 7]

private theorem chainedProof_closed :
    (chainedProof.foldlM (step .propositional) (.initial chained false) >>= fun s => do
      return (s.tree.size, (← s.verdict .propositional).closed)) = .ok (11, true) := by
  cbv

/-- The sequent `a ⊢ b`, in whose proof no move can be made. -/
def apart : Sequent := ⟨[.var "a"], [.var "b"]⟩

private theorem propositional_apart : apart.Propositional := by
  simp [apart, Propositional, formulas, Composed, quantifierFree, atoms, IsVariable]

theorem stuck_apart : Stuck (.initial apart false) := by
  refine stuck_of_leaves fun id r hleaf => ?_
  obtain ⟨-, n, hn, -, -, rfl⟩ := hleaf
  rw [(eq_of_get?_single hn).2]
  simp [apart, Sequent.splitIff, Formula.splitIff, Sequent.distinct, formulas, IsVariable]

/-- One proof ends finished, and its sequent is true under all valuations; the other one ends
open, and its sequent is not. -/
theorem chained_true_apart_not :
    (∃ s v, chainedProof.foldlM (step .propositional) (.initial chained false) = .ok s ∧
      s.tree.size ≤ UInt32.size ∧ (∀ m s', m ≠ .undo → step .propositional s m ≠ .ok s') ∧
      s.verdict .propositional = .ok v ∧ v.closed = true ∧ ∀ val, chained.TrueUnder val) ∧
    (∀ m s', m ≠ .undo → step .propositional (.initial apart false) m ≠ .ok s') ∧
      ¬ ∀ val, apart.TrueUnder val := by
  refine ⟨?_, stuck_apart, fun htrue => ?_⟩
  · obtain ⟨s, hs, hshown⟩ := Outcome.bind_eq_ok.mp chainedProof_closed
    obtain ⟨v, hv, hpair⟩ := Outcome.bind_eq_ok.mp hshown
    obtain ⟨hsize, hclosed⟩ := Prod.mk.inj (Outcome.pure_eq_ok.mp hpair)
    have hfits : s.tree.size ≤ UInt32.size := by
      rw [hsize]
      decide
    have hformed := formed_of_run hs
    obtain ⟨v', n, hv', hn, hn_closed⟩ := hformed.exists_verdict .propositional
    cases hv.symm.trans hv'
    have hstuck := hformed.stuck hfits hn (hn_closed.symm.trans hclosed)
    obtain ⟨-, -, hdecides⟩ :=
      (stuck_closed_iff_true ⟨false⟩ chainedProof).2 chained s propositional_chained hs
    obtain ⟨v', hv', hiff⟩ := hdecides hfits hstuck
    cases hv.symm.trans hv'
    exact ⟨s, v, hs, hfits, hstuck, hv, hclosed, hiff.mp hclosed⟩
  · obtain ⟨-, -, hdecides⟩ :=
      (stuck_closed_iff_true ⟨false⟩ []).2 apart _ propositional_apart rfl
    have hfits : (State.initial apart false).tree.size ≤ UInt32.size := by
      change 1 ≤ UInt32.size
      decide
    obtain ⟨v, hv, hiff⟩ := hdecides hfits stuck_apart
    have hopen : (State.initial apart false).verdict .propositional =
        .ok ⟨false, "The proof is not closed"⟩ := rfl
    cases hopen.symm.trans hv
    exact Bool.false_ne_true (hiff.mpr htrue)

end SequentProof

end Deduction
