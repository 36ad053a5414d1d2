import Deduction.Proofs.Formula.Capture
import Deduction.Proofs.Formula.Symbols
import Deduction.SequentProof.Basic
import Mathlib.Data.List.Perm.Basic

/-!
# Meaning of sequents

A sequent fails in an interpretation if all formulas on its left hold there and none on
its right does. Every rule is read in terms of failing: a sequent to which a rule for a
connective is applied fails exactly where one of the new sequents does, and so it is
with the rules for quantifiers that keep the formula. A rule that needs a new constant
changes where a sequent fails, but not whether it fails anywhere, since the constant may
stand for the element that makes the quantified formula fail.
-/

namespace Deduction

universe u

variable {D : Type u} (M : Interpretation D) (v : String → D)

/-- What a sequent that fails says of a formula on a side. -/
def Side.Against : Side → Prop → Prop
  | left, p => p
  | right, p => ¬ p

theorem Side.against_congr (side : Side) {p q : Prop} (h : p ↔ q) :
    side.Against p ↔ side.Against q := by
  rw [h]

/-- An equivalence means the two implications. -/
theorem Formula.holds_splitIff (f : Formula) : f.splitIff.Holds M v ↔ f.Holds M v := by
  induction f generalizing v with
  | var name => rfl
  | rel r => rfl
  | not f ih => exact not_congr (ih v)
  | and f g ihf ihg => exact and_congr (ihf v) (ihg v)
  | or f g ihf ihg => exact or_congr (ihf v) (ihg v)
  | imp f g ihf ihg => exact imp_congr (ihf v) (ihg v)
  | iff f g ihf ihg =>
    simp only [splitIff, Holds, ihf, ihg]
    exact iff_iff_implies_and_implies.symm
  | all x f ih => exact forall_congr' fun d => ih _
  | ex x f ih => exact exists_congr fun d => ih _

namespace Sequent

/-- Whether some formula on the right holds if all on the left do. -/
def Holds (q : Sequent) : Prop := (∀ f ∈ q.left, f.Holds M v) → ∃ f ∈ q.right, f.Holds M v

/-- Whether a sequent holds in all interpretations. -/
def Valid (q : Sequent) : Prop :=
  ∀ (D : Type u) [Nonempty D] (M : Interpretation D) (v : String → D), q.Holds M v

/-- Whether all formulas on the left hold and none on the right does. -/
def Fails (q : Sequent) : Prop := ∀ side, ∀ f ∈ q.onSide side, side.Against (f.Holds M v)

variable {q q' : Sequent} {f : Formula} {side : Side} {M v}

theorem fails_iff :
    q.Fails M v ↔ (∀ f ∈ q.left, f.Holds M v) ∧ ∀ f ∈ q.right, ¬ f.Holds M v := by
  constructor
  · exact fun h => ⟨h .left, h .right⟩
  · rintro ⟨hleft, hright⟩ (_ | _)
    · exact hleft
    · exact hright

theorem not_holds_iff : ¬ q.Holds M v ↔ q.Fails M v := by
  rw [Holds, Classical.not_imp, fails_iff]
  push Not
  rfl

/-- A sequent is valid unless it fails somewhere. -/
theorem valid_iff : Valid.{u} q ↔
    ∀ (D : Type u) [Nonempty D], ¬ ∃ (M : Interpretation D) (v : String → D), q.Fails M v := by
  simp only [Valid, not_exists, ← not_holds_iff, not_not]

/-- Sequents that fail in the same domains are valid together. -/
theorem valid_congr
    (h : ∀ (D : Type u) [Nonempty D], (∃ (M : Interpretation D) (v : String → D), q.Fails M v) ↔
      ∃ (M : Interpretation D) (v : String → D), q'.Fails M v) :
    Valid.{u} q ↔ Valid.{u} q' := by
  rw [valid_iff, valid_iff]
  exact forall₂_congr fun D _ => not_congr (h D)

/-- Only which formulas stand on a side counts. -/
theorem fails_congr (h : ∀ side f, f ∈ q.onSide side ↔ f ∈ q'.onSide side) :
    q.Fails M v ↔ q'.Fails M v :=
  forall_congr' fun side => forall_congr' fun f => imp_congr_left (h side f)

theorem fails_distinct : q.distinct.Fails M v ↔ q.Fails M v := by
  refine fails_congr fun side f => ?_
  cases side <;> exact List.mem_eraseDups

theorem fails_splitIff : q.splitIff.Fails M v ↔ q.Fails M v := by
  simp only [fails_iff, splitIff, List.forall_mem_map, Formula.holds_splitIff]

theorem fails_add : (q.add f side).Fails M v ↔ q.Fails M v ∧ side.Against (f.Holds M v) := by
  cases side with
  | left =>
    simp only [fails_iff, add, List.forall_mem_append, List.forall_mem_singleton, Side.Against]
    exact and_right_comm
  | right =>
    simp only [fails_iff, add, List.forall_mem_append, List.forall_mem_singleton, Side.Against]
    exact and_assoc.symm

/-- The formulas at one position and at all others are the formulas of a list. -/
theorem mem_iff_of_getElem? {fs : List Formula} {index : Nat} (h : fs[index]? = some f)
    (g : Formula) : g ∈ fs ↔ g ∈ fs.eraseIdx index ++ [f] := by
  obtain ⟨hlt, rfl⟩ := List.getElem?_eq_some_iff.mp h
  rw [← (List.getElem_cons_eraseIdx_perm hlt).mem_iff, List.mem_cons, List.mem_append,
    List.mem_singleton, or_comm]

/-- A sequent fails if it fails without a formula and the formula is against it. -/
theorem fails_eraseAt {index : Nat} (h : (q.onSide side)[index]? = some f) :
    q.Fails M v ↔ (q.eraseAt index side).Fails M v ∧ side.Against (f.Holds M v) := by
  rw [← fails_add]
  refine fails_congr fun side' g => ?_
  cases side with
  | left =>
    cases side' with
    | left => exact mem_iff_of_getElem? h g
    | right => rfl
  | right =>
    cases side' with
    | left => rfl
    | right => exact mem_iff_of_getElem? h g

theorem mem_formulas_of_mem_onSide (h : f ∈ q.onSide side) : f ∈ q.formulas := by
  cases side with
  | left => exact List.mem_append_left _ h
  | right => exact List.mem_append_right _ h

/-- What stands in a sequent after a formula has been left out stood in it before. -/
theorem onSide_eraseAt_subset (index : Nat) (side' : Side) :
    (q.eraseAt index side).onSide side' ⊆ q.onSide side' := by
  cases side with
  | left =>
    cases side' with
    | left => exact List.eraseIdx_subset
    | right => exact List.Subset.refl _
  | right =>
    cases side' with
    | left => exact List.Subset.refl _
    | right => exact List.eraseIdx_subset

/-- A sequent in which a symbol does not occur fails whatever the symbol means. -/
theorem fails_withSymbol {name : String} {F : List D → D}
    (h : ∀ side, ∀ f ∈ q.onSide side, name ∉ f.symbols) :
    q.Fails (M.withSymbol name F) v ↔ q.Fails M v := by
  refine forall_congr' fun side => forall₂_congr fun f hf => side.against_congr ?_
  exact Formula.holds_withSymbol (h side f hf)

end Sequent

namespace SequentProof

open Sequent

variable {M v} {q : Sequent} {f : Formula}

/-- A rule for a connective gives sequents of which one fails exactly where the sequent with the
formula does. -/
theorem Rule.exists_fails_iff {rule : Rule} {premisses : List Sequent}
    (h : rule.premisses f q = some premisses) :
    (∃ p ∈ premisses, p.Fails M v) ↔ q.Fails M v ∧ rule.side.Against (f.Holds M v) := by
  rw [Rule.premisses.eq_def] at h
  split at h <;> cases h <;>
    simp only [List.mem_cons, List.not_mem_nil, or_false, exists_eq_or_imp, exists_eq_left,
      fails_iff, List.forall_mem_append, forall_eq_or_imp, forall_eq, Rule.side, Side.Against,
      Formula.Holds] <;>
    tauto

namespace QuantifierRule

variable {rule : QuantifierRule} {x : String} {body : Formula}

/-- What a quantified formula on the side of its rule says of its instances when a sequent fails:
one of them is against it where the rule needs a new constant, all are where it does not. -/
theorem against_iff (h : rule.matches? f = some (x, body)) :
    rule.side.Against (f.Holds M v) ↔
      if rule.eigenvariable then ∃ d, rule.side.Against (body.Holds M (Function.update v x d))
      else ∀ d, rule.side.Against (body.Holds M (Function.update v x d)) := by
  cases f <;> cases rule <;>
    simp only [matches?, universal, if_true, Bool.false_eq_true, if_false, reduceCtorEq,
      Option.some.injEq, Prod.mk.injEq] at h <;>
    obtain ⟨rfl, rfl⟩ := h <;>
    simp [side, eigenvariable, Side.Against, Formula.Holds]

private theorem symbols_of_matches? (h : rule.matches? f = some (x, body)) :
    f.symbols = body.symbols := by
  cases f <;> cases rule <;>
    simp only [matches?, universal, if_true, Bool.false_eq_true, if_false, reduceCtorEq,
      Option.some.injEq, Prod.mk.injEq] at h <;>
    obtain ⟨rfl, rfl⟩ := h <;> rfl

/-- An instance with a constant says what the body says of the value of the constant. -/
theorem holds_instance (x : String) (body : Formula) (name : String) :
    (Formula.instantiateBound x body (.const name)).Holds M v ↔
      body.Holds M (Function.update v x (M.const name)) :=
  Formula.holds_instantiateBound fun _ hz => absurd hz List.not_mem_nil

variable {index : Nat}

/-- A rule that keeps the formula adds nothing to where the sequent fails. -/
theorem fails_add_iff (hf : (q.onSide rule.side)[index]? = some f)
    (hbody : rule.matches? f = some (x, body)) (hrule : rule.eigenvariable = false)
    (name : String) :
    (q.add (Formula.instantiateBound x body (.const name)) rule.side).Fails M v ↔
      q.Fails M v := by
  rw [fails_add, and_iff_left_iff_imp, rule.side.against_congr (holds_instance x body name)]
  intro hq
  have hall := (against_iff hbody).mp (hq rule.side f (List.mem_of_getElem? hf))
  rw [hrule, if_neg Bool.false_ne_true] at hall
  exact hall _

/-- A rule with a new constant keeps whether the sequent fails anywhere in a domain. -/
theorem exists_fails_add_iff [Nonempty D] (hf : (q.onSide rule.side)[index]? = some f)
    (hbody : rule.matches? f = some (x, body)) (hrule : rule.eigenvariable = true) {name : String}
    (hnew : ∀ g ∈ q.formulas, name ∉ g.symbols) :
    (∃ (M : Interpretation D) (v : String → D),
      ((q.eraseAt index rule.side).add (Formula.instantiateBound x body (.const name))
        rule.side).Fails M v) ↔
      ∃ (M : Interpretation D) (v : String → D), q.Fails M v := by
  constructor
  · rintro ⟨M, v, hfails⟩
    obtain ⟨hrest, hinstance⟩ := fails_add.mp hfails
    rw [rule.side.against_congr (holds_instance x body name)] at hinstance
    have hagainst : rule.side.Against (f.Holds M v) := by
      rw [against_iff hbody, if_pos hrule]
      exact ⟨_, hinstance⟩
    exact ⟨M, v, (fails_eraseAt hf).mpr ⟨hrest, hagainst⟩⟩
  · rintro ⟨M, v, hfails⟩
    obtain ⟨hrest, hagainst⟩ := (fails_eraseAt hf).mp hfails
    rw [against_iff hbody, if_pos hrule] at hagainst
    obtain ⟨d, hd⟩ := hagainst
    -- The new constant stands for the element at which the body is against the sequent.
    have hrest_new : ∀ side, ∀ g ∈ (q.eraseAt index rule.side).onSide side, name ∉ g.symbols :=
      fun side g hg => hnew g (mem_formulas_of_mem_onSide (onSide_eraseAt_subset index side hg))
    have hbody_new : name ∉ body.symbols := by
      have hf_new := hnew f (mem_formulas_of_mem_onSide (List.mem_of_getElem? hf))
      rwa [symbols_of_matches? hbody] at hf_new
    refine ⟨M.withSymbol name fun _ => d, v, fails_add.mpr ⟨?_, ?_⟩⟩
    · exact (fails_withSymbol hrest_new).mpr hrest
    · rw [rule.side.against_congr (holds_instance x body name)]
      have hvalue : (M.withSymbol name fun _ => d).const name = d := by
        simp [Interpretation.withSymbol]
      rw [hvalue, rule.side.against_congr (Formula.holds_withSymbol hbody_new)]
      exact hd

end QuantifierRule

end SequentProof

end Deduction
