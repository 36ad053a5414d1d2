import Deduction.Proofs.Clause.Definition
import Deduction.Proofs.Clause.Distribution

/-!
# What the optimal strategy picks

Distribution within a limit gives the clauses of full distribution or gives up, and
it gives up only if full distribution has more clauses than allowed: no formula has
an empty clause set, so neither sums nor products of clause counts fall below a count
met on the way. The optimal strategy therefore distributes exactly if this gives no
more clauses than definition and no more than its fixed bound.
-/

namespace Deduction

namespace ClauseSet

variable {L : Type}

theorem size_unite (s t : ClauseSet L) : (s.unite t).size = s.size + t.size := by
  simp only [size, unite, List.length_append]

theorem size_product (s t : ClauseSet L) : (s.product t).size = s.size * t.size := by
  simp only [size, product, List.length_flatMap, List.length_map, List.map_const',
    List.sum_replicate_nat]

/-- A conversion within a limit beside the one without: both give the same clauses, or the former
gives up since the latter gives more clauses than allowed. A single clause is never refused. -/
def Capped (limit : Nat) (full limited : Except ConversionError (ClauseSet L)) : Prop :=
  ∃ s, full = .ok s ∧ 0 < s.size ∧
    (limited = .ok s ∧ s.size ≤ max 1 limit ∨
      limited = .error (.tooLarge limit) ∧ limit < s.size)

section Capped

variable {limit : Nat} {x y x' y' : Except ConversionError (ClauseSet L)}

/-- Joining clause sets under the limit keeps conversions in step, provided that what is checked
is the size of the result and that this is not below the size of either part. -/
theorem Capped.combine (join : ClauseSet L → ClauseSet L → ClauseSet L)
    {op : Option Nat → ClauseSet L → ClauseSet L → Except ConversionError (ClauseSet L)}
    (hop : ∀ bound s t, op bound s t = do
      checkLimit bound (join s t).size
      return join s t)
    (hsize : ∀ s t, 0 < s.size → 0 < t.size →
      s.size ≤ (join s t).size ∧ t.size ≤ (join s t).size)
    (hx : Capped limit x y) (hx' : Capped limit x' y') :
    Capped limit (do op none (← x) (← x')) (do op (some limit) (← y) (← y')) := by
  obtain ⟨s, rfl, hs, hy⟩ := hx
  obtain ⟨t, rfl, ht, hy'⟩ := hx'
  obtain ⟨hleft, hright⟩ := hsize s t hs ht
  refine ⟨join s t, hop none s t, by omega, ?_⟩
  rcases hy with ⟨rfl, -⟩ | ⟨rfl, hlarge⟩
  · rcases hy' with ⟨rfl, -⟩ | ⟨rfl, hlarge⟩
    · by_cases hfits : (join s t).size ≤ limit
      · refine .inl ⟨?_, by omega⟩
        change op (some limit) s t = _
        rw [hop, checkLimit, if_neg (by omega)]
        rfl
      · refine .inr ⟨?_, by omega⟩
        change op (some limit) s t = _
        rw [hop, checkLimit, if_pos (by omega)]
        rfl
    · exact .inr ⟨rfl, by omega⟩
  · exact .inr ⟨rfl, by omega⟩

theorem Capped.conj (hx : Capped limit x y) (hx' : Capped limit x' y') :
    Capped limit (do conj none (← x) (← x')) (do conj (some limit) (← y) (← y')) := by
  refine Capped.combine unite (fun bound s t => ?_) (fun s t _ _ => ?_) hx hx'
  · rw [ClauseSet.conj, size_unite]
  · rw [size_unite]
    omega

theorem Capped.disj (hx : Capped limit x y) (hx' : Capped limit x' y') :
    Capped limit (do disj none (← x) (← x')) (do disj (some limit) (← y) (← y')) := by
  refine Capped.combine product (fun bound s t => ?_) (fun s t hs ht => ?_) hx hx'
  · rw [ClauseSet.disj, size_product]
    rfl
  · rw [size_product]
    exact ⟨Nat.le_mul_of_pos_right _ ht, Nat.le_mul_of_pos_left _ hs⟩

end Capped

theorem capped_ofAtom [Literal L] {f : Formula} {l : L} (h : Literal.ofFormula? f = some l)
    (limit : Nat) (sign : Bool) : Capped (L := L) limit (ofAtom sign f) (ofAtom sign f) := by
  have hatom : ofAtom sign f = .ok ⟨[⟨[⟨l, !sign⟩]⟩]⟩ := by rw [ofAtom, h]
  exact ⟨_, hatom, Nat.one_pos, .inl ⟨hatom, Nat.le_max_left 1 limit⟩⟩

/-- Distribution within a limit keeps in step with full distribution, whatever the sign and the
reading of equivalences. -/
theorem capped_distribute [Literal L] {f : Formula} (h : f.Composed (OfLiteral L)) (limit : Nat)
    (basic sign : Bool) : Capped (L := L) limit (distribute none basic sign f)
      (distribute (some limit) basic sign f) := by
  induction f generalizing basic sign with
  | var name =>
    obtain ⟨l, hl⟩ := Formula.composed_var.mp h
    exact capped_ofAtom hl limit sign
  | rel r =>
    obtain ⟨l, hl⟩ := Formula.composed_rel.mp h
    exact capped_ofAtom hl limit sign
  | not f ih => exact ih (Formula.composed_not.mp h) basic (!sign)
  | and f g ihf ihg =>
    obtain ⟨hf, hg⟩ := (Formula.composed_apply (k := .and)).mp h
    cases sign with
    | true => exact (ihf hf basic true).conj (ihg hg basic true)
    | false => exact (ihf hf basic false).disj (ihg hg basic false)
  | or f g ihf ihg =>
    obtain ⟨hf, hg⟩ := (Formula.composed_apply (k := .or)).mp h
    cases sign with
    | true => exact (ihf hf basic true).disj (ihg hg basic true)
    | false => exact (ihf hf basic false).conj (ihg hg basic false)
  | imp f g ihf ihg =>
    obtain ⟨hf, hg⟩ := (Formula.composed_apply (k := .imp)).mp h
    cases sign with
    | true => exact (ihf hf true false).disj (ihg hg true true)
    | false => exact (ihf hf basic true).conj (ihg hg basic false)
  | iff f g ihf ihg =>
    obtain ⟨hf, hg⟩ := (Formula.composed_apply (k := .iff)).mp h
    have equal := ((ihf hf true true).conj (ihg hg true true)).disj
      ((ihf hf true false).conj (ihg hg true false))
    have written := ((ihf hf true false).disj (ihg hg true false)).conj
      ((ihf hf true true).disj (ihg hg true true))
    have split := ((ihf hf false true).conj (ihg hg false false)).disj
      ((ihg hg false true).conj (ihf hf false false))
    simp only [bind_assoc] at equal written split
    cases sign with
    | true => exact equal
    | false =>
      cases basic with
      | true => exact written
      | false => exact split
  | all x f => exact absurd h Formula.not_composed_all
  | ex x f => exact absurd h Formula.not_composed_ex

/-- Only propositional formulas have a definition. -/
theorem composed_of_define_eq_ok {i : Nat} {f : Formula} {p : List (Clause String) × Nat}
    (h : define i f = .ok p) : f.Composed Formula.IsVariable := by
  induction f using Formula.shapeInduction generalizing i p with
  | var name => exact Formula.composed_var.mpr ⟨name, rfl⟩
  | rel r => cases h
  | not f ih =>
    simp only [define, Outcome.bind_eq_ok] at h
    obtain ⟨q, hq, -⟩ := h
    exact Formula.composed_not.mpr (ih hq)
  | connective k f g ihf ihg =>
    simp only [define_apply, Outcome.bind_eq_ok] at h
    obtain ⟨q, hq, r, hr, -⟩ := h
    exact Formula.composed_apply.mpr ⟨ihf hq, ihg hr⟩
  | quantifier universal x f => cases universal <;> cases h

/-- A formula with a definition is propositional, and its definition has clauses. -/
theorem composed_of_defined_eq_ok {f : Formula} {s : ClauseSet String} (h : defined f = .ok s) :
    f.Composed Formula.IsVariable ∧ 0 < s.size := by
  simp only [defined, Outcome.bind_eq_ok, Outcome.pure_eq_ok] at h
  obtain ⟨p, hp, rfl⟩ := h
  exact ⟨composed_of_define_eq_ok hp, Nat.succ_pos _⟩

end ClauseSet

namespace Strategy

open ClauseSet

/-- The optimal strategy fails exactly if definition does, and alike. Otherwise full distribution
succeeds, and the strategy picks its clauses if they are no more than those of the definition and
no more than the fixed bound, and those of the definition if not. Within any limit distribution
gives up only if full distribution gives more clauses. -/
theorem optimal_picks (f : Formula) :
    (∀ e, optimal.clauses f = .error e ↔ defined f = .error e) ∧
    ∀ t, defined f = .ok t → ∃ n : ClauseSet String, distributed f = .ok n ∧
      (n.size ≤ min t.size blowupLimit → optimal.clauses f = .ok n) ∧
      (min t.size blowupLimit < n.size → optimal.clauses f = .ok t) ∧
      ∀ limit e, distribute (L := String) (some limit) false true f = .error e →
        e = .tooLarge limit ∧ limit < n.size := by
  cases hdefined : defined f with
  | error e =>
    have herror : optimal.clauses f = .error e := by
      rw [clauses, hdefined]
      rfl
    exact ⟨by simp [herror], by simp⟩
  | ok t =>
    obtain ⟨hcomposed, ht⟩ := composed_of_defined_eq_ok hdefined
    rw [← ofLiteral_string] at hcomposed
    have hcapped := fun limit => capped_distribute hcomposed limit false true
    -- Full distribution does not depend on the limit.
    obtain ⟨n, hn, -, hpick⟩ := hcapped (min t.size blowupLimit)
    have hone : max 1 (min t.size blowupLimit) = min t.size blowupLimit := by
      have : 0 < blowupLimit := by decide
      omega
    have hpick : optimal.clauses f = .ok n ∧ n.size ≤ min t.size blowupLimit ∨
        optimal.clauses f = .ok t ∧ min t.size blowupLimit < n.size := by
      rcases hpick with ⟨h, hfits⟩ | ⟨h, hlarge⟩
      · left
        simp only [clauses, hdefined, bind, Except.bind, h]
        exact ⟨rfl, by omega⟩
      · right
        simp only [clauses, hdefined, bind, Except.bind, h]
        exact ⟨rfl, by omega⟩
    refine ⟨?_, ?_⟩
    · rcases hpick with ⟨h, -⟩ | ⟨h, -⟩ <;> simp [h]
    · rintro _ ⟨⟩
      refine ⟨n, hn, fun hfits => ?_, fun hlarge => ?_, fun limit e he => ?_⟩
      · rcases hpick with ⟨h, -⟩ | ⟨-, hlarge⟩
        · exact h
        · omega
      · rcases hpick with ⟨-, hfits⟩ | ⟨h, -⟩
        · omega
        · exact h
      · obtain ⟨m, hm, -, h⟩ := hcapped limit
        obtain rfl : n = m := Except.ok.inj (hn.symm.trans hm)
        rw [he] at h
        rcases h with ⟨h, -⟩ | ⟨h, hlarge⟩
        · cases h
        · exact ⟨Except.error.inj h, hlarge⟩

/-- The conjunction of two variables that are numbered alike. -/
def pair (i : String) : Formula := .and (.var ("a" ++ i)) (.var ("b" ++ i))

/-- A disjunction of five conjunctions. -/
def fivePairs : Formula :=
  .or (.or (.or (.or (pair "1") (pair "2")) (pair "3")) (pair "4")) (pair "5")

/-- A conjunction is distributed into its 2 parts, where the definition would have 4 clauses. The
disjunction of five conjunctions is defined by 28 clauses instead of being distributed into 32. -/
theorem optimal_picks_pairs :
    optimal.clauses (pair "1") = distributed (pair "1") ∧
      optimal.clauses fivePairs = defined fivePairs := by
  have hsmall : ∃ t n : ClauseSet String, defined (pair "1") = .ok t ∧
      distributed (pair "1") = .ok n ∧ t.size = 4 ∧ n.size = 2 := ⟨_, _, rfl, rfl, rfl, rfl⟩
  have hlarge : ∃ t n : ClauseSet String, defined fivePairs = .ok t ∧
      distributed fivePairs = .ok n ∧ t.size = 28 ∧ n.size = 32 := ⟨_, _, rfl, rfl, rfl, rfl⟩
  obtain ⟨t, n, ht, hn, htsize, hnsize⟩ := hsmall
  obtain ⟨t', n', ht', hn', htsize', hnsize'⟩ := hlarge
  obtain ⟨m, hm, hpick, -⟩ := (optimal_picks (pair "1")).2 t ht
  obtain ⟨m', hm', -, hpick', -⟩ := (optimal_picks fivePairs).2 t' ht'
  obtain rfl : n = m := Except.ok.inj (hn.symm.trans hm)
  obtain rfl : n' = m' := Except.ok.inj (hn'.symm.trans hm')
  rw [htsize, hnsize] at hpick
  rw [htsize', hnsize'] at hpick'
  exact ⟨(hpick (by decide)).trans hn.symm, (hpick' (by decide)).trans ht'.symm⟩

end Strategy

end Deduction
