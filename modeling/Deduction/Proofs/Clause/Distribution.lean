import Deduction.Error
import Deduction.Proofs.Outcome
import Deduction.Proofs.Valuation
import Mathlib.Data.Bool.Basic

/-!
# Distribution keeps the meaning of a formula

Distribution accepts exactly the formulas without quantifiers whose atoms are of
the wanted kind, and the clauses that it gives are true under a valuation exactly
if the formula is. Both signs and both readings of an equivalence are covered by
one induction over the formula.

The clauses are those that come from rewriting the formula step by step: a negation is
pushed inwards by one connective, and an implication or equivalence is written out with
all below it. Rewriting does not descend in the formula, so it is shown to end by what it
still costs.
-/

namespace Deduction

namespace ClauseSet

variable {L : Type}

/-- The clauses of a conjunction are true if those of both parts are. -/
theorem eval_unite (val : L → Bool) (s t : ClauseSet L) :
    (s.unite t).eval val = (s.eval val && t.eval val) := by
  simp only [eval, unite, List.all_append]

/-- Every clause of the one set joined to every clause of the other. -/
def product (s t : ClauseSet L) : ClauseSet L :=
  ⟨s.clauses.flatMap fun c => t.clauses.map fun d => ⟨c.atoms ++ d.atoms⟩⟩

/-- The joined clauses are true if all clauses of one of the sets are. -/
theorem eval_product (val : L → Bool) (s t : ClauseSet L) :
    (s.product t).eval val = (s.eval val || t.eval val) := by
  rw [Bool.eq_iff_iff]
  simp only [eval, product, Clause.eval, List.all_flatMap, List.all_map, Function.comp_def,
    List.any_append, List.all_eq_true, Bool.or_eq_true]
  constructor
  · intro h
    by_cases hs : ∀ c ∈ s.clauses, c.atoms.any (Atom.eval val) = true
    · exact Or.inl hs
    · obtain ⟨c, hc, hfalse⟩ : ∃ c ∈ s.clauses, ¬ c.atoms.any (Atom.eval val) = true := by
        simpa only [not_forall, exists_prop] using hs
      exact Or.inr fun d hd => (h c hc d hd).resolve_left hfalse
  · rintro (hs | ht) c hc d hd
    · exact Or.inl (hs c hc)
    · exact Or.inr (ht d hd)

/-- A conversion succeeds, and its clauses are true under exactly the valuations at which `p` is
true. -/
def Denotes (x : Except ConversionError (ClauseSet L)) (p : (L → Bool) → Bool) : Prop :=
  ∃ s, x = .ok s ∧ ∀ val, s.eval val = p val

section Denotes

variable {x y : Except ConversionError (ClauseSet L)} {p q : (L → Bool) → Bool}

/-- Without a limit the clauses of a conjunction denote the conjunction. -/
theorem Denotes.conj (hx : Denotes x p) (hy : Denotes y q) :
    Denotes (do conj none (← x) (← y)) fun val => p val && q val := by
  obtain ⟨s, rfl, hs⟩ := hx
  obtain ⟨t, rfl, ht⟩ := hy
  exact ⟨s.unite t, rfl, fun val => by rw [eval_unite, hs, ht]⟩

/-- Without a limit the joined clauses of two sets denote the disjunction. -/
theorem Denotes.disj (hx : Denotes x p) (hy : Denotes y q) :
    Denotes (do disj none (← x) (← y)) fun val => p val || q val := by
  obtain ⟨s, rfl, hs⟩ := hx
  obtain ⟨t, rfl, ht⟩ := hy
  exact ⟨s.product t, rfl, fun val => by rw [eval_product, hs, ht]⟩

theorem Denotes.congr (hx : Denotes x p) (h : ∀ val, p val = q val) : Denotes x q :=
  funext h ▸ hx

end Denotes

variable [Literal L]

/-- The clause of an atom denotes it, or its negation if the sign is negative. -/
theorem denotes_ofAtom {f : Formula} {l : L} (h : Literal.ofFormula? f = some l) (sign : Bool) :
    Denotes (ofAtom sign f) fun val : L → Bool => f.atomValue val == sign := by
  refine ⟨⟨[⟨[⟨l, !sign⟩]⟩]⟩, by rw [ofAtom, h], fun val => ?_⟩
  simp only [eval, Clause.eval, Atom.eval, List.all_cons, List.all_nil, List.any_cons, List.any_nil,
    Bool.and_true, Bool.or_false, Formula.atomValue, h, Option.map_some, Option.getD_some]
  cases val l <;> cases sign <;> rfl

/-- The atomic formulas that stand for a literal of a kind. -/
def OfLiteral (L : Type) [Literal L] (f : Formula) : Prop :=
  ∃ l : L, Literal.ofFormula? f = some l

/-- Distribution of a formula without quantifiers over literals of the right kind denotes the
formula, or its negation if the sign is negative. -/
theorem denotes_distribute {f : Formula} (h : f.Composed (OfLiteral L)) (basic sign : Bool) :
    Denotes (distribute none basic sign f) fun val : L → Bool => f.eval val == sign := by
  induction f generalizing basic sign with
  | var name =>
    obtain ⟨l, hl⟩ := Formula.composed_var.mp h
    exact denotes_ofAtom hl sign
  | rel r =>
    obtain ⟨l, hl⟩ := Formula.composed_rel.mp h
    exact denotes_ofAtom hl sign
  | not f ih =>
    refine (ih (Formula.composed_not.mp h) basic (!sign)).congr fun val => ?_
    rw [Formula.eval]
    cases f.eval val <;> cases sign <;> rfl
  | and f g ihf ihg =>
    obtain ⟨hf, hg⟩ := (Formula.composed_apply (k := .and)).mp h
    cases sign with
    | true =>
      refine ((ihf hf basic true).conj (ihg hg basic true)).congr fun val => ?_
      simp [Formula.eval]
    | false =>
      refine ((ihf hf basic false).disj (ihg hg basic false)).congr fun val => ?_
      simp [Formula.eval]
  | or f g ihf ihg =>
    obtain ⟨hf, hg⟩ := (Formula.composed_apply (k := .or)).mp h
    cases sign with
    | true =>
      refine ((ihf hf basic true).disj (ihg hg basic true)).congr fun val => ?_
      simp [Formula.eval]
    | false =>
      refine ((ihf hf basic false).conj (ihg hg basic false)).congr fun val => ?_
      simp [Formula.eval]
  | imp f g ihf ihg =>
    obtain ⟨hf, hg⟩ := (Formula.composed_apply (k := .imp)).mp h
    cases sign with
    | true =>
      refine ((ihf hf true false).disj (ihg hg true true)).congr fun val => ?_
      simp [Formula.eval]
    | false =>
      refine ((ihf hf basic true).conj (ihg hg basic false)).congr fun val => ?_
      simp [Formula.eval]
  | iff f g ihf ihg =>
    obtain ⟨hf, hg⟩ := (Formula.composed_apply (k := .iff)).mp h
    have equal := ((ihf hf true true).conj (ihg hg true true)).disj
      ((ihf hf true false).conj (ihg hg true false))
    have written := ((ihf hf true false).disj (ihg hg true false)).conj
      ((ihf hf true true).disj (ihg hg true true))
    have split := ((ihf hf false true).conj (ihg hg false false)).disj
      ((ihg hg false true).conj (ihf hf false false))
    simp only [bind_assoc] at equal written split
    cases sign with
    | true =>
      refine equal.congr fun val => ?_
      rw [Formula.eval]
      cases f.eval val <;> cases g.eval val <;> rfl
    | false =>
      cases basic with
      | true =>
        refine written.congr fun val => ?_
        rw [Formula.eval]
        cases f.eval val <;> cases g.eval val <;> rfl
      | false =>
        refine split.congr fun val => ?_
        rw [Formula.eval]
        cases f.eval val <;> cases g.eval val <;> rfl
  | all x f => exact absurd h Formula.not_composed_all
  | ex x f => exact absurd h Formula.not_composed_ex

theorem ofLiteral_of_ofAtom_eq_ok {sign : Bool} {f : Formula} {s : ClauseSet L}
    (h : ofAtom sign f = .ok s) : OfLiteral L f := by
  unfold ofAtom at h
  split at h
  next l hl => exact ⟨l, hl⟩
  next => cases h

/-- Distribution within any limit accepts no other formulas. -/
theorem composed_of_distribute_eq_ok {limit : Option Nat} {basic sign : Bool} {f : Formula}
    {s : ClauseSet L} (h : distribute limit basic sign f = .ok s) : f.Composed (OfLiteral L) := by
  induction f generalizing basic sign s with
  | var name => exact Formula.composed_var.mpr (ofLiteral_of_ofAtom_eq_ok h)
  | rel r => exact Formula.composed_rel.mpr (ofLiteral_of_ofAtom_eq_ok h)
  | not f ih => exact Formula.composed_not.mpr (ih h)
  | and f g ihf ihg =>
    simp only [distribute, Outcome.bind_eq_ok] at h
    obtain ⟨s₁, hf, s₂, hg, -⟩ := h
    exact (Formula.composed_apply (k := .and)).mpr ⟨ihf hf, ihg hg⟩
  | or f g ihf ihg =>
    simp only [distribute, Outcome.bind_eq_ok] at h
    obtain ⟨s₁, hf, s₂, hg, -⟩ := h
    exact (Formula.composed_apply (k := .or)).mpr ⟨ihf hf, ihg hg⟩
  | imp f g ihf ihg =>
    refine (Formula.composed_apply (k := .imp)).mpr ?_
    rw [distribute] at h
    split at h <;> simp only [Outcome.bind_eq_ok] at h <;> obtain ⟨s₁, hf, s₂, hg, -⟩ := h <;>
      exact ⟨ihf hf, ihg hg⟩
  | iff f g ihf ihg =>
    refine (Formula.composed_apply (k := .iff)).mpr ?_
    rw [distribute] at h
    split at h
    · simp only [Outcome.bind_eq_ok] at h
      obtain ⟨s₁, hf, s₂, hg, -⟩ := h
      exact ⟨ihf hf, ihg hg⟩
    · split at h <;> simp only [Outcome.bind_eq_ok] at h <;> obtain ⟨s₁, hf, s₂, hg, -⟩ := h <;>
        exact ⟨ihf hf, ihg hg⟩
  | all x f => cases h
  | ex x f => cases h

/-- What is asked of a conversion into clauses over literals of one kind: it accepts exactly the
formulas without quantifiers over the atoms of that kind, reports any other one as not
convertible, and gives clauses that are equivalent to the formula. -/
structure EquivalentConversion (convert : Formula → Except ConversionError (ClauseSet L))
    (isAtom : Formula → Prop) : Prop where
  /-- What is accepted. -/
  accepts : ∀ f, (∃ s, convert f = .ok s) ↔
    f.quantifierFree = true ∧ ∀ a ∈ f.atoms, isAtom a
  /-- How all else is refused. -/
  refuses : ∀ f, ¬ (f.quantifierFree = true ∧ ∀ a ∈ f.atoms, isAtom a) →
    ∃ e, convert f = .error e ∧ (Error.conversion e).kind = "FormulaConversionException"
  /-- What the clauses say. -/
  equivalent : ∀ f s, convert f = .ok s → ∀ val : L → Bool,
    f.eval val = true ↔ ∀ c ∈ s.clauses, ∃ a ∈ c.atoms, a.eval val = true

/-- Distribution is an equivalent conversion over the literals of any kind. -/
theorem equivalentConversion_distributed :
    EquivalentConversion (distributed (L := L)) (OfLiteral L) := by
  have haccepts : ∀ f, (∃ s : ClauseSet L, distributed f = .ok s) ↔ f.Composed (OfLiteral L) := by
    intro f
    constructor
    · rintro ⟨s, hs⟩
      exact composed_of_distribute_eq_ok hs
    · intro hf
      obtain ⟨s, hs, -⟩ := denotes_distribute hf false true
      exact ⟨s, hs⟩
  refine ⟨haccepts, fun f hf => ?_, fun f s hs val => ?_⟩
  · cases h : distributed (L := L) f with
    | ok s => exact absurd ((haccepts f).mp ⟨s, h⟩) hf
    | error e => exact ⟨e, rfl, rfl⟩
  · obtain ⟨t, ht, heval⟩ := denotes_distribute (composed_of_distribute_eq_ok hs) false true
    obtain rfl : s = t := Except.ok.inj (hs.symm.trans ht)
    rw [← eval_eq_true, heval]
    simp

theorem ofLiteral_string : OfLiteral String = Formula.IsVariable := by
  funext f
  cases f <;> simp [OfLiteral, Literal.ofFormula?, Formula.IsVariable]

theorem ofLiteral_relation : OfLiteral Relation = Formula.IsRelation := by
  funext f
  cases f <;> simp [OfLiteral, Literal.ofFormula?, Formula.IsRelation]

/-- Distribution of propositional formulas and of first-order ones succeeds exactly if there is
no quantifier and no atom of the other logic, and then gives equivalent clauses. -/
theorem distributed_equivalent :
    EquivalentConversion (distributed (L := String)) Formula.IsVariable ∧
      EquivalentConversion (distributed (L := Relation)) Formula.IsRelation := by
  rw [← ofLiteral_string, ← ofLiteral_relation]
  exact ⟨equivalentConversion_distributed, equivalentConversion_distributed⟩

end ClauseSet

/-- How many steps rewriting a formula takes at most, or its negation if the sign is negative. -/
def Formula.rewriteCost : Bool → Formula → Nat
  | _, var _ | _, rel _ => 0
  | sign, not f => f.rewriteCost (!sign) + 1
  | true, and f g | true, or f g => f.rewriteCost true + g.rewriteCost true + 1
  | false, and f g | false, or f g => f.rewriteCost false + g.rewriteCost false + 4
  | true, imp f g => f.rewriteCost false + g.rewriteCost true + 3
  | false, imp f g => f.rewriteCost true + g.rewriteCost false + 5
  | true, iff f g => f.rewriteCost true + f.rewriteCost false + g.rewriteCost true +
      g.rewriteCost false + 6
  | false, iff f g => f.rewriteCost true + f.rewriteCost false + g.rewriteCost true +
      g.rewriteCost false + 15
  | sign, all _ f | sign, ex _ f => f.rewriteCost sign

/-- What is written out costs no more. -/
theorem Formula.rewriteCost_basicOps_le (f : Formula) (sign : Bool) :
    f.basicOps.rewriteCost sign ≤ f.rewriteCost sign := by
  induction f generalizing sign with
  | var name | rel r => exact Nat.le_refl _
  | not f ih => exact Nat.succ_le_succ (ih (!sign))
  | and f g ihf ihg | or f g ihf ihg | imp f g ihf ihg | iff f g ihf ihg =>
    have hf := And.intro (ihf true) (ihf false)
    have hg := And.intro (ihg true) (ihg false)
    cases sign <;> simp only [basicOps, rewriteCost, Bool.not_true, Bool.not_false] <;> omega
  | all x f ih | ex x f ih =>
    simp only [basicOps, rewriteCost]
    exact ih sign

namespace ClauseSet

variable {L : Type} [Literal L]

mutual

/-- The clauses of a formula, by rewriting. -/
def rewrite (limit : Option Nat) : Formula → Except ConversionError (ClauseSet L)
  | .var name => ofAtom true (.var name)
  | .rel r => ofAtom true (.rel r)
  | .not f => rewriteNegated limit f
  | .and f g => do conj limit (← rewrite limit f) (← rewrite limit g)
  | .or f g => do disj limit (← rewrite limit f) (← rewrite limit g)
  | .imp f g => rewrite limit (Formula.imp f g).basicOps
  | .iff f g => rewrite limit (Formula.iff f g).basicOps
  | .all x f => .error (.quantified (.all x f))
  | .ex x f => .error (.quantified (.ex x f))
termination_by f => f.rewriteCost true
decreasing_by
  all_goals simp only [Formula.rewriteCost, Formula.basicOps, Bool.not_true]
  all_goals grind [Formula.rewriteCost_basicOps_le]

/-- The clauses of the negation of a formula, by rewriting. -/
def rewriteNegated (limit : Option Nat) : Formula → Except ConversionError (ClauseSet L)
  | .var name => ofAtom false (.var name)
  | .rel r => ofAtom false (.rel r)
  | .not f => rewrite limit f
  | .and f g => rewrite limit (.or (.not f) (.not g))
  | .or f g => rewrite limit (.and (.not f) (.not g))
  | .imp f g => rewrite limit (.and f (.not g))
  | .iff f g => rewriteNegated limit (.and (.imp f g) (.imp g f))
  | .all x f => .error (.quantified (.all x f))
  | .ex x f => .error (.quantified (.ex x f))
termination_by f => f.rewriteCost false
decreasing_by
  all_goals simp only [Formula.rewriteCost, Bool.not_true, Bool.not_false]
  all_goals omega

end

/-- Rewriting a formula gives the clauses of distribution, be it as it stands or written out. -/
theorem rewrite_eq_distribute (limit : Option Nat) (f : Formula) :
    (rewrite limit f : Except ConversionError (ClauseSet L)) = distribute limit false true f ∧
      rewriteNegated limit f = distribute (L := L) limit false false f ∧
      rewrite limit f.basicOps = distribute (L := L) limit true true f ∧
      rewriteNegated limit f.basicOps = distribute (L := L) limit true false f := by
  induction f with
  | var name | rel r => simp [Formula.basicOps, rewrite, rewriteNegated, distribute]
  | not f ih =>
    obtain ⟨hf, hf_neg, hf_basic, hf_basicNeg⟩ := ih
    simp [Formula.basicOps, rewrite, rewriteNegated, distribute, hf, hf_neg, hf_basic, hf_basicNeg]
  | and f g ihf ihg | or f g ihf ihg | imp f g ihf ihg | iff f g ihf ihg =>
    obtain ⟨hf, hf_neg, hf_basic, hf_basicNeg⟩ := ihf
    obtain ⟨hg, hg_neg, hg_basic, hg_basicNeg⟩ := ihg
    simp [Formula.basicOps, rewrite, rewriteNegated, distribute, hf, hf_neg, hf_basic, hf_basicNeg,
      hg, hg_neg, hg_basic, hg_basicNeg]
  | all x f ih | ex x f ih => simp [Formula.basicOps, rewrite, rewriteNegated, distribute]

end ClauseSet

end Deduction
