import Deduction.Proofs.Clause.Distribution
import Deduction.Proofs.Formula.SkolemModels
import Deduction.Proofs.Grammar.Clauses
import Mathlib

/-!
# Clauses of first-order formulas

The clauses of a first-order formula are those of its Skolem form, and they are true
where the Skolem form is. A closed formula is satisfiable exactly if its clauses are, as
long as none of its symbols is spelled like a Skolem symbol and none of its bound
variables like a numbered one. The first of these conditions is needed: Skolem symbols
are numbered without regard to the symbols of the formula, so they can be among them,
and then the clauses of a satisfiable formula can contradict each other.
-/

namespace Deduction

open Formula

universe u

section Holds

variable {D : Type u} {M : Interpretation D} {v : String → D} {val : Relation → Bool}

/-- An atom is true under the valuation of relations by an interpretation where it holds. -/
theorem Atom.eval_eq_true_iff (hval : ∀ r, val r = true ↔ r.Holds M v) (a : Atom Relation) :
    a.eval val = true ↔ a.Holds M v := by
  rw [Atom.eval, Atom.Holds, ← hval]
  cases a.negated <;> cases val a.lit <;> simp

/-- The clauses that distribution gives are true where the formula is. -/
theorem ClauseSet.trueIn_iff_of_distributed {f : Formula} {s : ClauseSet Relation}
    (h : ClauseSet.distributed f = .ok s) : s.TrueIn M ↔ f.TrueIn M := by
  classical
  have hcomposed := ofLiteral_relation ▸ composed_of_distribute_eq_ok h
  have hholds (v : String → D) : f.Holds M v ↔ ∀ c ∈ s.clauses, c.Holds M v := by
    let val (r : Relation) : Bool := decide (r.Holds M v)
    have hval (r : Relation) : val r = true ↔ r.Holds M v := decide_eq_true_iff
    have hatom (a : Formula) (ha : IsRelation a) : a.Holds M v ↔ a.eval val = true := by
      obtain ⟨r, rfl⟩ := ha
      exact (hval r).symm
    rw [holds_iff_eval M hatom hcomposed, equivalentConversion_distributed.equivalent f s h val]
    exact forall₂_congr fun c _ => exists_congr fun a =>
      and_congr_right fun _ => Atom.eval_eq_true_iff hval a
  rw [Formula.TrueIn, forall_congr' hholds]
  exact ⟨fun h v c hc => h c hc v, fun h c hc v => h v c hc⟩

end Holds

namespace ClauseSet

variable {f : Formula}

/-- A formula over relations has clauses. -/
theorem exists_ofFirstOrder (hatoms : ∀ a ∈ f.atoms, IsRelation a) :
    ∃ s, ofFirstOrder f = .ok s :=
  (equivalentConversion_distributed.accepts f.skolemForm).mpr
    (ofLiteral_relation ▸ composed_skolemForm hatoms)

/-- The clauses of a closed formula are true over every domain over which the formula is, if the
formula has none of its Skolem symbols. -/
theorem exists_trueIn_of_new {s : ClauseSet Relation} (h : ofFirstOrder f = .ok s)
    (hclosed : f.freeVars = []) (hnew : ∀ a ∈ f.skolemSymbols, a ∉ f.symbols) {D : Type u}
    (hmodel : ∃ M : Interpretation D, f.TrueIn M) : ∃ M : Interpretation D, s.TrueIn M := by
  obtain ⟨M, hM⟩ := hmodel
  obtain ⟨M', hM'⟩ := exists_trueIn_skolemForm (not_free_of_closed hclosed) hnew hM
  exact ⟨M', (trueIn_iff_of_distributed h).mpr hM'⟩

/-- A closed first-order formula whose symbols are not spelled like Skolem symbols and whose bound
variables are not spelled like numbered ones has clauses. They are satisfiable over the same
domains as the formula, and the formula is true wherever they are. -/
theorem ofFirstOrder_equisatisfiable (hatoms : ∀ a ∈ f.atoms, IsRelation a)
    (hclosed : f.freeVars = []) (hsymbols : ∀ n, skolemSymbol n ∉ f.symbols)
    (hbinders : ∀ x ∈ f.binders, ¬ IsNumbered x) :
    ∃ s, ofFirstOrder f = .ok s ∧
      ∀ (D : Type u) [Nonempty D],
        ((∃ M : Interpretation D, f.TrueIn M) ↔ ∃ M : Interpretation D, s.TrueIn M) ∧
          ∀ M : Interpretation D, s.TrueIn M → f.TrueIn M := by
  obtain ⟨s, hs⟩ := exists_ofFirstOrder hatoms
  refine ⟨s, hs, fun D _ => ?_⟩
  have hconverse (M : Interpretation D) (hM : s.TrueIn M) : f.TrueIn M :=
    .of_skolemForm (not_free_of_closed hclosed) hbinders ((trueIn_iff_of_distributed hs).mp hM)
  have hnew : ∀ a ∈ f.skolemSymbols, a ∉ f.symbols := by
    intro a ha
    obtain ⟨k, -, -, rfl⟩ := mem_skolemSymbols.mp ha
    exact hsymbols k
  exact ⟨⟨exists_trueIn_of_new hs hclosed hnew, fun ⟨M, hM⟩ => ⟨M, hconverse M hM⟩⟩, hconverse⟩

/-- The formula `∀X (R(c, X) ↔ ∃Y R(X, Y))`, in which the inner quantifier is existential in one
half of the equivalence and universal in the other. -/
def boundedBelow : Formula :=
  .all "X" (.iff (.rel ⟨"R", [.const "c", .var "X"]⟩)
    (.ex "Y" (.rel ⟨"R", [.var "X", .var "Y"]⟩)))

/-- The natural numbers in their order satisfy `∀X (R(c, X) ↔ ∃Y R(X, Y))`, so its clauses are
satisfiable over them. -/
theorem boundedBelow_equisatisfiable :
    (∀ a ∈ boundedBelow.atoms, IsRelation a) ∧ boundedBelow.freeVars = [] ∧
      (∀ n, skolemSymbol n ∉ boundedBelow.symbols) ∧
      (∀ x ∈ boundedBelow.binders, ¬ IsNumbered x) ∧
      ∃ s, ofFirstOrder boundedBelow = .ok s ∧ ∃ M : Interpretation Nat, s.TrueIn M := by
  have hatoms : ∀ a ∈ boundedBelow.atoms, IsRelation a := by
    simp [boundedBelow, atoms, IsRelation]
  have hclosed : boundedBelow.freeVars = [] := by decide
  have hsymbols (n : Nat) : skolemSymbol n ∉ boundedBelow.symbols := by
    intro hmem
    have hname : skolemSymbol n = "c" := by
      simpa [boundedBelow, symbols, Relation.symbols, Term.symbolsList, Term.symbols] using hmem
    have hchars := congrArg String.toList hname
    simp [skolemSymbol] at hchars
  have hbinders : ∀ x ∈ boundedBelow.binders, ¬ IsNumbered x := by
    intro x hx
    apply not_isNumbered_of_notMem
    revert x
    decide
  obtain ⟨s, hs, hmodels⟩ := ofFirstOrder_equisatisfiable hatoms hclosed hsymbols hbinders
  let order : Interpretation Nat :=
    ⟨fun _ => 0, fun _ _ => 0, fun _ args => args.IsChain (· ≤ ·)⟩
  have horder : boundedBelow.TrueIn order := by
    intro v d
    refine ⟨fun _ => ⟨d, ?_⟩, fun _ => ?_⟩ <;>
      simp [order, Formula.Holds, Relation.Holds, Term.valueList, Term.value]
  exact ⟨hatoms, hclosed, hsymbols, hbinders, s, hs, (hmodels Nat).1.mp ⟨order, horder⟩⟩

/-- The symbols in the Skolem form of a formula that is read are those of the formula and its
Skolem symbols, and it has clauses. If no Skolem symbol occurs in the formula, these are
satisfiable over every domain over which the formula is. -/
theorem satisfiable_of_new_skolemSymbols {text : String}
    (hparse : Formula.parse .firstOrder text = .ok f) :
    (∀ a ∈ f.skolemForm.symbols, a ∈ f.symbols ∨ a ∈ f.skolemSymbols) ∧
      ∃ s, ofFirstOrder f = .ok s ∧
        ((∀ a ∈ f.skolemSymbols, a ∉ f.symbols) →
          ∀ (D : Type u) [Nonempty D], (∃ M : Interpretation D, f.TrueIn M) →
            ∃ M : Interpretation D, s.TrueIn M) := by
  obtain ⟨s, hs⟩ := exists_ofFirstOrder (isRelation_of_parse hparse)
  have hclosed := (readable_of_parse hparse).2
  exact ⟨symbols_skolemForm f, s, hs, fun hnew D _ => exists_trueIn_of_new hs hclosed hnew⟩

/-- The formula `R(c) ∧ ∃X ¬R(X)` with any constant `c`. -/
def oneFails (c : String) : Formula :=
  .and (.rel ⟨"R", [.const c]⟩) (.ex "X" (.not (.rel ⟨"R", [.var "X"]⟩)))

theorem skolemSymbols_oneFails (c : String) : (oneFails c).skolemSymbols = ["sk1"] := by
  cbv

/-- The clauses of `R(c) ∧ ∃X ¬R(X)` are `R(c)` and `¬R(sk1)`. -/
theorem ofFirstOrder_oneFails (c : String) :
    ofFirstOrder (oneFails c) =
      .ok ⟨[⟨[⟨⟨"R", [.const c]⟩, false⟩]⟩, ⟨[⟨⟨"R", [.const "sk1"]⟩, true⟩]⟩]⟩ := by
  cbv

/-- Over two elements, one of them named by the constant, `R` can hold of that one only. -/
theorem exists_trueIn_oneFails (c : String) :
    ∃ M : Interpretation Bool, (oneFails c).TrueIn M := by
  refine ⟨⟨fun _ => true, fun _ _ => true, fun _ args => args = [true]⟩, fun _ => ⟨rfl, false, ?_⟩⟩
  simp [Formula.Holds, Relation.Holds, Term.valueList, Term.value]

/-- The only Skolem symbol of `R(sk2) ∧ ∃X ¬R(X)` is `sk1`, so its clauses are satisfiable. -/
theorem oneFails_satisfiable_of_new :
    Formula.parse .firstOrder "R(sk2) & \\ex X: !R(X)" = .ok (oneFails "sk2") ∧
      (∀ a ∈ (oneFails "sk2").skolemSymbols, a ∉ (oneFails "sk2").symbols) ∧
      ∃ s, ofFirstOrder (oneFails "sk2") = .ok s ∧ ∃ M : Interpretation Bool, s.TrueIn M := by
  have hchars : "R(sk2) & \\ex X: !R(X)".toList = ['R', '(', 's', 'k', '2', ')', ' ', '&', ' ',
      '\\', 'e', 'x', ' ', 'X', ':', ' ', '!', 'R', '(', 'X', ')'] := by
    rfl
  have hparse : Formula.parse .firstOrder "R(sk2) & \\ex X: !R(X)" = .ok (oneFails "sk2") := by
    rw [parse_eq_ok, hchars]
    exact ⟨⟨[], by cbv, rfl⟩, by decide⟩
  have hnew : ∀ a ∈ (oneFails "sk2").skolemSymbols, a ∉ (oneFails "sk2").symbols := by
    rw [skolemSymbols_oneFails]
    decide
  obtain ⟨-, s, hs, hmodels⟩ := satisfiable_of_new_skolemSymbols hparse
  exact ⟨hparse, hnew, s, hs, hmodels hnew Bool (exists_trueIn_oneFails "sk2")⟩

/-- The formula `R(sk1) ∧ ∃X ¬R(X)` is read and is satisfiable, but its Skolem symbol is the
constant that it has already, so its clauses `R(sk1)` and `¬R(sk1)` contradict each other. -/
theorem oneFails_unsatisfiable_clauses :
    Formula.parse .firstOrder "R(sk1) & \\ex X: !R(X)" = .ok (oneFails "sk1") ∧
      (∃ a ∈ (oneFails "sk1").skolemSymbols, a ∈ (oneFails "sk1").symbols) ∧
      (∃ M : Interpretation Bool, (oneFails "sk1").TrueIn M) ∧
      ∃ s, ofFirstOrder (oneFails "sk1") = .ok s ∧ Unsatisfiable.{u} s := by
  have hchars : "R(sk1) & \\ex X: !R(X)".toList = ['R', '(', 's', 'k', '1', ')', ' ', '&', ' ',
      '\\', 'e', 'x', ' ', 'X', ':', ' ', '!', 'R', '(', 'X', ')'] := by
    rfl
  have hparse : Formula.parse .firstOrder "R(sk1) & \\ex X: !R(X)" = .ok (oneFails "sk1") := by
    rw [parse_eq_ok, hchars]
    exact ⟨⟨[], by cbv, rfl⟩, by decide⟩
  have hmem : "sk1" ∈ (oneFails "sk1").skolemSymbols := by
    rw [skolemSymbols_oneFails]
    exact List.mem_singleton_self "sk1"
  refine ⟨hparse, ⟨"sk1", hmem, by decide⟩, exists_trueIn_oneFails "sk1", _,
    ofFirstOrder_oneFails "sk1", fun D _ M h => ?_⟩
  have v : String → D := fun _ => M.const "sk1"
  obtain ⟨hpositive, hnegative⟩ := List.forall_mem_cons.mp h
  obtain ⟨a, ha, hholds⟩ := hpositive v
  obtain ⟨b, hb, hfails⟩ := List.forall_mem_singleton.mp hnegative v
  rw [List.mem_singleton.mp ha] at hholds
  rw [List.mem_singleton.mp hb] at hfails
  exact hfails hholds

end ClauseSet

end Deduction
