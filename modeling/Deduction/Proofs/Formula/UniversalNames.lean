import Deduction.Proofs.Formula.SkolemModels
import Deduction.Proofs.Grammar.Clauses
import Mathlib

/-!
# Names of universal quantifiers

A Skolem form drops the universal quantifiers and keeps their variables, under names that
are meant to tell the quantifiers apart: the later ones over `X` are numbered `X_1`, `X_2`
and so on. The names are all different exactly if no variable of a universal quantifier is
itself spelled like one of these numbered ones that come up. Otherwise two quantifiers
share a name, and the Skolem form can say less than the formula.
-/

namespace Deduction.Formula

universe u

/-- The variables of the universal quantifiers of a formula, from left to right and from the
outside to the inside. -/
def universals : Formula → List String
  | var _ => []
  | rel _ => []
  | not f => f.universals
  | and f g => f.universals ++ g.universals
  | or f g => f.universals ++ g.universals
  | imp f g => f.universals ++ g.universals
  | iff f g => f.universals ++ g.universals
  | all x f => x :: f.universals
  | ex _ f => f.universals

/-- The names of the quantifiers that are universal at their place when equivalences have been
written out, in the order of the quantifiers. -/
def universalNames (f : Formula) : List String :=
  (givenNames f.writtenOut.universals.reverse).reverse

/-- Whether a formula in negation normal form without equivalences has a Skolem form under the
universal variables `scope` and the replacements `env` of the quantifiers around it, where the names
of its universal quantifiers are those of a list, one for each, and its Skolem symbols have the
numbers above `n`. -/
inductive NamedForm : List String → (String → Term) → Nat → List String → Formula → Formula → Prop
  | var {scope env n} (sign : Bool) (name : String) :
      NamedForm scope env n [] (signed sign (.var name)) (signed sign (.var name))
  | rel {scope env n} (sign : Bool) (r : Relation) :
      NamedForm scope env n [] (signed sign (.rel r)) (signed sign (.rel (r.bind env)))
  | and {scope env n xs ys f g p q} (hf : NamedForm scope env n xs f p)
      (hg : NamedForm scope env (n + f.exCount) ys g q) :
      NamedForm scope env n (xs ++ ys) (.and f g) (.and p q)
  | or {scope env n xs ys f g p q} (hf : NamedForm scope env n xs f p)
      (hg : NamedForm scope env (n + f.exCount) ys g q) :
      NamedForm scope env n (xs ++ ys) (.or f g) (.or p q)
  | all {scope env n xs f p} (x name : String)
      (hf : NamedForm (scope ++ [name]) (extendEnv env x (.var name)) n xs f p) :
      NamedForm scope env n (name :: xs) (.all x f) p
  | ex {scope env n xs f p} (x : String)
      (hf : NamedForm scope (extendEnv env x (.skolem (skolemSymbol (n + 1)) scope)) (n + 1) xs
        f p) :
      NamedForm scope env n xs (.ex x f) p

namespace Skolemizes

variable {scope : List String} {env : String → Term} {names names' : SkolemNames} {f p : Formula}

/-- The universal quantifiers of the formula are met one after the other. -/
theorem universal_eq (h : Skolemizes scope env names f p names') :
    names'.universal = f.universals.reverse ++ names.universal := by
  induction h with
  | var sign _ | rel sign _ => cases sign <;> rfl
  | and _ _ ihf ihg | or _ _ ihf ihg =>
    rw [ihg, ihf, universals, List.reverse_append, List.append_assoc]
  | all x _ ih =>
    rw [ih, universals, List.reverse_cons, List.append_assoc]
    rfl
  | ex _ _ ih => exact ih

/-- The names that are given are the names of the quantifiers in the Skolem form. -/
theorem exists_namedForm (h : Skolemizes scope env names f p names') :
    ∃ xs, NamedForm scope env names.symbolCount xs f p ∧
      givenNames names'.universal = xs.reverse ++ givenNames names.universal := by
  induction h with
  | var sign name => exact ⟨[], .var sign name, rfl⟩
  | rel sign r => exact ⟨[], .rel sign r, rfl⟩
  | and hf hg ihf ihg =>
    obtain ⟨xs, hp, hxs⟩ := ihf
    obtain ⟨ys, hq, hys⟩ := ihg
    rw [hf.symbolCount_eq] at hq
    exact ⟨xs ++ ys, .and hp hq, by rw [hys, hxs, List.reverse_append, List.append_assoc]⟩
  | or hf hg ihf ihg =>
    obtain ⟨xs, hp, hxs⟩ := ihf
    obtain ⟨ys, hq, hys⟩ := ihg
    rw [hf.symbolCount_eq] at hq
    exact ⟨xs ++ ys, .or hp hq, by rw [hys, hxs, List.reverse_append, List.append_assoc]⟩
  | all x _ ih =>
    obtain ⟨xs, hp, hxs⟩ := ih
    refine ⟨_, .all x _ hp, ?_⟩
    rw [hxs, List.reverse_cons, List.append_assoc]
    rfl
  | ex x _ ih =>
    obtain ⟨xs, hp, hxs⟩ := ih
    exact ⟨xs, .ex x hp, hxs⟩

end Skolemizes

/-- In the Skolem form of a formula the universal quantifiers have their names. -/
theorem namedForm_skolemForm (f : Formula) :
    NamedForm [] .var 0 f.universalNames f.writtenOut f.skolemForm := by
  obtain ⟨names, h⟩ := exists_skolemizes f
  obtain ⟨xs, hform, hxs⟩ := h.exists_namedForm
  rw [h.universal_eq, givenNames, List.append_nil, List.append_nil] at hxs
  rwa [universalNames, hxs, List.reverse_reverse]

/-- All variables that are left in the Skolem form of a closed formula are names of its universal
quantifiers. -/
theorem mem_universalNames_of_free {f : Formula} (hclosed : ∀ x, ¬ f.Free x) {x : String}
    (hx : f.skolemForm.Free x) : x ∈ f.universalNames := by
  obtain ⟨names, h⟩ := exists_skolemizes f
  have hgiven := h.forall_free (V := (· ∈ givenNames names.universal)) (by simp)
    (fun y hy => absurd (free_writtenOut.mp hy) (hclosed y)) (fun y hy => hy) x hx
  rw [h.universal_eq, List.append_nil] at hgiven
  rwa [universalNames, List.mem_reverse]

private theorem nodup_universalNames_iff {f : Formula} :
    f.universalNames.Nodup ↔ ∀ x n, 0 < n → n < f.writtenOut.universals.count x →
      universalName x n ∉ f.writtenOut.universals := by
  simp only [universalNames, List.nodup_reverse, nodup_givenNames_iff, List.count_reverse,
    List.mem_reverse]

/-- A closed formula is true wherever its Skolem form is, if its universal quantifiers have
different names. -/
theorem TrueIn.of_nodup_universalNames {f : Formula} (hclosed : ∀ x, ¬ f.Free x)
    (hnodup : f.universalNames.Nodup) {D : Type u} {M : Interpretation D}
    (hM : f.skolemForm.TrueIn M) : f.TrueIn M := by
  obtain ⟨names, h⟩ := exists_skolemizes f
  refine h.trueIn ?_ hclosed hM
  rwa [h.universal_eq, List.append_nil, ← List.nodup_reverse]

/-- The variables of the Skolem form of a closed formula are names of its universal quantifiers.
These names are all different exactly if none of the numbered ones that come up is the variable of a
universal quantifier, and then the formula is true wherever its Skolem form is. -/
theorem universal_names_apart_iff (f : Formula) (hclosed : f.freeVars = []) :
    NamedForm [] .var 0 f.universalNames f.writtenOut f.skolemForm ∧
    (∀ x ∈ f.skolemForm.freeVars, x ∈ f.universalNames) ∧
    (f.universalNames.Nodup ↔ ∀ x n, 0 < n → n < f.writtenOut.universals.count x →
      universalName x n ∉ f.writtenOut.universals) ∧
    (f.universalNames.Nodup → ∀ (D : Type u) (M : Interpretation D),
      f.skolemForm.TrueIn M → f.TrueIn M) := by
  have hfree := not_free_of_closed hclosed
  refine ⟨namedForm_skolemForm f, fun x hx => ?_, nodup_universalNames_iff, fun hnodup D M hM => ?_⟩
  · exact mem_universalNames_of_free hfree (mem_freeVars.mp hx)
  · exact hM.of_nodup_universalNames hfree hnodup

/-- The formula `∀X_2 ((∀X P(X, X_2)) ↔ (∃X Q(X)))`, in which both quantifiers over `X` are
universal in one copy of their part. -/
def sharedEquivalence : Formula :=
  .all "X_2" (.iff (.all "X" (.rel ⟨"P", [.var "X", .var "X_2"]⟩))
    (.ex "X" (.rel ⟨"Q", [.var "X"]⟩)))

/-- The name `X_1` of the second quantifier over `X` is not taken, and a third one that would have
the name `X_2` is not there. -/
theorem sharedEquivalence_names_apart :
    sharedEquivalence.freeVars = [] ∧ sharedEquivalence.universalNames = ["X_2", "X", "X_1"] ∧
      sharedEquivalence.universalNames.Nodup ∧
      ∀ M : Interpretation Nat, sharedEquivalence.skolemForm.TrueIn M →
        sharedEquivalence.TrueIn M := by
  have hclosed : sharedEquivalence.freeVars = [] := by cbv
  have huniversals : sharedEquivalence.writtenOut.universals = ["X_2", "X", "X"] := by cbv
  obtain ⟨-, -, hnodup, hmodels⟩ := universal_names_apart_iff.{0} sharedEquivalence hclosed
  have hapart : sharedEquivalence.universalNames.Nodup := by
    refine hnodup.mpr fun x n hpos hn => ?_
    rw [huniversals] at hn ⊢
    by_cases hx : x = "X"
    · obtain rfl : n = 1 := by
        subst hx
        have hcount : ["X_2", "X", "X"].count "X" = 2 := by decide
        omega
      have hname : universalName "X" 1 = "X_1" := by cbv
      rw [hx, hname]
      decide
    · have hcount : ["X_2", "X", "X"].count x ≤ 1 := by
        simp only [List.count_cons, List.count_nil, beq_iff_eq, Ne.symm hx, if_false]
        split <;> omega
      omega
  exact ⟨hclosed, by cbv, hapart, hmodels hapart Nat⟩

/-- The formula `∀X_1 ∀X ∀X R(X_1, X)`. -/
def doubleBinder : Formula :=
  .all "X_1" (.all "X" (.all "X" (.rel ⟨"R", [.var "X_1", .var "X"]⟩)))

/-- The second quantifier over `X` shares its name with the one over `X_1`. The Skolem form is
`R(X_1, X_1)`, which can be true where the formula is not. -/
theorem doubleBinder_names_shared :
    Formula.parse .firstOrder "\\all X_1: \\all X: \\all X: R(X_1, X)" = .ok doubleBinder ∧
      doubleBinder.freeVars = [] ∧ doubleBinder.universalNames = ["X_1", "X", "X_1"] ∧
      doubleBinder.skolemForm = .rel ⟨"R", [.var "X_1", .var "X_1"]⟩ ∧
      ∃ M : Interpretation Bool, doubleBinder.skolemForm.TrueIn M ∧ ¬ doubleBinder.TrueIn M := by
  have hchars : "\\all X_1: \\all X: \\all X: R(X_1, X)".toList = ['\\', 'a', 'l', 'l', ' ',
      'X', '_', '1', ':', ' ', '\\', 'a', 'l', 'l', ' ', 'X', ':', ' ', '\\', 'a', 'l', 'l', ' ',
      'X', ':', ' ', 'R', '(', 'X', '_', '1', ',', ' ', 'X', ')'] := by
    rfl
  have hparse : Formula.parse .firstOrder "\\all X_1: \\all X: \\all X: R(X_1, X)" =
      .ok doubleBinder := by
    rw [parse_eq_ok, hchars]
    exact ⟨⟨[], by cbv, rfl⟩, by decide⟩
  have hform : doubleBinder.skolemForm = .rel ⟨"R", [.var "X_1", .var "X_1"]⟩ := by cbv
  -- Over two elements, let `R` be equality.
  let M : Interpretation Bool := ⟨fun _ => true, fun _ _ => true, fun _ args => ¬ args.Nodup⟩
  refine ⟨hparse, by cbv, by cbv, hform, M, ?_, fun h => ?_⟩
  · rw [hform]
    intro v
    simp [M, Holds, Relation.Holds, Term.valueList, Term.value]
  · have hpair := h (fun _ => true) true true false
    simp [M, Holds, Relation.Holds, Term.valueList, Term.value] at hpair

end Deduction.Formula
