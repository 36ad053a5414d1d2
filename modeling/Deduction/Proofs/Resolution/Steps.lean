import Deduction.Proofs.Resolution.Rules
import Mathlib

/-!
# What resolution steps derive

A resolution of two clauses adds one clause behind the others and changes nothing else.
Up to the suffix of its variables this clause consists, without repetitions, of what the
instances of the two clauses have besides the atoms that are resolved on, whether the
substitution was computed or typed in. It follows from the two clauses alone. A hyper
resolution likewise adds a clause without negative atoms that follows from its premisses.
-/

namespace Deduction.Resolution

universe u

section Resolvent

variable {L : Type} [DecidableEq L]

/-- A resolvent has the atoms of both clauses that are neither the atom nor its complement. -/
theorem mem_resolvent {first second : Clause L} {a b : Atom L} :
    b ∈ (resolvent first second a).atoms ↔
      b ∈ first.atoms ∧ b ≠ a ∨ b ∈ second.atoms ∧ b ≠ a.complement := by
  simp only [resolvent, Clause.factorized, List.mem_eraseDups, List.mem_append, List.mem_filter,
    decide_eq_true_eq]

private theorem nodup_resolvent (first second : Clause L) (a : Atom L) :
    (resolvent first second a).atoms.Nodup :=
  nodup_eraseDups _

/-- No atom of an accepted hyper resolvent is negative. -/
theorem isPositive_of_hyperResolvent_eq_ok [Literal L] {main c : Clause L}
    {sides : List (Premiss L)} (h : hyperResolvent main sides = .ok c) : c.isPositive = true := by
  simp only [hyperResolvent, refuse, ↓Outcome.guard_eq_ok, Outcome.bind_eq_ok,
    Outcome.pure_eq_ok] at h
  obtain ⟨checked, -, hpositive, rfl⟩ := h
  simpa using hpositive

omit [DecidableEq L] in
/-- The side premisses are the clauses that are named beside the atoms of the main premiss. -/
theorem sides_of_premisses_eq_ok [Literal L] {s : State L} {main : Nat}
    {atoms : KeyMap Nat (Nat × Nat)} {mainClause : Clause L} {sides : List (Premiss L)}
    (h : premisses s main atoms = .ok (mainClause, sides)) :
    atoms.entries.mapM (fun e => s.clause e.2.1) = .ok (sides.map Premiss.clause) := by
  simp only [premisses, refuse, ↓Outcome.guard_eq_ok, Outcome.bind_eq_ok,
    Outcome.pure_eq_ok] at h
  obtain ⟨-, c, -, ps, hps, heq⟩ := h
  cases heq
  refine Outcome.mapM_eq_ok_map hps fun e side hside => ?_
  obtain ⟨index, id, sideIndex⟩ := e
  simp only [Outcome.bind_eq_ok, Outcome.pure_eq_ok] at hside
  obtain ⟨a, -, d, hd, b, -, rfl⟩ := hside
  exact hd

end Resolvent

namespace FirstOrder

variable {s s' : State Relation}

/-- Under the substitution the atom of the second clause is the complement of that of the
first. -/
theorem Complementary.instantiate_eq {cs : ClauseSet Relation} {c1 c2 l1 l2 : Nat}
    {σ : Substitution} {first second : Clause Relation} {left right : Atom Relation}
    (h : Complementary cs c1 c2 l1 l2 σ first second left right) :
    right.instantiate σ = (left.instantiate σ).complement := by
  have hsign : right.negated = !left.negated := by
    rw [Bool.eq_not]
    exact h.opposite.symm
  simp only [Atom.instantiate, Atom.complement, h.unified, hsign]

/-- Whether two clauses are resolved on their atoms with the given numbers, by a substitution that
is as wanted for the literals of these atoms: the clause that comes to the others is, up to the
suffix of its variables, made of the atoms of the two instances without those resolved on, and it
follows from the two clauses. -/
def Resolves (s s' : State Relation) (c1 c2 l1 l2 : Nat)
    (wanted : Relation → Relation → Substitution → Prop) : Prop :=
  ∃ σ first second left right, ∃ r : Clause Relation,
    Complementary s.clauses c1 c2 l1 l2 σ first second left right ∧
    wanted left.lit right.lit σ ∧
    r.atoms.Nodup ∧
    (∀ a, a ∈ r.atoms ↔
      a ∈ (first.instantiate σ).atoms ∧ a ≠ left.instantiate σ ∨
      a ∈ (second.instantiate σ).atoms ∧ a ≠ right.instantiate σ) ∧
    s'.clauses = s.clauses.add (r.withSuffix (Decimal.render s.clauses.size)) ∧
    s'.hidden = s.hidden ∧
    ClauseSet.Entails.{u} ⟨[first, second]⟩ (r.withSuffix (Decimal.render s.clauses.size))

/-- Whether a main premiss is resolved with side premisses: the clause that comes to the others
has no negative atom and follows from the premisses. -/
def HyperResolves (s s' : State Relation) (main : Nat) (atoms : KeyMap Nat (Nat × Nat)) : Prop :=
  ∃ mainClause sides, ∃ c : Clause Relation, s.clause main = .ok mainClause ∧
    atoms.entries.mapM (fun e => s.clause e.2.1) = .ok sides ∧
    (∀ a ∈ c.atoms, a.negated = false) ∧
    s'.clauses = s.clauses.add c ∧ s'.hidden = s.hidden ∧
    ClauseSet.Entails.{u} ⟨mainClause :: sides⟩ c

theorem resolves_of_resolveOn {c1 c2 l1 l2 : Nat} {given : Option Substitution}
    (h : resolveOn s c1 c2 l1 l2 given = .ok s') :
    Resolves.{u} s s' c1 c2 l1 l2 fun left right σ =>
      given.elim (unify left right = .ok σ) (· = σ) := by
  obtain ⟨σ, first, second, left, right, status, hpair, hσ, rfl⟩ := exists_of_resolveOn_eq_ok h
  refine ⟨σ, first, second, left, right, _, hpair, hσ, nodup_resolvent _ _ _, fun a => ?_, rfl, rfl,
    fun D _ M htrue => ?_⟩
  · rw [mem_resolvent, hpair.instantiate_eq]
  · obtain ⟨hfirst, hsecond, -⟩ := List.forall_mem_cons.mp htrue |>.imp id List.forall_mem_cons.mp
    exact (trueIn_resolvent hfirst hsecond σ _).withSuffix _

theorem hyperResolves_of_hyper {main : Nat} {atoms : KeyMap Nat (Nat × Nat)}
    (h : hyper s main atoms = .ok s') : HyperResolves.{u} s s' main atoms := by
  obtain ⟨mainClause, sides, σ, c, hpremisses, -, hc, rfl⟩ := exists_of_hyper_eq_ok h
  have hpositive := isPositive_of_hyperResolvent_eq_ok hc
  refine ⟨mainClause, _, _, (mem_of_premisses_eq_ok hpremisses).1,
    sides_of_premisses_eq_ok hpremisses, ?_, rfl, rfl, fun D _ M htrue => ?_⟩
  · simp only [Clause.withSuffix, List.forall_mem_map, Atom.withSuffix]
    simpa [Clause.isPositive] using hpositive
  · obtain ⟨hmain, hsides⟩ := List.forall_mem_cons.mp htrue
    rw [List.forall_mem_map] at hsides
    exact (trueIn_hyperResolvent hpremisses hmain hsides hc).withSuffix _

/-- The search for atoms to resolve on finds literals that are equal to the given one. -/
theorem eq_of_firstPair {first second : Clause Relation} {literal : Option Relation} {l1 l2 : Nat}
    (h : firstPair first second literal = some (l1, l2)) {left right : Atom Relation}
    (hleft : first.atoms[l1]? = some left) (hright : second.atoms[l2]? = some right) :
    ∀ lit ∈ literal, left.lit = lit ∧ right.lit = lit := by
  obtain ⟨⟨a, i⟩, ha, h⟩ := List.exists_of_findSome?_eq_some h
  obtain ⟨⟨b, j⟩, hb, h⟩ := List.exists_of_findSome?_eq_some h
  rw [List.mk_mem_zipIdx_iff_getElem?] at ha hb
  simp only [Option.ite_none_right_eq_some, Option.some.injEq, Prod.mk.injEq, Bool.and_eq_true,
    Option.all_eq_true, decide_eq_true_eq] at h
  obtain ⟨⟨⟨⟨-, hselected⟩, hselected'⟩, -⟩, rfl, rfl⟩ := h
  cases hleft.symm.trans ha
  cases hright.symm.trans hb
  exact fun lit hlit => ⟨(hselected lit hlit).symm, (hselected' lit hlit).symm⟩

/-- Every accepted resolution step derives the clause that it should, from its own premisses, and
leaves all other clauses as they are. A search resolves on literals that are equal to the given
one, if there is one; a search and a choice of atoms use the most general substitution, and a
typed-in substitution is used as it is. -/
theorem resolution_steps_exact (s s' : State Relation) :
    (∀ c1 c2 literal, step s (.resolve c1 c2 literal) = .ok s' → ∃ l1 l2,
      Resolves.{u} s s' c1 c2 l1 l2 fun left right σ => unify left right = .ok σ ∧
        ∀ text ∈ literal, Relation.parse text = .ok left ∧ Relation.parse text = .ok right) ∧
    (∀ c1 c2 l1 l2, step s (.resolveUnify c1 c2 l1 l2) = .ok s' →
      Resolves.{u} s s' c1 c2 l1 l2 fun left right σ => unify left right = .ok σ) ∧
    (∀ c1 c2 l1 l2 assignment, step s (.resolveCustom c1 c2 l1 l2 assignment) = .ok s' →
      Resolves.{u} s s' c1 c2 l1 l2 fun _ _ σ => Substitution.parse assignment = .ok σ) ∧
    ∀ main atoms, step s (.hyper main atoms) = .ok s' → HyperResolves.{u} s s' main atoms := by
  refine ⟨fun c1 c2 literal h => ?_, fun c1 c2 l1 l2 h => ?_,
    fun c1 c2 l1 l2 assignment h => ?_, fun main atoms h => ?_⟩
  · simp only [step, Outcome.bind_eq_ok, Outcome.ofText_eq_ok] at h
    obtain ⟨lit, hlit, h⟩ := h
    obtain ⟨first, second, l1, l2, hfirst, hsecond, hpair, h⟩ := exists_of_resolve_eq_ok h
    obtain ⟨σ, first', second', left, right, r, hatoms, hσ, hr⟩ := resolves_of_resolveOn.{u} h
    cases (State.clause_eq_ok.mp hfirst).symm.trans hatoms.clause1
    cases (State.clause_eq_ok.mp hsecond).symm.trans hatoms.clause2
    refine ⟨l1, l2, σ, first, second, left, right, r, hatoms, ⟨hσ, ?_⟩, hr⟩
    rintro text ⟨⟩
    cases hparse : Relation.parse text with
    | error e =>
      rw [Option.mapM_some, hparse] at hlit
      cases hlit
    | ok rel =>
      rw [Option.mapM_some, hparse] at hlit
      cases hlit
      obtain ⟨hleft, hright⟩ := eq_of_firstPair hpair hatoms.atom1 hatoms.atom2 rel rfl
      exact ⟨congrArg Except.ok hleft.symm, congrArg Except.ok hright.symm⟩
  · rw [step] at h
    exact resolves_of_resolveOn h
  · simp only [step, Outcome.bind_eq_ok, Outcome.ofText_eq_ok] at h
    obtain ⟨τ, hτ, h⟩ := h
    obtain ⟨σ, first, second, left, right, r, hatoms, rfl, hr⟩ := resolves_of_resolveOn.{u} h
    exact ⟨τ, first, second, left, right, r, hatoms, hτ, hr⟩
  · rw [step] at h
    obtain ⟨mainClause, sides, c, hmain, hsides, hc⟩ := hyperResolves_of_hyper.{u} h
    exact ⟨mainClause, sides, c, hmain, hsides, hc⟩

/-- Two clauses, `{R(X), R(c), Q(X)}` and `{¬R(Z), ¬R(c)}`, that have an atom in common under the
right substitution. -/
def overlapping : State Relation :=
  .initial ⟨[⟨[⟨⟨"R", [.var "X"]⟩, false⟩, ⟨⟨"R", [.const "c"]⟩, false⟩,
      ⟨⟨"Q", [.var "X"]⟩, false⟩]⟩,
    ⟨[⟨⟨"R", [.var "Z"]⟩, true⟩, ⟨⟨"R", [.const "c"]⟩, true⟩]⟩]⟩ false

/-- The clauses are resolved on their common literal, on their first atoms, with a typed-in
substitution that makes the atoms of each equal, and on both atoms of the second at once. -/
theorem overlapping_resolves :
    (∃ s' l1 l2, step overlapping (.resolve 0 1 (some "R(c)")) = .ok s' ∧
      Resolves.{0} overlapping s' 0 1 l1 l2 fun left right σ => unify left right = .ok σ ∧
        ∀ text ∈ some "R(c)", Relation.parse text = .ok left ∧ Relation.parse text = .ok right) ∧
    (∃ s', step overlapping (.resolveUnify 0 1 0 0) = .ok s' ∧
      Resolves.{0} overlapping s' 0 1 0 0 fun left right σ => unify left right = .ok σ) ∧
    (∃ s', step overlapping (.resolveCustom 0 1 0 0 (.ofList [("X", "c"), ("Z", "c")])) = .ok s' ∧
      Resolves.{0} overlapping s' 0 1 0 0 fun _ _ σ =>
        Substitution.parse (.ofList [("X", "c"), ("Z", "c")]) = .ok σ) ∧
    ∃ s', step overlapping (.hyper 1 (.ofList [(0, 0, 0), (1, 0, 1)])) = .ok s' ∧
      HyperResolves.{0} overlapping s' 1 (.ofList [(0, 0, 0), (1, 0, 1)]) := by
  have hliteral : Relation.parse "R(c)" = .ok ⟨"R", [.const "c"]⟩ := by cbv
  have hsearch : step overlapping (.resolve 0 1 (some "R(c)")) =
      .ok (overlapping.push ⟨[⟨⟨"R", [.var "X_2"]⟩, false⟩, ⟨⟨"Q", [.var "X_2"]⟩, false⟩,
        ⟨⟨"R", [.var "Z_2"]⟩, true⟩]⟩) := by
    rw [step, Option.mapM_some, hliteral]
    cbv
  have hchosen : step overlapping (.resolveUnify 0 1 0 0) =
      .ok (overlapping.push ⟨[⟨⟨"R", [.const "c"]⟩, false⟩, ⟨⟨"Q", [.var "Z_2"]⟩, false⟩,
        ⟨⟨"R", [.const "c"]⟩, true⟩]⟩) := by cbv
  have hparse : Substitution.parse (.ofList [("X", "c"), ("Z", "c")]) =
      .ok (.ofList [("X", .const "c"), ("Z", .const "c")]) := by cbv
  have htyped : step overlapping (.resolveCustom 0 1 0 0 (.ofList [("X", "c"), ("Z", "c")])) =
      .ok { overlapping.push ⟨[⟨⟨"Q", [.const "c"]⟩, false⟩]⟩ with
        status := some "The unifier you specified is not an MGU" } := by
    rw [step, hparse]
    cbv
  have hhyper : step overlapping (.hyper 1 (.ofList [(0, 0, 0), (1, 0, 1)])) =
      .ok (overlapping.push ⟨[⟨⟨"R", [.const "c"]⟩, false⟩, ⟨⟨"Q", [.var "X_2"]⟩, false⟩,
        ⟨⟨"R", [.var "X_2"]⟩, false⟩]⟩) := by cbv
  obtain ⟨l1, l2, hresolves⟩ := (resolution_steps_exact _ _).1 _ _ _ hsearch
  exact ⟨⟨_, l1, l2, hsearch, hresolves⟩,
    ⟨_, hchosen, (resolution_steps_exact _ _).2.1 _ _ _ _ hchosen⟩,
    ⟨_, htyped, (resolution_steps_exact _ _).2.2.1 _ _ _ _ _ htyped⟩,
    ⟨_, hhyper, (resolution_steps_exact _ _).2.2.2 _ _ hhyper⟩⟩

end FirstOrder

end Deduction.Resolution
