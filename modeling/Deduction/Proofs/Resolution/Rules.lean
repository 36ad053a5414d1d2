import Deduction.Proofs.Resolution.Clauses
import Deduction.Proofs.Semantics
import Deduction.Resolution.FirstOrder
import Mathlib.Data.List.Chain

/-!
# Truth along a resolution proof

Every move adds only clauses that are true wherever the clauses before it are,
with one exception: merging atoms of a clause when the position of the atom to be
kept is chosen a second time. What is true of one move carries over to a whole run
of moves.
-/

namespace Deduction.Resolution

universe u

variable {D : Type u} {M : Interpretation D}

namespace State

/-- Whether all clauses of a proof are true. -/
def TrueIn (M : Interpretation D) (s : State Relation) : Prop := ∀ c ∈ s.all, c.TrueIn M

variable {s : State Relation} {c : Clause Relation}

theorem TrueIn.of_clause {id : Nat} (hs : s.TrueIn M) (h : s.clause id = .ok c) : c.TrueIn M :=
  hs c (mem_all_of_clause_eq_ok h)

/-- What is derived is true as well. -/
theorem TrueIn.add {s' : State Relation} (hs : s.TrueIn M) (hc : c.TrueIn M)
    (h : s'.all.Perm (c :: s.all)) : s'.TrueIn M := by
  intro d hd
  rcases List.mem_cons.mp (h.subset hd) with rfl | hd
  · exact hc
  · exact hs d hd

end State

namespace FirstOrder

variable {s s' : State Relation}

/-- Two clauses of a set, by their numbers, with an atom of each, by its number, that a
substitution makes complementary. -/
structure Complementary (cs : ClauseSet Relation) (c1 c2 l1 l2 : Nat) (σ : Substitution)
    (first second : Clause Relation) (left right : Atom Relation) : Prop where
  /-- The first clause. -/
  clause1 : cs.get? c1 = some first
  /-- The second clause. -/
  clause2 : cs.get? c2 = some second
  /-- The atom of the first clause. -/
  atom1 : first.atoms[l1]? = some left
  /-- The atom of the second clause. -/
  atom2 : second.atoms[l2]? = some right
  /-- The atoms have opposite signs. -/
  opposite : left.negated ≠ right.negated
  /-- The substitution makes their literals equal. -/
  unified : left.lit.instantiate σ = right.lit.instantiate σ

/-- A resolution on chosen atoms adds the resolvent of two instances, under a suffix. -/
theorem exists_of_resolveOn_eq_ok {c1 c2 l1 l2 : Nat} {given : Option Substitution}
    (h : resolveOn s c1 c2 l1 l2 given = .ok s') :
    ∃ σ first second left right status,
      Complementary s.clauses c1 c2 l1 l2 σ first second left right ∧
      given.elim (unify left.lit right.lit = .ok σ) (· = σ) ∧
      s' = { s.push ((resolvent (first.instantiate σ) (second.instantiate σ)
        (left.instantiate σ)).withSuffix (Decimal.render s.clauses.size)) with
          status := status } := by
  cases given with
  | none =>
    simp only [resolveOn, refuse, ↓Outcome.guard_eq_ok, Outcome.bind_eq_ok,
      Outcome.pure_eq_ok, State.atom] at h
    obtain ⟨-, left, ⟨first, hfirst, hleft⟩, right, ⟨second, hsecond, hright⟩, hsign, σ, hσ,
      hunified, first', hfirst', second', hsecond', rfl⟩ := h
    cases hfirst.symm.trans hfirst'
    cases hsecond.symm.trans hsecond'
    refine ⟨σ, first, second, left, right, _, ⟨State.clause_eq_ok.mp hfirst,
      State.clause_eq_ok.mp hsecond, State.atomOf_eq_ok.mp hleft,
      State.atomOf_eq_ok.mp hright, hsign, not_not.mp hunified⟩, ?_, rfl⟩
    rw [unifier] at hσ
    split at hσ
    next hunify =>
      cases hσ
      exact hunify
    next => cases hσ
  | some τ =>
    simp only [resolveOn, refuse, ↓Outcome.guard_eq_ok, Outcome.bind_eq_ok,
      Outcome.pure_eq_ok, State.atom] at h
    obtain ⟨-, left, ⟨first, hfirst, hleft⟩, right, ⟨second, hsecond, hright⟩, hsign, σ, hσ,
      hunified, first', hfirst', second', hsecond', rfl⟩ := h
    cases hfirst.symm.trans hfirst'
    cases hsecond.symm.trans hsecond'
    refine ⟨σ, first, second, left, right, ?_, ⟨State.clause_eq_ok.mp hfirst,
      State.clause_eq_ok.mp hsecond, State.atomOf_eq_ok.mp hleft,
      State.atomOf_eq_ok.mp hright, hsign, not_not.mp hunified⟩, hσ, ?_⟩
    · exact if isMostGeneral τ left.lit right.lit then s.status else some notMostGeneral
    · split <;> rfl

/-- A search for atoms to resolve on ends in a resolution on chosen atoms. -/
theorem exists_of_resolve_eq_ok {c1 c2 : Nat} {literal : Option Relation}
    (h : resolve s c1 c2 literal = .ok s') :
    ∃ first second l1 l2, s.clause c1 = .ok first ∧ s.clause c2 = .ok second ∧
      firstPair first second literal = some (l1, l2) ∧ resolveOn s c1 c2 l1 l2 none = .ok s' := by
  simp only [resolve, refuse, ↓Outcome.guard_eq_ok, Outcome.bind_eq_ok] at h
  obtain ⟨-, first, hfirst, second, hsecond, h⟩ := h
  split at h
  next l1 l2 hpair => exact ⟨first, second, l1, l2, hfirst, hsecond, hpair, h⟩
  next => cases h

/-- A resolution of several atoms at once adds the hyper resolvent of instances, under a suffix. -/
theorem exists_of_hyper_eq_ok {main : Nat} {atoms : KeyMap Nat (Nat × Nat)}
    (h : hyper s main atoms = .ok s') :
    ∃ mainClause sides σ c, premisses s main atoms = .ok (mainClause, sides) ∧
      unifyAll (sides.map fun side => (side.mainAtom.lit, side.sideAtom.lit)) = .ok σ ∧
      hyperResolvent (mainClause.instantiate σ) (sides.map (instantiatePremiss σ)) = .ok c ∧
      s' = s.push (c.withSuffix (Decimal.render s.clauses.size)) := by
  simp only [hyper, refuse, Outcome.bind_eq_ok] at h
  obtain ⟨⟨mainClause, sides⟩, hpremisses, h⟩ := h
  split at h
  next => cases h
  next σ hσ =>
    simp only [Outcome.bind_eq_ok, Outcome.pure_eq_ok] at h
    obtain ⟨c, hc, rfl⟩ := h
    exact ⟨mainClause, sides, σ, c, hpremisses, hσ, hc, rfl⟩

/-- A resolvent of instances is true where both clauses are. -/
theorem trueIn_resolvent {first second : Clause Relation} (hfirst : first.TrueIn M)
    (hsecond : second.TrueIn M) (σ : Substitution) (a : Atom Relation) :
    (resolvent (first.instantiate σ) (second.instantiate σ) a).TrueIn M :=
  fun v => exists_true_resolvent (Atom.holds_complement M v) a (hfirst.instantiate σ v)
    (hsecond.instantiate σ v)

theorem trueIn_resolveOn {c1 c2 l1 l2 : Nat} {given : Option Substitution} (hs : s.TrueIn M)
    (h : resolveOn s c1 c2 l1 l2 given = .ok s') : s'.TrueIn M := by
  obtain ⟨σ, first, second, left, right, status, hpair, -, rfl⟩ := exists_of_resolveOn_eq_ok h
  have hresolvent := trueIn_resolvent (hs.of_clause (State.clause_eq_ok.mpr hpair.clause1))
    (hs.of_clause (State.clause_eq_ok.mpr hpair.clause2)) σ (left.instantiate σ)
  exact hs.add (hresolvent.withSuffix _) (State.all_push s _)

theorem trueIn_resolve {c1 c2 : Nat} {literal : Option Relation} (hs : s.TrueIn M)
    (h : resolve s c1 c2 literal = .ok s') : s'.TrueIn M := by
  obtain ⟨first, second, l1, l2, -, -, -, h⟩ := exists_of_resolve_eq_ok h
  exact trueIn_resolveOn hs h

/-- A hyper resolvent of instances is true where its premisses are. -/
theorem trueIn_hyperResolvent {main : Nat} {atoms : KeyMap Nat (Nat × Nat)}
    {mainClause c : Clause Relation} {sides : List (Premiss Relation)} {σ : Substitution}
    (hpremisses : premisses s main atoms = .ok (mainClause, sides)) (hmain : mainClause.TrueIn M)
    (hsides : ∀ side ∈ sides, side.clause.TrueIn M)
    (hc : hyperResolvent (mainClause.instantiate σ) (sides.map (instantiatePremiss σ)) = .ok c) :
    c.TrueIn M := by
  intro v
  refine exists_true_hyperResolvent (Atom.holds_complement M v) (hmain.instantiate σ v) ?_ hc
  simp only [List.forall_mem_map]
  intro side hside
  obtain ⟨-, hatom, hindex⟩ := (mem_of_premisses_eq_ok hpremisses).2 side hside
  refine ⟨(hsides side hside).instantiate σ v, List.mem_map_of_mem hatom, ?_⟩
  simp only [instantiatePremiss, Clause.instantiate, List.getElem?_map, hindex, Option.map_some]

theorem trueIn_hyper {main : Nat} {atoms : KeyMap Nat (Nat × Nat)} (hs : s.TrueIn M)
    (h : hyper s main atoms = .ok s') : s'.TrueIn M := by
  obtain ⟨mainClause, sides, σ, c, hpremisses, -, hc, rfl⟩ := exists_of_hyper_eq_ok h
  obtain ⟨hmain, hsides⟩ := mem_of_premisses_eq_ok hpremisses
  have hclause := trueIn_hyperResolvent hpremisses (hs.of_clause hmain) (fun side hside => by
    obtain ⟨⟨id, hid⟩, -⟩ := hsides side hside
    exact hs.of_clause hid) hc
  exact hs.add (hclause.withSuffix _) (State.all_push s _)

/-- Making atoms of a clause equal gives an instance of the clause. -/
theorem trueIn_mergeAtoms {c c' : Clause Relation} {atoms : List Nat} (hc : c.TrueIn M)
    (h : mergeAtoms c atoms = .ok c') : c'.TrueIn M := by
  induction atoms generalizing c with
  | nil =>
    cases h
    exact hc
  | cons i rest ih =>
    cases rest with
    | nil =>
      cases h
      exact hc
    | cons j rest =>
      simp only [mergeAtoms, refuse, ↓Outcome.guard_eq_ok, Outcome.bind_eq_ok] at h
      obtain ⟨-, first, -, second, -, -, σ, -, h⟩ := h
      exact ih (hc.instantiate σ) h

/-- No atom is made equal to itself. -/
theorem isChain_of_mergeAtoms_eq_ok {c c' : Clause Relation} {atoms : List Nat}
    (h : mergeAtoms c atoms = .ok c') : atoms.IsChain (· ≠ ·) := by
  induction atoms generalizing c with
  | nil => exact .nil
  | cons i rest ih =>
    cases rest with
    | nil => exact .singleton i
    | cons j rest =>
      simp only [mergeAtoms, refuse, ↓Outcome.guard_eq_ok, Outcome.bind_eq_ok] at h
      obtain ⟨hne, first, -, second, -, -, σ, -, h⟩ := h
      exact .cons_cons hne (ih h)

/-- Merging atoms drops none of them altogether, provided that the first chosen position is not
chosen again. -/
theorem trueIn_factorize {c1 i : Nat} {rest : List Nat} (hs : s.TrueIn M) (hi : i ∉ rest)
    (h : factorize s c1 (i :: rest) = .ok s') : s'.TrueIn M := by
  simp only [factorize, refuse, ↓Outcome.guard_eq_ok, Outcome.bind_eq_ok,
    Outcome.pure_eq_ok] at h
  obtain ⟨-, c, hc, -, -, merged, hmerged, rfl⟩ := h
  have hclause : c.TrueIn M := hs.of_clause hc
  refine hs.add (Clause.TrueIn.withSuffix ?_ _) (State.all_replace hc _)
  refine (trueIn_mergeAtoms hclause hmerged).mono fun a ha => ?_
  obtain ⟨k, hk⟩ := List.getElem?_of_mem ha
  simp only [List.head?_cons, Option.bind_some, List.tail_cons, List.mem_map, List.mem_filter,
    Prod.exists, List.mk_mem_zipIdx_iff_getElem?]
  -- The atom at position `k` is dropped only if its equal at position `i` is kept.
  by_cases hkept : merged.atoms[i]? = some a
  · exact ⟨a, i, ⟨hkept, by simp [hi]⟩, rfl⟩
  · exact ⟨a, k, ⟨hk, by simp [hkept]⟩, rfl⟩

end FirstOrder

/-- Whether a move merges atoms and chooses the one to be kept a second time. -/
def Move.DropsFirst : Move → Prop
  | .factorize _ (i :: rest) => i ∈ rest ∧ (i :: rest).IsChain (· ≠ ·)
  | _ => False

namespace FirstOrder

variable {s s' : State Relation}

/-- An accepted move keeps all clauses true, unless it drops the atom to be kept. -/
theorem trueIn_step {m : Move} (hm : ¬ m.DropsFirst) (h : step s m = .ok s')
    (hs : s.TrueIn M) : s'.TrueIn M := by
  have hclear : State.TrueIn M { s with status := none } := hs
  cases m with
  | resolve c1 c2 literal =>
    obtain ⟨lit, -, h⟩ := Outcome.bind_eq_ok.mp h
    exact trueIn_resolve hclear h
  | resolveUnify c1 c2 l1 l2 =>
    rw [step] at h
    exact trueIn_resolveOn hclear h
  | resolveCustom c1 c2 l1 l2 assignment =>
    obtain ⟨σ, -, h⟩ := Outcome.bind_eq_ok.mp h
    exact trueIn_resolveOn hclear h
  | instantiate c1 assignment =>
    simp only [step, Outcome.bind_eq_ok, Outcome.pure_eq_ok] at h
    obtain ⟨σ, -, c, hc, rfl⟩ := h
    exact hclear.add ((hclear.of_clause hc).instantiate σ) (State.all_push _ _)
  | hide c1 => exact fun d hd => hclear d ((State.all_hide h).subset hd)
  | reveal =>
    rw [step, Outcome.pure_eq_ok] at h
    intro d hd
    rw [← h, State.all_reveal] at hd
    exact hclear d hd
  | hyper main atoms => exact trueIn_hyper hclear h
  | factorize c1 atoms =>
    cases atoms with
    | nil =>
      simp only [step, factorize, refuse, ↓Outcome.guard_eq_ok] at h
      exact absurd (by decide) h.1
    | cons i rest =>
      refine trueIn_factorize hclear (fun hi => hm ⟨hi, ?_⟩) h
      simp only [step, factorize, refuse, ↓Outcome.guard_eq_ok, Outcome.bind_eq_ok] at h
      obtain ⟨-, c, -, -, -, merged, hmerged, -⟩ := h
      exact isChain_of_mergeAtoms_eq_ok hmerged

/-- A run of accepted moves keeps all clauses true, unless one of them drops the atom to be
kept. -/
theorem trueIn_run {moves : List Move} (hmoves : ∀ m ∈ moves, ¬ m.DropsFirst)
    (h : moves.foldlM step s = .ok s') (hs : s.TrueIn M) : s'.TrueIn M :=
  Outcome.foldlM_induction h hs fun m hm _ _ hstep => trueIn_step (hmoves m hm) hstep

end FirstOrder

end Deduction.Resolution
