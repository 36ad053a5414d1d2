import Deduction.Proofs.Outcome
import Deduction.Resolution.Basic
import Mathlib.Data.List.Perm.Basic

/-!
# Clauses of a resolution proof

What the resolution proofs of both logics share: the visible and hidden clauses taken
together never lose one, and a resolvent has a true atom wherever its premisses do.
True may be any atoms, as long as of an atom and its complement exactly one is.
-/

namespace Deduction.Resolution

variable {L : Type}

namespace State

variable {s s' : State L} {id : Nat} {c old : Clause L}

theorem clause_eq_ok : s.clause id = .ok c ↔ s.clauses.clauses[id]? = some c :=
  Outcome.ofLookup_eq_ok

/-- A clause that is found by its number is a visible clause. -/
theorem mem_of_clause_eq_ok (h : s.clause id = .ok c) : c ∈ s.clauses.clauses :=
  List.mem_of_getElem? (clause_eq_ok.mp h)

theorem atomOf_eq_ok [Literal L] {a : Atom L} : atomOf c id = .ok a ↔ c.atoms[id]? = some a :=
  Outcome.ofLookup_eq_ok

/-- All clauses of a proof, the visible ones first. -/
def all (s : State L) : List (Clause L) := s.clauses.clauses ++ s.hidden.clauses

theorem mem_all_of_clause_eq_ok (h : s.clause id = .ok c) : c ∈ s.all :=
  List.mem_append_left _ (mem_of_clause_eq_ok h)

/-- A derived clause comes to the others. -/
theorem all_push (s : State L) (c : Clause L) : (s.push c).all.Perm (c :: s.all) := by
  rw [all, push, ClauseSet.add, List.append_assoc, List.singleton_append]
  exact List.perm_middle

/-- A clause that is moved to the hidden ones stays among the others. -/
theorem perm_all_of_hidden (h : s.clause id = .ok c) :
    (s.clauses.clauses.eraseIdx id ++ (s.hidden.add c).clauses).Perm s.all := by
  obtain ⟨hlt, rfl⟩ := List.getElem?_eq_some_iff.mp (clause_eq_ok.mp h)
  have hfront := (List.getElem_cons_eraseIdx_perm hlt).append_right s.hidden.clauses
  rw [ClauseSet.add, ← List.append_assoc]
  exact (List.perm_append_singleton _ _).trans hfront

/-- A clause that is put in the place of another one comes to the others. -/
theorem all_replace (h : s.clause id = .ok old) (c : Clause L) :
    (s.replace id old c).all.Perm (c :: s.all) := by
  obtain ⟨hlt, -⟩ := List.getElem?_eq_some_iff.mp (clause_eq_ok.mp h)
  have hfront := (List.set_perm_cons_eraseIdx hlt c).append_right (s.hidden.add old).clauses
  exact hfront.trans ((perm_all_of_hidden h).cons c)

theorem all_hide (h : s.hide id = .ok s') : s'.all.Perm s.all := by
  simp only [hide, Outcome.bind_eq_ok, Outcome.pure_eq_ok] at h
  obtain ⟨c, hc, rfl⟩ := h
  exact perm_all_of_hidden hc

theorem all_reveal (s : State L) : s.reveal.all = s.all := by
  simp [all, reveal, ClauseSet.unite, ClauseSet.empty]

/-- A proof is finished if a visible clause has no atoms. -/
theorem closed_iff : s.verdict.closed = true ↔ ∃ c ∈ s.clauses.clauses, c.isEmpty = true := by
  rw [verdict, ClauseSet.hasEmptyClause]
  split
  next h => simpa using h
  next h => simpa using h

end State

section Resolvents

variable [DecidableEq L] {T : Atom L → Prop}

/-- A resolvent has a true atom if both clauses do, since an atom or its complement fails. -/
theorem exists_true_resolvent (hT : ∀ a : Atom L, T a.complement ↔ ¬ T a)
    {first second : Clause L} (a : Atom L) (hfirst : ∃ b ∈ first.atoms, T b)
    (hsecond : ∃ b ∈ second.atoms, T b) : ∃ b ∈ (resolvent first second a).atoms, T b := by
  simp only [resolvent, Clause.factorized, List.mem_eraseDups, List.mem_append, List.mem_filter,
    decide_eq_true_eq]
  by_cases ha : T a
  · obtain ⟨b, hb, htrue⟩ := hsecond
    refine ⟨b, Or.inr ⟨hb, ?_⟩, htrue⟩
    rintro rfl
    exact (hT a).mp htrue ha
  · obtain ⟨b, hb, htrue⟩ := hfirst
    refine ⟨b, Or.inl ⟨hb, ?_⟩, htrue⟩
    rintro rfl
    exact ha htrue

variable [Literal L] {s : State L} {mainClause result : Clause L} {sides : List (Premiss L)}

omit [DecidableEq L] in
/-- A side premiss is a clause of the proof, together with one of its atoms and the atom of the
main premiss at the chosen position. -/
theorem mem_of_premisses_eq_ok {main : Nat} {atoms : KeyMap Nat (Nat × Nat)}
    (h : premisses s main atoms = .ok (mainClause, sides)) :
    s.clause main = .ok mainClause ∧ ∀ side ∈ sides,
      (∃ id, s.clause id = .ok side.clause) ∧ side.sideAtom ∈ side.clause.atoms ∧
      mainClause.atoms[side.index]? = some side.mainAtom := by
  simp only [premisses, refuse, ↓Outcome.guard_eq_ok, Outcome.bind_eq_ok,
    Outcome.pure_eq_ok] at h
  obtain ⟨-, c, hc, ps, hps, heq⟩ := h
  cases heq
  refine ⟨hc, fun side hside => ?_⟩
  obtain ⟨⟨index, id, sideIndex⟩, -, hside⟩ := Outcome.exists_of_mem_mapM hps hside
  simp only [Outcome.bind_eq_ok, Outcome.pure_eq_ok] at hside
  obtain ⟨a, ha, d, hd, b, hb, rfl⟩ := hside
  exact ⟨⟨id, hd⟩, List.mem_of_getElem? (State.atomOf_eq_ok.mp hb),
    State.atomOf_eq_ok.mp ha⟩

/-- The chosen atoms of the main premiss and of a side premiss that fits are complementary. -/
theorem mainAtom_eq_of_checkPremiss_eq_ok {side : Premiss L} {u : Unit}
    (h : checkPremiss mainClause side = .ok u) (hmem : side.sideAtom ∈ side.clause.atoms) :
    side.mainAtom = side.sideAtom.complement := by
  simp only [checkPremiss, refuse, ↓Outcome.guard_eq_ok, Outcome.lastGuard_eq_ok] at h
  obtain ⟨hpositive, hnegated, hlit, -⟩ := h
  have hside : side.sideAtom.negated = false := by
    simp only [Clause.isPositive, Bool.not_eq_true', Bool.not_eq_false,
      List.all_eq_true] at hpositive
    simpa using hpositive _ hmem
  cases hm : side.mainAtom
  simp_all [Atom.complement]

/-- A hyper resolvent has a true atom if all its premisses do. If the chosen atom of a side premiss
fails, another atom of it is true and is kept; if they are all true, the chosen atoms of the main
premiss fail and one of its others is true. -/
theorem exists_true_hyperResolvent (hT : ∀ a : Atom L, T a.complement ↔ ¬ T a)
    (hmain : ∃ a ∈ mainClause.atoms, T a)
    (hsides : ∀ side ∈ sides, (∃ a ∈ side.clause.atoms, T a) ∧
      side.sideAtom ∈ side.clause.atoms ∧ mainClause.atoms[side.index]? = some side.mainAtom)
    (h : hyperResolvent mainClause sides = .ok result) : ∃ a ∈ result.atoms, T a := by
  simp only [hyperResolvent, refuse, ↓Outcome.guard_eq_ok, Outcome.bind_eq_ok,
    Outcome.pure_eq_ok] at h
  obtain ⟨checked, hchecked, -, rfl⟩ := h
  simp only [Clause.factorized, List.mem_eraseDups, List.mem_append, List.mem_flatMap,
    List.mem_filter, decide_eq_true_eq]
  by_cases hfails : ∃ side ∈ sides, ¬ T side.sideAtom
  · obtain ⟨side, hside, hfails⟩ := hfails
    obtain ⟨b, hb, htrue⟩ := (hsides side hside).1
    refine ⟨b, Or.inr ⟨side, hside, hb, ?_⟩, htrue⟩
    rintro rfl
    exact hfails htrue
  · obtain ⟨a, ha, htrue⟩ := hmain
    obtain ⟨i, hi⟩ := List.getElem?_of_mem ha
    refine ⟨a, Or.inl (List.mem_map.mpr ⟨(a, i), List.mem_filter.mpr
      ⟨List.mk_mem_zipIdx_iff_getElem?.mpr hi, ?_⟩, rfl⟩), htrue⟩
    rw [Bool.not_eq_true', List.any_eq_false]
    intro side hside heq
    obtain ⟨-, hmem, hindex⟩ := hsides side hside
    obtain ⟨u, hu⟩ := Outcome.exists_of_mapM_eq_ok hchecked hside
    rw [eq_of_beq heq, hi, Option.some.injEq,
      mainAtom_eq_of_checkPremiss_eq_ok hu hmem] at hindex
    rw [hindex, hT] at htrue
    exact hfails ⟨side, hside, htrue⟩

end Resolvents

end Deduction.Resolution
