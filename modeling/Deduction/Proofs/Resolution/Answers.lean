import Deduction.Proofs.Failure
import Deduction.Proofs.Resolution.Lookup

/-!
# Every move in a resolution proof is answered

A move is made or refused, in any proof, and for want of a clause or of an atom only if it
is not there. Atoms are not missed any more once they have been found, not even when
the clause has been instantiated.
-/

namespace Deduction.Resolution

open Outcome

variable {L : Type}

/-- Whether a clause, or an atom of a clause in the proof, that is said not to be there is not. -/
def State.Misses [Literal L] (s : State L) : IllegalMove → Prop
  | .resolution (.noClause id) => s.clauses.get? id = none
  | .resolution (.noAtom id text) =>
    ∃ c ∈ s.clauses.clauses, c.render = text ∧ c.atoms[id]? = none
  | _ => True

/-- The errors that a move in a proof may end in. Nothing is counted. -/
def State.Allows [Literal L] (s : State L) : Error → Prop := Error.Allowed False s.Misses

section Shared

variable [Literal L]

theorem failsOnly_clause (s : State L) (id : Nat) : FailsOnly s.Allows (s.clause id) :=
  .ofLookup fun hnone => hnone

theorem failsOnly_atomOf {s : State L} {c : Clause L} (hc : c ∈ s.clauses.clauses) (id : Nat) :
    FailsOnly s.Allows (State.atomOf c id) :=
  .ofLookup fun hnone => ⟨c, hc, rfl, hnone⟩

theorem failsOnly_atom (s : State L) (clauseId id : Nat) :
    FailsOnly s.Allows (s.atom clauseId id) :=
  .bind (failsOnly_clause s clauseId) fun _ hc => failsOnly_atomOf (State.mem_of_clause_eq_ok hc) id

theorem failsOnly_hide (s : State L) (id : Nat) : FailsOnly s.Allows (s.hide id) :=
  .bind (failsOnly_clause s id) fun _ _ => .ok _

theorem failsOnly_premisses (s : State L) (main : Nat) (atoms : KeyMap Nat (Nat × Nat)) :
    FailsOnly s.Allows (premisses s main atoms) := by
  rw [premisses]
  refine .guard trivial fun _ => .bind (failsOnly_clause s main) fun c hc => ?_
  refine .bind (.mapM ?_) fun _ _ => .ok _
  rintro ⟨index, side, sideIndex⟩ -
  refine .bind (failsOnly_atomOf (State.mem_of_clause_eq_ok hc) index) fun _ _ => ?_
  refine .bind (failsOnly_clause s side) fun d hd => ?_
  exact .bind (failsOnly_atomOf (State.mem_of_clause_eq_ok hd) sideIndex) fun _ _ => .ok _

theorem failsOnly_checkPremiss [DecidableEq L] (s : State L) (main : Clause L)
    (side : Premiss L) : FailsOnly s.Allows (checkPremiss main side) := by
  refine .guard trivial fun _ => .guard trivial fun _ => ?_
  exact .ite (fun _ => .error trivial) fun _ => .ok ()

theorem failsOnly_hyperResolvent [DecidableEq L] (s : State L) (main : Clause L)
    (sides : List (Premiss L)) : FailsOnly s.Allows (hyperResolvent main sides) := by
  rw [hyperResolvent]
  refine .bind (.mapM fun side _ => failsOnly_checkPremiss s main side) fun _ _ => ?_
  exact .guard trivial fun _ => .ok _

end Shared

namespace Propositional

theorem failsOnly_resolve (s : State String) (c1 c2 : Nat) (literal : Option String) :
    FailsOnly s.Allows (resolve s c1 c2 literal) := by
  rw [resolve]
  refine .guard trivial fun _ => .bind (failsOnly_clause s c1) fun first _ => ?_
  refine .bind (failsOnly_clause s c2) fun second _ => ?_
  split
  · split
    · exact .ok _
    · exact .error trivial
  · split
    · exact .ok _
    · exact .error trivial

theorem failsOnly_step (s : State String) (m : Move) : FailsOnly s.Allows (step s m) := by
  cases m with
  | resolve c1 c2 literal =>
    exact .bind (.ofText fun _ => trivial) fun lit _ => failsOnly_resolve _ c1 c2 lit
  | hide c1 => exact failsOnly_hide _ c1
  | reveal => exact .ok _
  | hyper main atoms =>
    refine .bind (failsOnly_premisses _ main atoms) ?_
    rintro ⟨c, sides⟩ -
    exact .bind (failsOnly_hyperResolvent _ c sides) fun _ _ => .ok _
  | factorize c1 atoms =>
    exact .bind (failsOnly_clause _ c1) fun _ _ => .guard trivial fun _ => .ok _
  | resolveUnify | resolveCustom | instantiate => exact .error trivial

end Propositional

namespace FirstOrder

theorem failsOnly_unifier (s : State Relation) (left right : Relation) :
    FailsOnly s.Allows (unifier left right) := by
  rw [unifier]
  split
  · exact .ok _
  · exact .error trivial

theorem failsOnly_resolveOn (s : State Relation) (c1 c2 l1 l2 : Nat)
    (given : Option Substitution) : FailsOnly s.Allows (resolveOn s c1 c2 l1 l2 given) := by
  rw [resolveOn]
  refine .guard trivial fun _ => .bind (failsOnly_atom s c1 l1) fun left _ => ?_
  refine .bind (failsOnly_atom s c2 l2) fun right _ => .guard trivial fun _ => ?_
  cases given with
  | some σ =>
    refine .guard trivial fun _ => .bind (failsOnly_clause s c1) fun first _ => ?_
    exact .bind (failsOnly_clause s c2) fun second _ => .ok _
  | none =>
    refine .bind (failsOnly_unifier s left.lit right.lit) fun σ _ => .guard trivial fun _ => ?_
    refine .bind (failsOnly_clause s c1) fun first _ => ?_
    exact .bind (failsOnly_clause s c2) fun second _ => .ok _

theorem failsOnly_resolve (s : State Relation) (c1 c2 : Nat) (literal : Option Relation) :
    FailsOnly s.Allows (resolve s c1 c2 literal) := by
  rw [resolve]
  refine .guard trivial fun _ => .bind (failsOnly_clause s c1) fun first _ => ?_
  refine .bind (failsOnly_clause s c2) fun second _ => ?_
  split
  · exact failsOnly_resolveOn s c1 c2 _ _ none
  · exact .error trivial

/-- Atoms that are there are not missed in an instance. -/
theorem failsOnly_mergeAtoms (s : State Relation) {c : Clause Relation} {atoms : List Nat}
    (h : ∀ i ∈ atoms, i < c.atoms.length) : FailsOnly s.Allows (mergeAtoms c atoms) := by
  induction atoms generalizing c with
  | nil => exact .ok c
  | cons i rest ih =>
    cases rest with
    | nil => exact .ok c
    | cons j rest =>
      obtain ⟨hi, hrest⟩ := List.forall_mem_cons.mp h
      have hj := hrest j List.mem_cons_self
      rw [mergeAtoms, ← atomAt_eq_atomOf hi, ← atomAt_eq_atomOf hj, atomAt, atomAt,
        List.getElem?_eq_getElem hi, List.getElem?_eq_getElem hj]
      refine .guard trivial fun _ => .guard trivial fun _ => ?_
      refine .bind (failsOnly_unifier s _ _) fun σ _ => ih fun k hk => ?_
      exact Nat.lt_of_lt_of_eq (hrest k hk) (List.length_map _).symm

theorem failsOnly_hyper (s : State Relation) (main : Nat) (atoms : KeyMap Nat (Nat × Nat)) :
    FailsOnly s.Allows (hyper s main atoms) := by
  rw [hyper]
  refine .bind (failsOnly_premisses s main atoms) ?_
  rintro ⟨c, sides⟩ -
  dsimp only
  split
  · exact .error trivial
  · exact .bind (failsOnly_hyperResolvent s _ _) fun _ _ => .ok _

theorem failsOnly_factorize (s : State Relation) (c1 : Nat) (atoms : List Nat) :
    FailsOnly s.Allows (factorize s c1 atoms) := by
  rw [factorize]
  refine .guard trivial fun _ => .bind (failsOnly_clause s c1) fun c hc => ?_
  have hmem := State.mem_of_clause_eq_ok hc
  refine .bind (.mapM fun i _ => failsOnly_atomOf hmem i) fun found hfound => ?_
  exact .bind (failsOnly_mergeAtoms s fun i hi => lt_of_mapM_atomOf hfound hi) fun _ _ => .ok _

theorem failsOnly_step (s : State Relation) (m : Move) : FailsOnly s.Allows (step s m) := by
  cases m with
  | resolve c1 c2 literal =>
    exact .bind (.ofText fun _ => trivial) fun lit _ => failsOnly_resolve _ c1 c2 lit
  | resolveUnify c1 c2 l1 l2 => exact failsOnly_resolveOn _ c1 c2 l1 l2 none
  | resolveCustom c1 c2 l1 l2 assignment =>
    exact .bind (.ofText fun _ => trivial) fun σ _ => failsOnly_resolveOn _ c1 c2 l1 l2 (some σ)
  | instantiate c1 assignment =>
    refine .bind (.ofText fun _ => trivial) fun σ _ => ?_
    exact .bind (failsOnly_clause _ c1) fun _ _ => .ok _
  | hide c1 => exact failsOnly_hide _ c1
  | reveal => exact .ok _
  | hyper main atoms => exact failsOnly_hyper _ main atoms
  | factorize c1 atoms => exact failsOnly_factorize _ c1 atoms

end FirstOrder

end Deduction.Resolution
