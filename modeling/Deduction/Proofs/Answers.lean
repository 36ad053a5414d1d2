import Deduction.Catalogue
import Deduction.Proofs.NonClausal.Answers
import Deduction.Proofs.Resolution.Answers
import Deduction.Proofs.SequentProof.Answers
import Deduction.Proofs.Tableau.Answers

/-!
# Every request on a proof is answered

A proof that has been started from a text and continued by accepted moves is sound inside:
all references to a parent lead somewhere and none of them in a circle, and so it is with
those to children as long as there are ids. So whatever move is tried, it is made or
refused for a reason that can be told, and the verdict is always given. This holds in every
calculus and takes in the moves that are made again when one is taken back.
-/

namespace Deduction.Calculus

/-- Whether a state is reached from a text by accepted moves. -/
def Reaches (C : Calculus) (s : C.State) : Prop :=
  ∃ (params : C.Params) (text : String) (s₀ : C.State) (moves : List C.Move),
    C.start params text = .ok s₀ ∧ moves.foldlM C.step s₀ = .ok s

/-- Whether every request on a state is answered, where counters may be full on a condition only
and refusals must say what is so. -/
structure Answers (C : Calculus) (Full : C.State → Prop) (Misses : C.State → IllegalMove → Prop)
    (s : C.State) : Prop where
  /-- The verdict is given. -/
  verdict : ∃ v, C.verdict s = .ok v
  /-- No move follows a reference that leads nowhere or in a circle. -/
  unbroken : ∀ m, C.step s m ≠ .error .brokenState
  /-- A move needs a number that no counter holds only on the condition. -/
  counter : ∀ m, C.step s m = .error .counterFull → Full s
  /-- What a refusal says to be missing is missing. -/
  refusal : ∀ m cause, C.step s m = .error (.move cause) → Misses s cause

theorem answers_of_failsOnly {C : Calculus} {Full : C.State → Prop}
    {Misses : C.State → IllegalMove → Prop} {s : C.State} (hverdict : ∃ v, C.verdict s = .ok v)
    (hstep : ∀ m, Outcome.FailsOnly (Error.Allowed (Full s) (Misses s)) (C.step s m)) :
    C.Answers Full Misses s where
  verdict := hverdict
  unbroken m h := hstep m _ h
  counter m h := hstep m _ h
  refusal m _ h := hstep m _ h

/-- All requests on a proof that is reached in a sequent calculus are answered. -/
theorem sequent_answers {name : String} {logic : Logic} {s : SequentProof.State}
    (h : (sequent name logic).Reaches s) :
    (sequent name logic).Answers (fun _ => False) SequentProof.State.Misses s ∧
      (s.tree.size ≤ UInt32.size → Tree.Linked s.tree) := by
  obtain ⟨params, text, s₀, moves, hstart, hrun⟩ := h
  obtain ⟨q, -, hs₀⟩ := Outcome.bind_eq_ok.mp hstart
  cases hs₀
  obtain ⟨hlinked, hverdict, hfails⟩ := SequentProof.answers_of_run hrun
  exact ⟨answers_of_failsOnly hverdict hfails, hlinked⟩

/-- In every calculus all requests on a state that is reached are answered, in non-clausal tableaux
as long as there are ids. In resolution the clauses and atoms that a move has found can be looked up
again by number. The trees of the other calculi have proper links as long as there are ids, so every
new node hangs below one that is there. In clausal tableaux the counter is full only from `2 ^ 32`
nodes on, in non-clausal ones only if no number is left, and the search for a free name always
ends. -/
theorem requests_answered :
    (∀ s : Resolution.State String, propositionalResolution.Reaches s →
      propositionalResolution.Answers (fun _ => False) Resolution.State.Misses s ∧
      ∀ m, Resolution.Propositional.stepAt s m = propositionalResolution.step s m) ∧
    (∀ s : Resolution.State Relation, firstOrderResolution.Reaches s →
      firstOrderResolution.Answers (fun _ => False) Resolution.State.Misses s ∧
      ∀ m, Resolution.FirstOrder.stepAt s m = firstOrderResolution.step s m) ∧
    (∀ s : Tableau.State String, propositionalTableaux.Reaches s →
      propositionalTableaux.Answers (fun s => UInt32.size ≤ s.tree.size) Tableau.State.Misses s ∧
      (s.tree.size ≤ UInt32.size → Tree.Linked s.tree)) ∧
    (∀ s : Tableau.State Relation, firstOrderTableaux.Reaches s →
      firstOrderTableaux.Answers (fun s => UInt32.size ≤ s.tree.size) Tableau.State.Misses s ∧
      (s.tree.size ≤ UInt32.size → Tree.Linked s.tree)) ∧
    (∀ s : NonClausal.State, nonClausalTableaux.Reaches s →
      (∃ v, s.verdict = .ok v) ∧
      (s.tree.size ≤ UInt32.size →
        nonClausalTableaux.Answers NonClausal.State.OutOfNumbers NonClausal.State.Misses s ∧
        Tree.Linked s.tree) ∧
      ∀ used stem n, stem ++ Decimal.render (NonClausal.firstFree used
        (fun k => stem ++ Decimal.render k) used.length n) ∉ used) ∧
    (∀ s : SequentProof.State, propositionalSequent.Reaches s →
      propositionalSequent.Answers (fun _ => False) SequentProof.State.Misses s ∧
      (s.tree.size ≤ UInt32.size → Tree.Linked s.tree)) ∧
    (∀ s : SequentProof.State, firstOrderSequent.Reaches s →
      firstOrderSequent.Answers (fun _ => False) SequentProof.State.Misses s ∧
      (s.tree.size ≤ UInt32.size → Tree.Linked s.tree)) := by
  refine ⟨?_, ?_, ?_, ?_, ?_, ?_, ?_⟩
  · intro s _
    exact ⟨answers_of_failsOnly ⟨_, rfl⟩ (Resolution.Propositional.failsOnly_step s),
      Resolution.Propositional.stepAt_eq s⟩
  · intro s _
    exact ⟨answers_of_failsOnly ⟨_, rfl⟩ (Resolution.FirstOrder.failsOnly_step s),
      Resolution.FirstOrder.stepAt_eq s⟩
  · rintro s ⟨params, text, s₀, moves, hstart, hrun⟩
    obtain ⟨clauses, -, hs₀⟩ := Outcome.bind_eq_ok.mp hstart
    cases hs₀
    obtain ⟨hlinked, hverdict, hfails⟩ := Tableau.Propositional.keepsUnder.answers_of_run
      (fun _ _ _ => Tableau.Propositional.advances_of_advance)
      (fun _ _ => Tableau.Propositional.failsOnly_advance) trivial hrun
    exact ⟨answers_of_failsOnly hverdict hfails, hlinked⟩
  · rintro s ⟨params, text, s₀, moves, hstart, hrun⟩
    obtain ⟨clauses, hreadable, rfl⟩ := Tableau.FirstOrder.exists_clauses_of_start hstart
    obtain ⟨hlinked, hverdict, hfails⟩ := (Tableau.FirstOrder.keepsUnder clauses).answers_of_run
      (fun _ _ _ => Tableau.FirstOrder.advances_of_advance)
      (fun _ _ => Tableau.FirstOrder.failsOnly_advance)
      (Tableau.FirstOrder.readableTableau_initial hreadable _ _ _ _) hrun
    exact ⟨answers_of_failsOnly hverdict hfails, hlinked⟩
  · rintro s ⟨params, text, s₀, moves, hstart, hrun⟩
    obtain ⟨f, -, hstarts⟩ := NonClausal.exists_starts_of_start hstart
    obtain ⟨hverdict, hanswers⟩ := hstarts.answers_of_run hrun
    refine ⟨hverdict, fun hfits => ?_, fun used stem n => ?_⟩
    · obtain ⟨hlinked, hfails⟩ := hanswers hfits
      exact ⟨answers_of_failsOnly hverdict hfails, hlinked⟩
    · exact NonClausal.firstFree_length_notMem used (Decimal.numbered_injective stem) n
  · exact fun s => sequent_answers
  · exact fun s => sequent_answers

/-- The parameters under which `{a, b}`, `{¬a}` and `{¬b}` are refuted. -/
def refutationParams : Tableau.Propositional.Params where
  kind := .strong
  regular := true
  backtracking := true

private theorem start_excludedPair :
    Tableau.Propositional.start refutationParams "a, b; !a; !b" =
      .ok (.initial Tableau.excludedPair .strong true true false) := by
  decide +kernel

private theorem size_refutation :
    (Tableau.Propositional.start refutationParams "a, b; !a; !b" >>= fun s =>
      Tableau.refutation.foldlM Tableau.Propositional.step s).toOption.map
        (fun s => s.tree.size) = some 5 := by
  rw [start_excludedPair]
  cbv

/-- A proof of `∀X R(X) ⊢ R(c)` in which the first move is taken back and made again. -/
def instanceProof : List SequentProof.Move :=
  [.quantifier .allLeft 0 0 (.ofList [("X", "c")]), .undo,
    .quantifier .allLeft 0 0 (.ofList [("X", "c")]), .ax 1]

private theorem size_instanceProof :
    (SequentProof.start .firstOrder {} "\\all X: R(X) |- R(c)" >>= fun s =>
      instanceProof.foldlM (SequentProof.step .firstOrder) s).toOption.map
        (fun s => s.tree.size) = some 3 := by
  cbv

/-- All requests are answered on a refutation by a propositional tableau, whose expansions can be
counted, and on a proof in the first-order sequent calculus. -/
theorem finished_proofs_answered :
    (∃ s : Tableau.State String, propositionalTableaux.Reaches s ∧ s.tree.size < UInt32.size ∧
      ∀ m, propositionalTableaux.step s m ≠ .error .brokenState ∧
        propositionalTableaux.step s m ≠ .error .counterFull) ∧
    ∃ s : SequentProof.State, firstOrderSequent.Reaches s ∧ s.tree.size = 3 ∧
      firstOrderSequent.Answers (fun _ => False) SequentProof.State.Misses s := by
  obtain ⟨-, -, htableaux, -, -, -, hsequent⟩ := requests_answered
  constructor
  · obtain ⟨s₀, s, hstart, hrun, hsize⟩ := Outcome.exists_of_toOption size_refutation
    have hreaches : propositionalTableaux.Reaches s :=
      ⟨refutationParams, _, s₀, Tableau.refutation, hstart, hrun⟩
    have hsmall : s.tree.size < UInt32.size := hsize ▸ by decide
    obtain ⟨hanswers, -⟩ := htableaux s hreaches
    refine ⟨s, hreaches, hsmall, fun m => ⟨hanswers.unbroken m, fun hfull => ?_⟩⟩
    exact absurd hsmall (Nat.not_lt.mpr (hanswers.counter m hfull))
  · obtain ⟨s₀, s, hstart, hrun, hsize⟩ := Outcome.exists_of_toOption size_instanceProof
    have hreaches : firstOrderSequent.Reaches s := ⟨{}, _, s₀, instanceProof, hstart, hrun⟩
    exact ⟨s, hreaches, hsize, (hsequent s hreaches).1⟩

end Deduction.Calculus
