import Deduction.Catalogue
import Deduction.Proofs.Outcome
import Deduction.Proofs.SealText
import Mathlib

/-!
# What seals protect

A state that leaves the program under a seal cannot be exchanged for another
well-named one, unless the digests of two texts collide. A change to names that
are not plain, or one that turns a constant into a variable, may go unnoticed in
every calculus.
-/

namespace Deduction

namespace Calculus

/-- Whether a calculus notices every change of a state to another well-named one. -/
structure TamperEvident (C : Calculus) (wellNamed : C.State → Prop) : Prop where
  /-- A state with the sealed text of a well-named one is that one exactly if it is well named. -/
  text : ∀ s t, wellNamed s → C.sealText s = C.sealText t → (s = t ↔ wellNamed t)
  /-- A document with the right seal is accepted. -/
  accepts : ∀ s text, C.decodeState text = .ok (s, C.sealOf s) → C.readState text = .ok s
  /-- A document with the seal of another well-named state is refused, provided that the two
  sealed texts have different digests if they are different. -/
  refuses : ∀ s t text, wellNamed s → wellNamed t → s ≠ t →
    (C.sealOf s = C.sealOf t → C.sealText s = C.sealText t) →
    C.decodeState text = .ok (t, C.sealOf s) → C.readState text = .error (.document .badSeal)

/-- It suffices that well-named states can be read off their sealed texts. -/
theorem tamperEvident_of_inj {C : Calculus} {wellNamed : C.State → Prop}
    (h : ∀ s t, wellNamed s → wellNamed t → C.sealText s = C.sealText t → s = t) :
    C.TamperEvident wellNamed where
  text := by
    intro s t hs heq
    constructor
    · rintro rfl
      exact hs
    · intro ht
      exact h s t hs ht heq
  accepts := by
    intro s text hdecode
    rw [readState, hdecode]
    simp [Outcome.ofDocument, Outcome.ok_bind]
  refuses := by
    intro s t text hs ht hne hcollide hdecode
    have hseal : C.sealOf s ≠ C.sealOf t := fun heq => hne (h s t hs ht (hcollide heq))
    rw [readState, hdecode]
    simp only [Outcome.ofDocument, Outcome.ok_bind, ne_eq, hseal, not_false_eq_true, if_true]
    rfl

/-- In every calculus a sealed state is protected against changes that keep it well named: its
names are plain and, in first-order logic, the names of variables are told from those of
constants. -/
theorem seals_tell_wellNamed_states_apart (V : String → Prop) :
    propositionalResolution.TamperEvident (Resolution.State.WellNamed Plain) ∧
    firstOrderResolution.TamperEvident (Resolution.State.WellNamed (Relation.WellNamed V)) ∧
    propositionalTableaux.TamperEvident (Tableau.State.WellNamed Plain) ∧
    firstOrderTableaux.TamperEvident (Tableau.State.WellNamed (Relation.WellNamed V)) ∧
    nonClausalTableaux.TamperEvident (NonClausal.State.WellNamed V) ∧
    propositionalSequent.TamperEvident (SequentProof.State.WellNamed V) ∧
    firstOrderSequent.TamperEvident (SequentProof.State.WellNamed V) := by
  refine ⟨tamperEvident_of_inj ?_, tamperEvident_of_inj ?_, tamperEvident_of_inj ?_,
    tamperEvident_of_inj ?_, tamperEvident_of_inj ?_, tamperEvident_of_inj ?_,
    tamperEvident_of_inj ?_⟩
  · exact fun s t => Resolution.State.eq_of_sealText_eq legibleLiterals_plain
  · exact fun s t => Resolution.State.eq_of_sealText_eq (legibleLiterals_wellNamed V)
  · exact fun s t => Tableau.State.eq_of_sealText_eq legibleLiterals_plain
  · exact fun s t => Tableau.State.eq_of_sealText_eq (legibleLiterals_wellNamed V)
  · exact fun s t => NonClausal.State.eq_of_sealText_eq
  · exact fun s t => SequentProof.State.eq_of_sealText_eq
  · exact fun s t => SequentProof.State.eq_of_sealText_eq

/-- A clause of one relation with one argument. -/
def unitClause (t : Term) : ClauseSet Relation := ⟨[⟨[⟨⟨"R", [t]⟩, false⟩]⟩]⟩

theorem wellNamed_unitClause {V : String → Prop} {t : Term} (h : t.WellNamed V) :
    Resolution.State.WellNamed (Relation.WellNamed V) (.initial (unitClause t) false) := by
  simpa [Resolution.State.WellNamed, Resolution.State.initial, unitClause, ClauseSet.empty,
    Clause.WellNamed, Relation.WellNamed, h] using (by decide : Plain "R")

/-- If variables are the names that start with an upper-case letter, proofs from `R(X)` and from
`R(c)` have different sealed texts. -/
theorem sealText_variable_ne_constant :
    firstOrderResolution.sealText (Resolution.State.initial (unitClause (.var "X")) false) ≠
      firstOrderResolution.sealText (Resolution.State.initial (unitClause (.const "c")) false) := by
  have hvariable := wellNamed_unitClause (V := fun x => Grammar.startsUpper x = true)
    (t := .var "X") ⟨by decide, by decide⟩
  have hconstant := wellNamed_unitClause (V := fun x => Grammar.startsUpper x = true)
    (t := .const "c") ⟨by decide, by decide⟩
  intro h
  have heq := ((seals_tell_wellNamed_states_apart _).2.1.text _ _ hvariable h).mpr hconstant
  exact absurd heq (by decide : Resolution.State.initial (unitClause (.var "X")) false ≠
    .initial (unitClause (.const "c")) false)

/-- Whether a calculus takes two different states for the same: both are the content of some
document, and they have the same sealed text. -/
def Forgeable (C : Calculus) : Prop :=
  ∃ s t : C.State, s ≠ t ∧ C.sealText s = C.sealText t ∧ ∀ digest,
    C.stateOfJson Json.maxDepth (C.stateToJson s digest) = some (s, digest) ∧
    C.stateOfJson Json.maxDepth (C.stateToJson t digest) = some (t, digest)

/-- A clause of one atom that is written like two. -/
def joinedAtoms : ClauseSet String := ⟨[⟨[⟨"a, b", false⟩]⟩]⟩

/-- The clause of the two atoms. -/
def splitAtoms : ClauseSet String := ⟨[⟨[⟨"a", false⟩, ⟨"b", false⟩]⟩]⟩

theorem render_joinedAtoms : joinedAtoms.render = splitAtoms.render := by
  cbv

theorem forgeable_propositionalResolution : propositionalResolution.Forgeable := by
  refine ⟨Resolution.State.initial joinedAtoms false, Resolution.State.initial splitAtoms false,
    (by decide : Resolution.State.initial joinedAtoms false ≠ .initial splitAtoms false),
    ?_, fun _ => ⟨rfl, rfl⟩⟩
  change Resolution.State.sealText _ = Resolution.State.sealText _
  unfold Resolution.State.sealText
  simp only [Resolution.State.initial, render_joinedAtoms]

theorem forgeable_firstOrderResolution : firstOrderResolution.Forgeable :=
  ⟨Resolution.State.initial (unitClause (.var "d")) false,
    Resolution.State.initial (unitClause (.const "d")) false,
    (by decide : Resolution.State.initial (unitClause (.var "d")) false ≠
      .initial (unitClause (.const "d")) false),
    rfl, fun _ => ⟨rfl, rfl⟩⟩

theorem forgeable_propositionalTableaux : propositionalTableaux.Forgeable := by
  refine ⟨Tableau.State.initial joinedAtoms .weak true true true,
    Tableau.State.initial splitAtoms .weak true true true,
    (by decide : Tableau.State.initial joinedAtoms .weak true true true ≠
      .initial splitAtoms .weak true true true),
    ?_, fun _ => ⟨rfl, rfl⟩⟩
  change Tableau.State.sealText _ = Tableau.State.sealText _
  unfold Tableau.State.sealText
  simp only [Tableau.State.initial, render_joinedAtoms]

theorem forgeable_firstOrderTableaux : firstOrderTableaux.Forgeable :=
  ⟨Tableau.State.initial (unitClause (.var "d")) .weak true true true,
    Tableau.State.initial (unitClause (.const "d")) .weak true true true,
    (by decide : Tableau.State.initial (unitClause (.var "d")) .weak true true true ≠
      .initial (unitClause (.const "d")) .weak true true true),
    rfl, fun _ => ⟨rfl, rfl⟩⟩

theorem forgeable_nonClausalTableaux : nonClausalTableaux.Forgeable :=
  ⟨NonClausal.State.initial (.rel ⟨"R", [.var "d"]⟩) true,
    NonClausal.State.initial (.rel ⟨"R", [.const "d"]⟩) true,
    (by decide : NonClausal.State.initial (.rel ⟨"R", [.var "d"]⟩) true ≠
      .initial (.rel ⟨"R", [.const "d"]⟩) true),
    rfl, fun _ => ⟨rfl, rfl⟩⟩

/-- A proof of one sequent without moves. -/
def sequentAlone (s : Sequent) : SequentProof.State := ⟨Tree.single ⟨s, none⟩, [], true⟩

private theorem sealText_sequentAlone {s t : Sequent} (h : s.render = t.render) :
    (sequentAlone s).sealText = (sequentAlone t).sealText := by
  unfold SequentProof.State.sealText
  simp only [sequentAlone, Tree.single, List.map_cons, List.map_nil, SequentProof.nodeSealText, h]

theorem forgeable_sequent (name : String) (logic : Logic) : (sequent name logic).Forgeable := by
  refine ⟨sequentAlone ⟨[], [.var "a, b"]⟩, sequentAlone ⟨[], [.var "a", .var "b"]⟩,
    (by decide : sequentAlone ⟨[], [.var "a, b"]⟩ ≠ sequentAlone ⟨[], [.var "a", .var "b"]⟩),
    sealText_sequentAlone ?_, fun _ => ⟨rfl, rfl⟩⟩
  cbv

/-- Without a condition on names no calculus is protected. -/
theorem every_calculus_forgeable :
    propositionalResolution.Forgeable ∧ firstOrderResolution.Forgeable ∧
    propositionalTableaux.Forgeable ∧ firstOrderTableaux.Forgeable ∧
    nonClausalTableaux.Forgeable ∧ propositionalSequent.Forgeable ∧
    firstOrderSequent.Forgeable :=
  ⟨forgeable_propositionalResolution, forgeable_firstOrderResolution,
    forgeable_propositionalTableaux, forgeable_firstOrderTableaux, forgeable_nonClausalTableaux,
    forgeable_sequent _ _, forgeable_sequent _ _⟩

end Calculus

end Deduction
