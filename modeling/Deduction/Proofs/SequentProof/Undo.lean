import Deduction.Proofs.Replay
import Deduction.Proofs.SequentProof.Validity

/-!
# Taking moves back in the sequent calculus

A proof starts again from the sequent at its root, which no move changes and which is
prepared already. So every proof is what its kept moves lead to, and taking a move back
gives the proof before it. Only where no move has been made is there nothing to take
back.
-/

namespace Deduction.SequentProof

variable {logic : Logic} {q : Sequent} {s s' : State} {m : Move}

/-- The moves of the sequent calculus, as kept. -/
def journal (logic : Logic) : Journal State Move where
  toRules := rules logic
  origin := State.fresh

theorem keeps_of_advance (h : Formed q s.tree) (hm : advance logic s m = .ok s') :
    (journal logic).Keeps s s' where
  move := ⟨m, hm, history_of_advance hm⟩
  origin := by
    have hadvance := advances_of_advance hm
    have hflag := onlyApplicable_of_advances hadvance
    exact (h.advance hadvance).fresh_eq.trans (hflag ▸ h.fresh_eq.symm)

/-- Taking a move back in a proof of a sequent makes the kept ones before it again. -/
theorem undoes (logic : Logic) (q : Sequent) (b : Bool) :
    (journal logic).Undoes fun s => Formed q s.tree ∧ s.onlyApplicable = b where
  none _ _ h := by cases h
  idle s start _ hempty hstart := absurd hempty (earlier_eq_ok.mp hstart).1
  earlier s hs hne := by
    have horigin : (journal logic).origin s = .ok (.initial q s.onlyApplicable) := hs.1.fresh_eq
    rw [horigin]
    exact earlier_eq_ok.mpr ⟨hne, _, hs.1.fresh_eq, rfl⟩
  origin s s₀ hs hs₀ := by
    have hfresh : s.fresh = .ok s₀ := hs₀
    rw [hs.1.fresh_eq, hs.2] at hfresh
    cases hfresh
    exact ⟨⟨formed_single q, rfl⟩, (formed_single q).fresh_eq (s := .initial q b), rfl⟩
  keeps s s' m hs hm := by
    have hadvance := advances_of_advance hm
    exact ⟨⟨hs.1.advance hadvance, (onlyApplicable_of_advances hadvance).trans hs.2⟩,
      keeps_of_advance hs.1 hm⟩

/-- Where no move has been kept none is taken back. -/
theorem earlier_of_empty (hempty : s.history = []) : s.earlier = refuse .nothingToUndo := by
  rw [State.earlier, hempty]
  rfl

/-- Taking a move back in the sequent calculus, propositional or first-order, gives the proof
before it after every run from a sequent, and it is refused exactly where no move has been kept. -/
theorem undo_inverse_refused_iff (logic : Logic) :
    (∀ params text s₀, start logic params text = .ok s₀ →
      ∃ q, Sequent.parse logic text = .ok q ∧ s₀ = .initial q params.onlyApplicable) ∧
    ∀ (q : Sequent) (onlyApplicable : Bool) (moves : List Move) (s : State),
      moves.foldlM (step logic) (.initial q onlyApplicable) = .ok s →
      (∀ m s', m ≠ .undo → step logic s m = .ok s' → step logic s' .undo = .ok s) ∧
      ((∃ e, step logic s .undo = .error e) ↔ s.history = []) := by
  constructor
  · intro params text s₀ h
    simp only [start, Outcome.bind_eq_ok, Outcome.ofText_eq_ok, Outcome.pure_eq_ok] at h
    obtain ⟨q, hq, rfl⟩ := h
    exact ⟨q, hq, rfl⟩
  · intro q onlyApplicable moves s hrun
    have hundoes := undoes logic q onlyApplicable
    have horigin : (State.initial q onlyApplicable).fresh = .ok (.initial q onlyApplicable) :=
      (formed_single q).fresh_eq
    have hs := hundoes.run hrun ⟨formed_single q, rfl⟩ horigin rfl
    refine ⟨fun m s' hm hstep => hundoes.undo_eq_ok hs hm hstep, ?_, fun hempty => ?_⟩
    · rintro ⟨e, he⟩
      by_contra hne
      obtain ⟨s', hs'⟩ := hundoes.exists_undo hs hne
      cases he.symm.trans hs'
    · exact ⟨_, Rules.step_undo_of_error (R := rules logic) (earlier_of_empty hempty)⟩

/-- The proof is finished by its last move. -/
theorem closed_after_exchange :
    ((exchangeProof.dropLast.foldlM (step .firstOrder) (.initial exchange false) >>=
      fun s => step .firstOrder s (.ax 8)).toOption.map fun s => s.history.length) = some 8 := by
  cbv

/-- The move that closes the proof of the sequent is taken back, and before the first move of a
proof none can be. -/
theorem undo_exchange :
    (∃ s s', exchangeProof.dropLast.foldlM (step .firstOrder) (.initial exchange false) = .ok s ∧
      step .firstOrder s (.ax 8) = .ok s' ∧ step .firstOrder s' .undo = .ok s) ∧
    ∃ e, step .propositional (.initial ⟨[], []⟩ false) .undo = .error e := by
  constructor
  · obtain ⟨s, s', hs, hs', -⟩ := Outcome.exists_of_toOption closed_after_exchange
    exact ⟨s, s', hs, hs',
      ((undo_inverse_refused_iff .firstOrder).2 exchange false _ s hs).1 _ s' (by simp) hs'⟩
  · exact ((undo_inverse_refused_iff .propositional).2 ⟨[], []⟩ false [] _ rfl).2.mpr rfl

end Deduction.SequentProof
