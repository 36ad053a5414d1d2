import Deduction.Proofs.Rules

/-!
# Making kept moves again

A calculus that keeps its moves takes the last one back by making the others again
from the start. This gives the state before the last move as long as each move is kept
in a form by which it can be made again, and nothing but the moves is needed to find
the start. That every state is what its kept moves lead to is an invariant of all runs,
also of those in which moves are taken back.
-/

namespace Deduction

/-- The rules of a calculus that keeps its moves, with the start of each proof. -/
structure Journal (σ μ : Type) extends Rules σ μ where
  /-- The state before the first move. -/
  origin : σ → Outcome σ

namespace Journal

variable {σ μ : Type} {J : Journal σ μ} {s s' : σ}

/-- Make moves from the state before the first one. -/
def replay (J : Journal σ μ) (s : σ) (moves : List μ) : Outcome σ := do
  moves.foldlM J.advance (← J.origin s)

/-- Whether making the kept moves again leads to the state itself. -/
def Replayable (J : Journal σ μ) (s : σ) : Prop := J.replay s (J.history s) = .ok s

/-- A state before the first move is replayable. -/
theorem replayable_of_origin (horigin : J.origin s = .ok s) (hhistory : J.history s = []) :
    J.Replayable s := by
  rw [Replayable, replay, horigin, hhistory]
  rfl

/-- A step that keeps a move by which it can be made again. -/
structure Keeps (J : Journal σ μ) (s s' : σ) : Prop where
  /-- The move that is kept. -/
  move : ∃ m, J.advance s m = .ok s' ∧ J.history s' = J.history s ++ [m]
  /-- The start is the same. -/
  origin : J.origin s' = J.origin s

/-- The state before a kept move is what the moves before it lead to. -/
theorem Keeps.replay_dropLast (h : J.Keeps s s') (hs : J.Replayable s) :
    J.replay s' (J.history s').dropLast = .ok s := by
  obtain ⟨m, -, hhistory⟩ := h.move
  rw [hhistory, List.dropLast_concat, replay, h.origin]
  exact hs

theorem Keeps.replayable (h : J.Keeps s s') (hs : J.Replayable s) : J.Replayable s' := by
  obtain ⟨m, hm, hhistory⟩ := h.move
  obtain ⟨s₀, hs₀, hrun⟩ := Outcome.bind_eq_ok.mp hs
  rw [Replayable, replay, h.origin, hs₀, Outcome.ok_bind, hhistory, List.foldlM_append, hrun]
  simpa [Outcome.ok_bind] using hm

/-- The kept moves but the last one can be made again as well. -/
theorem Replayable.exists_dropLast (hs : J.Replayable s) (hne : J.history s ≠ []) :
    ∃ s', J.replay s (J.history s).dropLast = .ok s' := by
  obtain ⟨s₀, hs₀, hrun⟩ := Outcome.bind_eq_ok.mp hs
  rw [← List.dropLast_concat_getLast hne, List.foldlM_append, Outcome.bind_eq_ok] at hrun
  obtain ⟨s', hs', -⟩ := hrun
  exact ⟨s', by rw [replay, hs₀, Outcome.ok_bind, hs']⟩

/-- A calculus that keeps every move that takes none back in a form by which it can be made again,
and takes the last one back by making those before it again. This is so in states with a property
that moves keep. -/
structure Undoes (J : Journal σ μ) (Q : σ → Prop) : Prop where
  /-- Moves that are taken back are not kept. -/
  none : ∀ s s', J.advance s J.undo ≠ .ok s'
  /-- If no moves have been kept, nothing changes. -/
  idle : ∀ s start, Q s → J.history s = [] → J.earlier s = .ok start → start = (s, [])
  /-- If some have been, those before the last one are made again. -/
  earlier : ∀ s, Q s → J.history s ≠ [] →
    J.earlier s = J.origin s >>= fun s₀ => .ok (s₀, (J.history s).dropLast)
  /-- The state before the first move has the property and is its own start. -/
  origin : ∀ s s₀, Q s → J.origin s = .ok s₀ → Q s₀ ∧ J.origin s₀ = .ok s₀ ∧ J.history s₀ = []
  /-- A move keeps the property, and it is kept in a form by which it can be made again. -/
  keeps : ∀ s s' m, Q s → J.advance s m = .ok s' → Q s' ∧ J.Keeps s s'

namespace Undoes

variable [DecidableEq μ] {Q : σ → Prop} {n : Nat} {m : μ}

/-- A move that takes none back is made within any bound. -/
theorem of_advance (h : J.Undoes Q) (hm : J.advance s m = .ok s') :
    J.stepWithin n s m = .ok s' := by
  have hne : m ≠ J.undo := by
    rintro rfl
    exact h.none s s' hm
  rw [Rules.stepWithin_of_ne hne, hm]

/-- After every run the state is what its kept moves lead to. -/
theorem run (h : J.Undoes Q) {s₀ : σ} {moves : List μ} (hrun : moves.foldlM J.step s₀ = .ok s)
    (hQ : Q s₀) (horigin : J.origin s₀ = .ok s₀) (hhistory : J.history s₀ = []) :
    Q s ∧ J.Replayable s := by
  refine Rules.run (P := fun s => Q s ∧ J.Replayable s) (fun s s₀ moves hstart hs => ?_)
    (fun s s' m hm hs => ?_) hrun ⟨hQ, replayable_of_origin horigin hhistory⟩
  · by_cases hempty : J.history s = []
    · cases h.idle s _ hs.1 hempty hstart
      exact hs
    · rw [h.earlier s hs.1 hempty, Outcome.bind_eq_ok] at hstart
      obtain ⟨s₁, hs₁, heq⟩ := hstart
      cases heq
      obtain ⟨hQ, horigin, hhistory⟩ := h.origin s s₀ hs.1 hs₁
      exact ⟨hQ, replayable_of_origin horigin hhistory⟩
  · obtain ⟨hQ, hkeeps⟩ := h.keeps s s' m hs.1 hm
    exact ⟨hQ, hkeeps.replayable hs.2⟩

/-- Moves that can be made again may be made within any bounds. -/
theorem foldlM_eq_ok (h : J.Undoes Q) (bound : σ → Nat) {moves : List μ}
    (hreplay : J.replay s moves = .ok s') :
    (J.origin s >>= fun s₀ => moves.foldlM (fun s m => J.stepWithin (bound s) s m) s₀) =
      .ok s' := by
  obtain ⟨s₀, hs₀, hrun⟩ := Outcome.bind_eq_ok.mp hreplay
  rw [hs₀, Outcome.ok_bind]
  exact Outcome.foldlM_mono (fun _ _ _ => h.of_advance) hrun

/-- If moves have been kept, the moves before the last one lead to where it is taken back to. -/
theorem stepWithin_undo (h : J.Undoes Q) (hQ : Q s) (hne : J.history s ≠ [])
    (hreplay : J.replay s (J.history s).dropLast = .ok s') :
    J.stepWithin (n + 1) s J.undo = .ok s' := by
  obtain ⟨s₀, hs₀, hrun⟩ := Outcome.bind_eq_ok.mp (h.foldlM_eq_ok (fun _ => n) hreplay)
  rw [Rules.stepWithin_undo, h.earlier s hQ hne, hs₀]
  exact hrun

/-- Taking a move back gives the state before it. -/
theorem undo_eq_ok (h : J.Undoes Q) (hs : Q s ∧ J.Replayable s) (hne : m ≠ J.undo)
    (hm : J.step s m = .ok s') : J.step s' J.undo = .ok s := by
  rw [Rules.step, Rules.stepWithin_of_ne hne] at hm
  obtain ⟨hQ, hkeeps⟩ := h.keeps s s' m hs.1 hm
  have hkept : J.history s' ≠ [] := by
    obtain ⟨m', -, hhistory⟩ := hkeeps.move
    simp [hhistory]
  exact h.stepWithin_undo hQ hkept (hkeeps.replay_dropLast hs.2)

/-- If moves have been kept, the last one can be taken back. -/
theorem exists_undo (h : J.Undoes Q) (hs : Q s ∧ J.Replayable s) (hne : J.history s ≠ []) :
    ∃ s', J.step s J.undo = .ok s' := by
  obtain ⟨s', hs'⟩ := hs.2.exists_dropLast hne
  exact ⟨s', h.stepWithin_undo hs.1 hne hs'⟩

end Undoes

end Journal

end Deduction
