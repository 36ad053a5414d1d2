import Deduction.Proofs.Outcome
import Deduction.Rules

/-!
# What making moves keeps

An accepted move is made as it is, or it makes moves again from a start that has been
reached before. So what is kept by moves that take none back is kept by all, and holds
after every run. Of the moves that are kept only the last is new, and a verdict tells
whether the root of the tree is closed.
-/

namespace Deduction

/-- The moves that are kept are those kept before and the given one at most. -/
theorem mem_keepMove {μ : Type} {kept : Bool} {history : List μ} {m m' : μ}
    (h : m' ∈ keepMove kept history m) : m' ∈ history ∨ m' = m := by
  rw [keepMove] at h
  split at h
  · simpa using h
  · exact Or.inl h

namespace Verdict

variable {α : Type} {t : Tree α} {finished unfinished : String}

/-- A verdict is given if there is a root, and says whether the root is closed. -/
theorem exists_ofRoot_eq {r : Node α} (hr : t.get? Tree.root = some r) :
    ∃ v, ofRoot t finished unfinished = .ok v ∧ v.closed = r.isClosed := by
  rw [ofRoot, hr, Outcome.ofReference, Outcome.ok_bind]
  cases r.isClosed <;> exact ⟨_, rfl, rfl⟩

/-- A finished proof has a closed root. -/
theorem exists_closed_root {v : Verdict} (h : ofRoot t finished unfinished = .ok v)
    (hclosed : v.closed = true) : ∃ n, t.get? Tree.root = some n ∧ n.isClosed = true := by
  obtain ⟨n, hn, -⟩ := Outcome.bind_eq_ok.mp h
  have hroot := Outcome.ofReference_eq_ok.mp hn
  obtain ⟨v', hv', heq⟩ := exists_ofRoot_eq hroot
  cases h.symm.trans hv'
  exact ⟨n, hroot, heq.symm.trans hclosed⟩

end Verdict

namespace Rules

variable {σ μ : Type} [DecidableEq μ] {R : Rules σ μ} {s s' : σ} {m : μ} {n : Nat}

/-- How many moves may be taken back within each other does not count for other moves. -/
theorem stepWithin_of_ne (hm : m ≠ R.undo) (n : Nat) (s : σ) :
    R.stepWithin n s m = R.advance s m := by
  cases n with
  | zero => rfl
  | succ n => rw [stepWithin, if_neg hm]

/-- A move is taken back by making those before it again. -/
theorem stepWithin_undo (n : Nat) (s : σ) :
    R.stepWithin (n + 1) s R.undo =
      R.earlier s >>= fun start => start.2.foldlM (R.stepWithin n) start.1 := by
  rw [stepWithin, if_pos rfl]

/-- Where no earlier moves can be made again, none is taken back. -/
theorem step_undo_of_error {e : Error} (h : R.earlier s = .error e) :
    R.step s R.undo = .error e := by
  rw [step, stepWithin_undo, h]
  rfl

/-- If there are no moves to be made again, the start is taken. -/
theorem step_undo_of_nil {s₀ : σ} (h : R.earlier s = .ok (s₀, [])) : R.step s R.undo = .ok s₀ := by
  rw [step, stepWithin_undo, h]
  rfl

/-- An accepted move is made without taking one back, or it makes earlier moves again. -/
theorem stepWithin_cases (h : R.stepWithin n s m = .ok s') :
    R.advance s m = .ok s' ∨ ∃ nested s₀ moves, n = nested + 1 ∧ m = R.undo ∧
      R.earlier s = .ok (s₀, moves) ∧ moves.foldlM (R.stepWithin nested) s₀ = .ok s' := by
  by_cases hm : m = R.undo
  · subst hm
    cases n with
    | zero => exact Or.inl h
    | succ nested =>
      rw [stepWithin_undo, Outcome.bind_eq_ok] at h
      obtain ⟨⟨s₀, moves⟩, hearlier, hrun⟩ := h
      exact Or.inr ⟨nested, s₀, moves, rfl, rfl, hearlier, hrun⟩
  · rw [stepWithin_of_ne hm] at h
    exact Or.inl h

/-- What holds where allowed moves are made again from and is kept by allowed moves that take none
back is kept by all allowed moves. -/
theorem invariant {P : σ → Prop} {A : μ → Prop}
    (hearlier : ∀ s s₀ moves, R.earlier s = .ok (s₀, moves) → P s → P s₀ ∧ ∀ m ∈ moves, A m)
    (hadvance : ∀ s s' m, A m → R.advance s m = .ok s' → P s → P s')
    (hm : A m) (h : R.stepWithin n s m = .ok s') (hs : P s) : P s' := by
  induction n using Nat.strongRecOn generalizing s s' m with
  | ind n ih =>
    rcases stepWithin_cases h with h | ⟨nested, s₀, moves, rfl, -, hstart, hrun⟩
    · exact hadvance s s' m hm h hs
    · obtain ⟨hs₀, hmoves⟩ := hearlier s s₀ moves hstart hs
      refine Outcome.foldlM_induction hrun hs₀ fun m' hm' c c' hc => ?_
      exact ih nested (Nat.lt_succ_self nested) (hmoves m' hm') hc

/-- What holds where allowed moves are made again from and is kept by allowed moves that take none
back holds after every run of allowed moves. -/
theorem run_allowed {P : σ → Prop} {A : μ → Prop}
    (hearlier : ∀ s s₀ moves, R.earlier s = .ok (s₀, moves) → P s → P s₀ ∧ ∀ m ∈ moves, A m)
    (hadvance : ∀ s s' m, A m → R.advance s m = .ok s' → P s → P s') {moves : List μ}
    (hmoves : ∀ m ∈ moves, A m) (h : moves.foldlM R.step s = .ok s') (hs : P s) : P s' :=
  Outcome.foldlM_induction h hs fun m hm _ _ hstep hc =>
    invariant hearlier hadvance (hmoves m hm) hstep hc

/-- What holds where moves are made again from and is kept by moves that take none back holds after
every run. -/
theorem run {P : σ → Prop} (hearlier : ∀ s s₀ moves, R.earlier s = .ok (s₀, moves) → P s → P s₀)
    (hadvance : ∀ s s' m, R.advance s m = .ok s' → P s → P s') {moves : List μ}
    (h : moves.foldlM R.step s = .ok s') (hs : P s) : P s' :=
  run_allowed (A := fun _ => True)
    (fun s s₀ moves hstart hs => ⟨hearlier s s₀ moves hstart hs, fun _ _ => trivial⟩)
    (fun s s' m _ => hadvance s s' m) (fun _ _ => trivial) h hs

end Rules

end Deduction
