import Deduction.Error
import Deduction.Tree

/-!
# Proofs made move by move

What the calculi have in common whose proofs are trees. Moves are kept, so that the
last one can be taken back: those before it are made again from the start. A proof is
finished when its root is closed.
-/

namespace Deduction

/-- The outcome of asking whether the root of a tree is closed, with the words for either case. -/
def Verdict.ofRoot {α : Type} (t : Tree α) (finished unfinished : String) : Outcome Verdict := do
  let n ← Outcome.ofReference (Arena.get? t Tree.root)
  return if n.isClosed then ⟨true, finished⟩ else ⟨false, unfinished⟩

/-- The rules of a calculus in which the last move can be taken back. -/
structure Rules (σ μ : Type) where
  /-- Make a move that takes none back. -/
  advance : σ → μ → Outcome σ
  /-- The move that takes the last one back. -/
  undo : μ
  /-- The moves that have been kept. -/
  history : σ → List μ
  /-- Where to start and which moves to make in order to take the last one back. -/
  earlier : σ → Outcome (σ × List μ)

namespace Rules

variable {σ μ : Type} [DecidableEq μ]

/-- Make a move. Taking a move back replays the moves before it, and at most the given number of
replayed moves that take one back themselves are nested. -/
def stepWithin (R : Rules σ μ) : Nat → σ → μ → Outcome σ
  | 0, s, m => R.advance s m
  | nested + 1, s, m =>
    if m = R.undo then do
      let (s', moves) ← R.earlier s
      moves.foldlM (R.stepWithin nested) s'
    else R.advance s m

/-- Make a move. A replayed move that takes one back does so on a shorter history, so as many of
these can be nested as there are moves. -/
def step (R : Rules σ μ) (s : σ) (m : μ) : Outcome σ :=
  R.stepWithin ((R.history s).length + 1) s m

end Rules

/-- The moves made so far after another one, if moves are kept. -/
def keepMove {μ : Type} (kept : Bool) (history : List μ) (m : μ) : List μ :=
  if kept then history ++ [m] else history

end Deduction
