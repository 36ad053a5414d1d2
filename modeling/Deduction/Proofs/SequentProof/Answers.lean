import Deduction.Proofs.Failure
import Deduction.Proofs.SequentProof.Undo

/-!
# Every move in the sequent calculus is answered

The way up from a node ends at the root, so closing comes to an end whatever is closed,
and a move is made or refused, for want of a node or of a formula only if it is not there.
The sequent at the root is always found, so moves can be taken back.
-/

namespace Deduction.SequentProof

open Deduction.Tree Outcome

variable {logic : Logic} {s : State} {m : Move}

/-- Whether a node, or a formula of a sequent in the proof, that is said not to be there is not. -/
def State.Misses (s : State) : IllegalMove → Prop
  | .sequent (.noNode id) => s.tree.named? id = none
  | .sequent (.noFormula index side q) =>
    (∃ id n, s.tree.get? id = some n ∧ n.label.sequent = q) ∧ (q.onSide side)[index]? = none
  | _ => True

/-- The errors that a move in a proof may end in. Nothing is counted. -/
def State.Allows (s : State) : Error → Prop := Error.Allowed False s.Misses

theorem failsOnly_leaf (s : State) (id : Nat) : FailsOnly s.Allows (s.leaf id) := by
  rw [State.leaf]
  refine .bind (.ofLookup fun hnone => hnone) fun n _ => ?_
  exact .guard trivial fun _ => .guard trivial fun _ => .ok _

theorem failsOnly_chosen (s : State) (id : Nat) (side : Side) (index : Nat) :
    FailsOnly s.Allows (s.chosen id side index) := by
  rw [State.chosen]
  refine .bind (failsOnly_leaf s id) fun q hq => ?_
  split
  · exact .ok _
  next hnone =>
    obtain ⟨-, n, hn, -, -, hsequent⟩ := leaf_eq_ok.mp hq
    exact .error ⟨⟨id, n, hn, hsequent⟩, hnone⟩

theorem failsOnly_ax (ht : Rooted s.tree) (id : Nat) : FailsOnly s.Allows (s.ax id) := by
  rw [State.ax]
  refine .bind (failsOnly_leaf s id) fun q hq => .guard trivial fun _ => ?_
  obtain ⟨-, n, hn, -⟩ := leaf_eq_ok.mp hq
  obtain ⟨t, ht'⟩ := exists_closeLeaf_nextId ht (Arena.lt_size_of_get? hn) q (.ax id)
  refine .bind_ok (a := t) (ofReference_eq_ok.mpr ?_) (.ok _)
  rw [tree_grow, lastId?_growAll]
  exact ht'

theorem failsOnly_connective (s : State) (rule : Rule) (id index : Nat) :
    FailsOnly s.Allows (s.connective rule id index) := by
  rw [State.connective]
  refine .bind (failsOnly_chosen s id rule.side index) ?_
  rintro ⟨q, f⟩ -
  dsimp only
  split
  · exact .ok _
  · exact .error trivial

theorem failsOnly_checkConstant (s : State) (name : String) :
    FailsOnly s.Allows (checkConstant name) := by
  rw [checkConstant]
  split
  · exact .error trivial
  · refine .ite (fun _ => .error trivial) fun _ => ?_
    split
    · exact .error trivial
    · exact .ok ()

theorem failsOnly_quantifier (s : State) (rule : QuantifierRule) (id index : Nat)
    (assignment : KeyMap String String) :
    FailsOnly s.Allows (s.quantifier rule id index assignment) := by
  rw [State.quantifier]
  refine .bind (failsOnly_chosen s id rule.side index) ?_
  rintro ⟨q, f⟩ -
  dsimp only
  split
  · exact .error trivial
  · split
    · exact .error trivial
    next name _ =>
      exact .bind (failsOnly_checkConstant s name) fun _ _ => .guard trivial fun _ => .ok _

theorem failsOnly_advance (ht : Rooted s.tree) (hm : m ≠ .undo) :
    FailsOnly s.Allows (advance logic s m) := by
  cases m with
  | ax id => exact failsOnly_ax ht id
  | connective rule id index => exact failsOnly_connective s rule id index
  | quantifier rule id index assignment =>
    cases logic with
    | propositional => exact .error trivial
    | firstOrder => exact failsOnly_quantifier s rule id index assignment
  | undo => exact absurd rfl hm

/-- After every run from a sequent the verdict is given and every move is made or refused as it
may be, and as long as there are ids the links of the proof are proper. -/
theorem answers_of_run {q : Sequent} {onlyApplicable : Bool} {moves : List Move}
    (hrun : moves.foldlM (step logic) (.initial q onlyApplicable) = .ok s) :
    (s.tree.size ≤ UInt32.size → Linked s.tree) ∧ (∃ v, s.verdict logic = .ok v) ∧
      ∀ m, FailsOnly s.Allows (step logic s m) := by
  have hformed := formed_of_run hrun
  obtain ⟨v, -, hv, -⟩ := hformed.exists_verdict logic
  refine ⟨hformed.linked, ⟨v, hv⟩, fun m => ?_⟩
  by_cases hm : m = .undo
  · subst hm
    by_cases hempty : s.history = []
    · have herror : step logic s .undo = refuse .nothingToUndo :=
        Rules.step_undo_of_error (R := rules logic) (earlier_of_empty hempty)
      exact herror ▸ .error trivial
    · have hundoes := undoes logic q onlyApplicable
      have hs := hundoes.run hrun ⟨formed_single q, rfl⟩ (formed_single q).fresh_eq rfl
      exact .of_eq_ok (hundoes.exists_undo hs hempty)
  · rw [step_of_ne hm]
    exact failsOnly_advance hformed.rooted hm

end Deduction.SequentProof
