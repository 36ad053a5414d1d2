import Deduction.Proofs.NonClausal.Soundness
import Deduction.Proofs.Resolution.Names
import Deduction.Proofs.Tableau.Undo

/-!
# Reading back what a proof writes

A readable term and a relation over readable terms are read back from their texts. All
terms that come up in a first-order proof are readable, in whatever way their names have
been made: they were read with the formula or with a move, or they are Skolem symbols and
variables with a number. Tableaux write the terms of a closing move down when they keep
it, and those can be read back as well, so that moves can be taken back.
-/

namespace Deduction

open Grammar

/-- Whether the texts that are given for variables are those of readable terms. -/
def ReadableTexts (assignment : Option (KeyMap String String)) : Prop :=
  ∃ σ : Substitution, assignment = some σ.texts ∧ σ.Readable

namespace Tableau.FirstOrder

/-- Whether the substitution of a closing move is written out in readable terms. -/
def ReadableMove : Move → Prop
  | .close _ _ assignment => ReadableTexts assignment
  | .expand .. | .undo => True

/-- A tableau in which all terms have names that can be read. -/
structure ReadableProof (s : State Relation) : Prop where
  /-- The terms in the clauses are readable. -/
  clauses : s.clauses.EachLiteral Relation.Readable
  /-- The terms in the tree are readable. -/
  atoms : ∀ i a, atomAt s.tree i = some a → a.lit.Readable
  /-- The terms that have been written down with the moves are readable. -/
  history : ∀ m ∈ s.history, ReadableMove m

variable {clauses : ClauseSet Relation} {s s' : State Relation}

/-- A move that takes none back is kept with readable terms. -/
theorem readableMove_of_advance (h : ReadableTableau clauses s) {m m' : Move}
    (hstep : advance s m = .ok s') (hm' : m' ∈ s'.history) :
    m' ∈ s.history ∨ ReadableMove m' := by
  cases m with
  | expand id clause =>
    simp only [advance, Outcome.bind_eq_ok, Outcome.pure_eq_ok] at hstep
    obtain ⟨n, hn, c, -, count, -, s₁, hs₁, rfl⟩ := hstep
    rcases mem_keepMove hm' with hold | rfl
    · exact Or.inl ((expands_of_expand hn hs₁).sameGame.history ▸ hold)
    · exact Or.inr trivial
  | close leaf partner assignment =>
    rw [advance] at hstep
    obtain ⟨a, b, σ, s₁, hpair, hσ, hs₁, rfl⟩ := close_eq_ok.mp hstep
    rcases mem_keepMove hm' with hold | rfl
    · exact Or.inl ((closes_of_close hs₁).sameGame.history ▸ hold)
    · exact Or.inr ⟨σ, rfl, h.closingSubstitution hpair hσ⟩
  | undo => cases hstep

/-- After every run from a text all terms are readable. -/
theorem readableProof_of_run {params : Params} {text : String} {s₀ : State Relation}
    {moves : List Move} (hstart : start params text = .ok s₀)
    (hrun : moves.foldlM step s₀ = .ok s) : ReadableProof s := by
  obtain ⟨clauses, hclauses, rfl⟩ := exists_clauses_of_start hstart
  have hs : ReadableTableau clauses s ∧ ∀ m ∈ s.history, ReadableMove m := by
    refine rules_run (P := fun s => ReadableTableau clauses s ∧ ∀ m ∈ s.history, ReadableMove m)
      (fun s hs => ?_) (fun s s' m hstep hs => ?_) hrun ?_
    · exact ⟨(keepsUnder clauses).fresh s hs.1, by simp [State.fresh, State.initial]⟩
    · exact ⟨hs.1.advance hstep, fun m' hm' =>
        (readableMove_of_advance hs.1 hstep hm').elim (hs.2 m') id⟩
    · exact ⟨readableTableau_initial hclauses _ _ _ _, by simp [State.initial]⟩
  exact ⟨hs.1.kept ▸ hs.1.clause, hs.1.atom, hs.2⟩

end Tableau.FirstOrder

namespace NonClausal

/-- Whether the substitution of a closing move is written out in readable terms. -/
def ReadableMove : Move → Prop
  | .close _ _ assignment => ReadableTexts assignment
  | .alpha _ | .beta _ | .gamma _ | .delta _ | .undo => True

/-- A tableau in which all terms have names that can be read. -/
structure ReadableProof (s : State) : Prop where
  /-- The terms in the formula to refute are readable. -/
  formula : s.formula.Readable
  /-- The terms in the tree are readable. -/
  formulas : ∀ g ∈ s.formulas, g.Readable
  /-- The terms that have been written down with the moves are readable. -/
  history : ∀ m ∈ s.history, ReadableMove m

variable {f : Formula} {s : State}

theorem Move.Decomposes.readableMove {m : Move} (h : m.Decomposes) : ReadableMove m := by
  cases m with
  | close leaf partner assignment => exact h.elim
  | _ => trivial

theorem readable_invariant (hf : f.Readable) : Invariant f (fun _ => True) fun s =>
    ReadableTableau f s ∧ ∀ m ∈ s.history, ReadableMove m where
  initial b := ⟨readableTableau_initial hf b, by simp [State.initial]⟩
  origin _ h := h.1.origin
  history _ _ _ _ := trivial
  expand s s' g e m _ hm he h := by
    refine ⟨(h.1.expand he).record m, fun m' hm' => ?_⟩
    rcases mem_keepMove hm' with hold | rfl
    · exact h.2 m' (he.history ▸ hold)
    · exact hm.readableMove
  close s s' leaf partner assignment σ _ hc h := by
    refine ⟨h.1.close hc, fun m hm => ?_⟩
    rcases hc.mem_history hm with hold | rfl
    · exact h.2 m hold
    · exact ⟨σ, rfl, h.1.readable_of_closes hc⟩

/-- After every run from a text all terms are readable. -/
theorem readableProof_of_run {params : Params} {text : String} {s₀ : State} {moves : List Move}
    (hstart : start params text = .ok s₀) (hrun : moves.foldlM step s₀ = .ok s) :
    ReadableProof s := by
  obtain ⟨f, -, hstarts⟩ := exists_starts_of_start hstart
  obtain ⟨backtracking, rfl⟩ := hstarts.exists_eq_initial
  obtain ⟨hs, hhistory⟩ := (readable_invariant hstarts.readable).run (fun _ _ => trivial) hrun
  exact ⟨hs.origin ▸ hstarts.readable, hs.readable, hhistory⟩

end NonClausal

/-- Readable terms, and relations with the name of a relation over such terms, are read back from
their texts, and no other terms come up in a first-order proof: after every run from a text all
terms in the state are readable, in resolution, in clausal tableaux and in non-clausal ones. -/
theorem proofs_read_back :
    (∀ t : Term, t.Readable → Term.parse t.render = .ok t) ∧
    (∀ r : Relation, IsVariableName r.name → r.Readable → Relation.parse r.render = .ok r) ∧
    (∀ params text s₀ s (moves : List Resolution.Move),
      Resolution.FirstOrder.start params text = .ok s₀ →
      moves.foldlM Resolution.FirstOrder.step s₀ = .ok s →
      Resolution.FirstOrder.ReadableProof s) ∧
    (∀ params text s₀ s (moves : List Tableau.Move),
      Tableau.FirstOrder.start params text = .ok s₀ →
      moves.foldlM Tableau.FirstOrder.step s₀ = .ok s → Tableau.FirstOrder.ReadableProof s) ∧
    ∀ params text s₀ s (moves : List NonClausal.Move), NonClausal.start params text = .ok s₀ →
      moves.foldlM NonClausal.step s₀ = .ok s → NonClausal.ReadableProof s := by
  refine ⟨fun _ ht => ht.parse_render, fun _ hname hr => hr.parse_render hname,
    fun _ _ _ _ _ hstart hrun => ?_, fun _ _ _ _ _ => Tableau.FirstOrder.readableProof_of_run,
    fun _ _ _ _ _ => NonClausal.readableProof_of_run⟩
  exact (Resolution.FirstOrder.readableProof_of_start hstart).run hrun

/-- The text of `∀X R(X) ∧ ∃Y ¬R(f(Y))`. -/
def exceptionText : String := "\\all X: R(X) & \\ex Y: !R(f(Y))"

/-- The formula `∀X R(X) ∧ ∃Y ¬R(f(Y))`. -/
def exception : Formula :=
  .and (.all "X" (.rel ⟨"R", [.var "X"]⟩)) (.ex "Y" (.not (.rel ⟨"R", [.app "f" [.var "Y"]]⟩)))

/-- Its clauses `{R(X)}` and `{¬R(f(sk1))}`. -/
def exceptionClauses : ClauseSet Relation :=
  ⟨[⟨[⟨⟨"R", [.var "X"]⟩, false⟩]⟩, ⟨[⟨⟨"R", [.app "f" [.const "sk1"]]⟩, true⟩]⟩]⟩

theorem parse_exceptionText : Formula.parse .firstOrder exceptionText = .ok exception := by
  have hchars : exceptionText.toList = ['\\', 'a', 'l', 'l', ' ', 'X', ':', ' ', 'R', '(', 'X', ')',
      ' ', '&', ' ', '\\', 'e', 'x', ' ', 'Y', ':', ' ', '!', 'R', '(', 'f', '(', 'Y', ')',
      ')'] := by
    rfl
  rw [Formula.parse_eq_ok, hchars]
  exact ⟨⟨[], by cbv, rfl⟩, by decide⟩

theorem ofFirstOrderText_exceptionText :
    ClauseSet.ofFirstOrderText exceptionText = .ok exceptionClauses := by
  have hclauses : ClauseSet.ofFirstOrder exception = .ok exceptionClauses := by cbv
  rw [ClauseSet.ofFirstOrderText, parse_exceptionText, Outcome.ofText, Outcome.ok_bind, hclauses]
  rfl

private theorem exceptionClauses_resolved :
    ∃ s, [Resolution.Move.instantiate 0 (.ofList [("X", "f(Z)")]), .resolveUnify 2 1 0 0].foldlM
      Resolution.FirstOrder.step (.initial exceptionClauses false) = .ok s := by
  have htyped : Substitution.parse (.ofList [("X", "f(Z)")]) =
      .ok (.ofList [("X", .app "f" [.var "Z"])]) := by cbv
  have hinstance : Resolution.FirstOrder.step (.initial exceptionClauses false)
      (.instantiate 0 (.ofList [("X", "f(Z)")])) = .ok (Resolution.State.push
        (.initial exceptionClauses false) ⟨[⟨⟨"R", [.app "f" [.var "Z"]]⟩, false⟩]⟩) := by
    rw [Resolution.FirstOrder.step, htyped]
    rfl
  rw [List.foldlM_cons, hinstance, Outcome.ok_bind]
  exact ⟨_, by cbv⟩

/-- The term `f(X, c)` and the relation `R(f(X, c))` are read back. In the proofs a Skolem symbol, a
term that is typed in, numbered variables and a unifier come up. -/
theorem exception_reads_back :
    Term.parse (Term.app "f" [.var "X", .const "c"]).render =
      .ok (.app "f" [.var "X", .const "c"]) ∧
    Relation.parse (Relation.mk "R" [.app "f" [.var "X", .const "c"]]).render =
      .ok ⟨"R", [.app "f" [.var "X", .const "c"]]⟩ ∧
    (∃ s₀ s, Resolution.FirstOrder.start {} exceptionText = .ok s₀ ∧
      [Resolution.Move.instantiate 0 (.ofList [("X", "f(Z)")]), .resolveUnify 2 1 0 0].foldlM
        Resolution.FirstOrder.step s₀ = .ok s ∧ Resolution.FirstOrder.ReadableProof s) ∧
    (∃ s₀ s, Tableau.FirstOrder.start { backtracking := true } exceptionText = .ok s₀ ∧
      [Tableau.Move.expand 0 0, .expand 1 1, .close 2 1 none].foldlM Tableau.FirstOrder.step s₀ =
        .ok s ∧ Tableau.FirstOrder.ReadableProof s) ∧
    ∃ s₀ s, NonClausal.start {} exceptionText = .ok s₀ ∧
      [NonClausal.Move.alpha 0, .gamma 1, .delta 2, .close 4 3 none].foldlM NonClausal.step s₀ =
        .ok s ∧ NonClausal.ReadableProof s := by
  obtain ⟨hterm, hrelation, hresolution, htableau, hnonClausal⟩ := proofs_read_back
  have hf : Term.Readable (.app "f" [.var "X", .const "c"]) :=
    .app ⟨⟨by decide, List.all_eq_true.mp (by decide)⟩, by decide⟩ (by simp)
      (List.forall_mem_cons.mpr ⟨.var (by decide), List.forall_mem_singleton.mpr
        (.const ⟨⟨by decide, List.all_eq_true.mp (by decide)⟩, by decide⟩)⟩)
  refine ⟨hterm _ hf, hrelation ⟨"R", _⟩ (by decide) (List.forall_mem_singleton.mpr hf), ?_, ?_, ?_⟩
  · have hstart : Resolution.FirstOrder.start {} exceptionText =
        .ok (.initial exceptionClauses false) := by
      rw [Resolution.FirstOrder.start, ofFirstOrderText_exceptionText]
      rfl
    obtain ⟨s, hrun⟩ := exceptionClauses_resolved
    exact ⟨_, s, hstart, hrun, hresolution _ _ _ _ _ hstart hrun⟩
  · have hstart : Tableau.FirstOrder.start { backtracking := true } exceptionText =
        .ok (.initial exceptionClauses .unconnected false true false) := by
      rw [Tableau.FirstOrder.start, ofFirstOrderText_exceptionText]
      rfl
    obtain ⟨s, hrun⟩ : ∃ s,
        [Tableau.Move.expand 0 0, .expand 1 1, .close 2 1 none].foldlM Tableau.FirstOrder.step
          (.initial exceptionClauses .unconnected false true false) = .ok s := ⟨_, by cbv⟩
    exact ⟨_, s, hstart, hrun, htableau _ _ _ _ _ hstart hrun⟩
  · have hstart : NonClausal.start {} exceptionText =
        .ok (.initial exception.negationNormal true) := by
      rw [NonClausal.start, parse_exceptionText]
      rfl
    obtain ⟨s, hrun⟩ : ∃ s,
        [NonClausal.Move.alpha 0, .gamma 1, .delta 2, .close 4 3 none].foldlM NonClausal.step
          (.initial exception.negationNormal true) = .ok s := ⟨_, by cbv⟩
    exact ⟨_, s, hstart, hrun, hnonClausal _ _ _ _ _ hstart hrun⟩

end Deduction
