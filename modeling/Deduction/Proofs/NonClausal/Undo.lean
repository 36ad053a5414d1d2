import Deduction.Proofs.NonClausal.Soundness
import Deduction.Proofs.Replay

/-!
# Taking moves back in non-clausal tableaux

Every tableau is what its kept moves lead to, so taking a move back gives the tableau
before it, with the numbers of the variables and symbols handed out. A rule depends on
nothing but the tableau, and a closing move is kept with the texts of the substitution
that was used. These are read back as that substitution whatever has been typed in,
since all names in the tableau can be read.
-/

namespace Deduction.NonClausal

variable {f : Formula} {s s' : State} {m : Move}

/-- The moves of non-clausal tableaux, as kept. -/
def journal : Journal State Move where
  toRules := rules
  origin s := .ok (.initial s.formula s.backtracking)

/-- Of an assignment only the substitution counts that is read from it. -/
theorem Closes.close_eq_ok {leaf partner : Nat} {assignment : Option (KeyMap String String)}
    {σ : Substitution} {texts : KeyMap String String}
    (hc : Closes s s' leaf partner assignment σ) (ht : Tree.Rooted s.tree)
    (h : s.close leaf partner assignment = .ok s')
    (htexts : Substitution.parse texts = .ok σ) : s.close leaf partner (some texts) = .ok s' := by
  obtain ⟨n, m, l, r, hn, -, -, hm, hopposed, hσ, -⟩ := hc.relations
  have hread : State.closingSubstitution l r (some texts) = .ok σ :=
    Outcome.ofText_eq_ok.mpr htexts
  have hpartner := Nat.lt_of_le_of_lt (hc.above.le ht) hc.named
  simp only [State.close, node_eq_ok.mpr ⟨hc.named, hn⟩, node_eq_ok.mpr ⟨hpartner, hm⟩,
    complementary_eq_ok.mpr hopposed, Outcome.ok_bind, hσ, hread] at h ⊢
  exact h

/-- A rule is kept as it is. -/
theorem Expands.keeps {s₁ : State} {g : Formula} {e : Expansion} (h : Expands s s₁ g e)
    (hback : s.backtracking = true) (hm : advance s m = .ok (s₁.record m)) :
    journal.Keeps s (s₁.record m) where
  move := by
    have hhistory : (s₁.record m).history = s.history ++ [m] := by
      rw [State.record, keepMove, h.backtracking, if_pos hback, h.history]
    exact ⟨m, hm, hhistory⟩
  origin := by
    have hformula : (s₁.record m).formula = s.formula := (formula_record s₁ m).trans h.formula
    have hsame : (s₁.record m).backtracking = s.backtracking :=
      (backtracking_record s₁ m).trans h.backtracking
    simp only [journal, hformula, hsame]

/-- A closing move is kept with the substitution that was used, whose texts are read back. -/
theorem Closes.keeps {leaf partner : Nat} {assignment : Option (KeyMap String String)}
    {σ : Substitution} (h : Closes s s' leaf partner assignment σ) (hs : ReadableTableau f s)
    (hback : s.backtracking = true) (hm : s.close leaf partner assignment = .ok s') :
    journal.Keeps s s' where
  move := by
    have htexts : Substitution.parse σ.texts = .ok σ :=
      Substitution.parse_texts (hs.readable_of_closes h)
    have hagain : advance s (.close leaf partner (some σ.texts)) = .ok s' :=
      h.close_eq_ok hs.rooted hm htexts
    exact ⟨.close leaf partner (some σ.texts), hagain, h.history.trans (if_pos hback)⟩
  origin := by simp only [journal, h.formula, h.backtracking]

theorem keeps_of_advance (hs : ReadableTableau f s) (hback : s.backtracking = true)
    (hm : advance s m = .ok s') : ReadableTableau f s' ∧ journal.Keeps s s' := by
  rcases advance_cases hm with ⟨g, e, s₁, -, he, rfl⟩ | ⟨leaf, partner, assignment, σ, rfl, hc⟩
  · exact ⟨(hs.expand he).record m, he.keeps hback hm⟩
  · exact ⟨hs.close hc, hc.keeps hs hback hm⟩

/-- Taking a move back in a tableau for a readable formula makes the kept ones before it again. -/
theorem undoes (hf : f.Readable) :
    journal.Undoes fun s => s.backtracking = true ∧ ReadableTableau f s where
  none _ _ h := by cases h
  idle s start _ hempty hstart := by
    obtain ⟨-, heq⟩ := earlier_eq_ok.mp hstart
    exact heq.trans (if_pos hempty)
  earlier s hs hne := by
    have horigin : journal.origin s = .ok (.initial s.formula true) := by simp only [journal, hs.1]
    rw [horigin]
    exact earlier_eq_ok.mpr ⟨hs.1, (if_neg hne).symm⟩
  origin s s₀ hs hs₀ := by
    have hs₀ : Except.ok (State.initial s.formula s.backtracking) = .ok s₀ := hs₀
    rw [hs.2.origin, hs.1] at hs₀
    cases hs₀
    exact ⟨⟨rfl, readableTableau_initial hf true⟩, rfl, rfl⟩
  keeps s s' m hs hm := by
    obtain ⟨hreadable, hkeeps⟩ := keeps_of_advance hs.2 hs.1 hm
    have hback := congrArg (fun s : State => s.backtracking) (Except.ok.inj hkeeps.origin)
    exact ⟨⟨hback.trans hs.1, hreadable⟩, hkeeps⟩

/-- Taking a move back in a non-clausal tableau in which moves are kept gives the tableau before
it, after every run from a closed formula, and the moves that are kept lead from the start to the
tableau. -/
theorem undo_after_step (s₀ s : State) (moves : List Move) :
    (∀ params text, start params text = .ok s₀ →
      s₀.backtracking = params.backtracking ∧
        ∃ f, Formula.parse .firstOrder text = .ok f ∧ Starts f s₀) ∧
    ∀ f, Starts f s₀ → s₀.backtracking = true → moves.foldlM step s₀ = .ok s →
      s.history.foldlM step s₀ = .ok s ∧
      ∀ m s', m ≠ .undo → step s m = .ok s' → step s' .undo = .ok s := by
  constructor
  · intro params text h
    refine ⟨?_, exists_starts_of_start h⟩
    obtain ⟨f, -, hs₀⟩ := Outcome.bind_eq_ok.mp h
    cases hs₀
    rfl
  · intro f hstarts hback hrun
    have hundoes := undoes hstarts.readable
    obtain ⟨backtracking, rfl⟩ := hstarts.exists_eq_initial
    have hs := hundoes.run hrun ⟨hback, readableTableau_initial hstarts.readable _⟩ rfl rfl
    have horigin : journal.origin s = .ok (.initial f.negationNormal backtracking) := by
      simp only [journal, hs.1.2.origin, hs.1.1, ← hback, State.initial]
    have hreplay := hundoes.foldlM_eq_ok (fun s => s.history.length + 1) hs.2
    rw [horigin] at hreplay
    exact ⟨hreplay, fun m s' hm hstep => hundoes.undo_eq_ok hs hm hstep⟩

/-- The proof of the contradiction is finished by its last move. -/
theorem closed_after_refutation :
    ((refutation.dropLast.foldlM step (.initial contradiction.negationNormal true) >>=
      fun s => step s (.close 6 5 none)).toOption.map fun s =>
        (s.history.length, s.variableCount, s.symbolCount)) = some (6, 2, 2) := by
  cbv

/-- That move, which has replaced two variables, is taken back. -/
theorem undo_refutation :
    ∃ s s', refutation.dropLast.foldlM step (.initial contradiction.negationNormal true) = .ok s ∧
      step s (.close 6 5 none) = .ok s' ∧ step s' .undo = .ok s := by
  obtain ⟨s, s', hs, hs', -⟩ := Outcome.exists_of_toOption closed_after_refutation
  obtain ⟨-, hundo⟩ := (undo_after_step _ s refutation.dropLast).2 contradiction
    starts_contradiction rfl hs
  exact ⟨s, s', hs, hs', hundo _ s' (by simp) hs'⟩

end Deduction.NonClausal
