import Deduction.Proofs.NonClausal.Soundness

/-!
# Instantiating a non-clausal tableau

Closing a leaf instantiates all formulas. An instance says of the values of the variables
what the formula says of the values of the terms put in, unless a quantifier captures a
variable of such a term. None does as long as no bound variable is typed in. If one is,
even a satisfiable formula can be refuted.
-/

namespace Deduction.NonClausal

open Deduction.Tree

universe u

variable {f : Formula} {s₀ s s' : State} {moves : List Move} {leaf partner : Nat}
  {assignment : Option (KeyMap String String)} {σ : Substitution}

namespace Starts

theorem formed (h : Starts f s₀) (hrun : moves.foldlM step s₀ = .ok s) :
    Formed f.negationNormal s := by
  obtain ⟨backtracking, rfl⟩ := h.exists_eq_initial
  exact (Formed.invariant _).run (fun _ _ => trivial) hrun

theorem proper (h : Starts f s₀) (hrun : moves.foldlM step s₀ = .ok s)
    (hmoves : ∀ m ∈ moves, m.Avoids f.negationNormal.binders) : Proper f.negationNormal s := by
  obtain ⟨backtracking, rfl⟩ := h.exists_eq_initial
  exact (Proper.invariant h.readable h.not_free).run hmoves hrun

/-- A closing substitution has no bound variable unless one is typed in. For one that is typed in
it does not matter what was typed in before. -/
theorem avoids_of_closes (h : Starts f s₀) (hrun : moves.foldlM step s₀ = .ok s)
    (hc : Closes s s' leaf partner assignment σ)
    (hmoves : assignment = none → ∀ m ∈ moves, m.Avoids f.negationNormal.binders)
    (hm : (Move.close leaf partner assignment).Avoids f.negationNormal.binders) :
    σ.Avoids f.negationNormal.binders := by
  cases assignment with
  | none => exact (h.proper hrun (hmoves rfl)).avoids_of_closes hc hm
  | some texts =>
    obtain ⟨-, -, l, r, -, -, -, -, -, hσ, -⟩ := hc.relations
    exact hm σ (closingSubstitution_some hσ)

end Starts

/-- Closing a leaf instantiates the formula of every node, and the instance is true where the
formula is true of the values of the terms put in, provided that no variable is captured. No
variable is if no bound one is typed in, neither in this move nor, where the substitution is
computed, before. -/
theorem close_captureFree (s₀ s s' : State) (moves : List Move) (leaf partner : Nat)
    (assignment : Option (KeyMap String String)) :
    (∀ params text, start params text = .ok s₀ →
      ∃ f, Formula.parse .firstOrder text = .ok f ∧ Starts f s₀) ∧
    ∀ f, Starts f s₀ → moves.foldlM step s₀ = .ok s →
      step s (.close leaf partner assignment) = .ok s' →
      ∃ σ, Closes s s' leaf partner assignment σ ∧
        (∀ i, (s'.tree.get? i).map (fun n => n.label.formula) =
          (s.tree.get? i).map fun n => n.label.formula.instantiate σ) ∧
        (∀ i n n', s.tree.get? i = some n → s'.tree.get? i = some n' →
          n.label.formula.Admits σ.apply →
          ∀ (D : Type u) (M : Interpretation D) (v : String → D), n'.label.formula.Holds M v ↔
            n.label.formula.Holds M fun x => (σ.apply x).value M v) ∧
        ((assignment = none → ∀ m ∈ moves, m.Avoids f.binders) →
          (Move.close leaf partner assignment).Avoids f.binders →
          ∀ i n, s.tree.get? i = some n → n.label.formula.Admits σ.apply) := by
  refine ⟨fun params text => exists_starts_of_start, ?_⟩
  intro f hs hrun hstep
  have hformed := hs.formed hrun
  obtain ⟨σ, hc⟩ := exists_closes hstep
  have hbinders : f.negationNormal.binders ⊆ f.binders := fun _ => Formula.mem_binders_normalize.mp
  refine ⟨σ, hc, fun i => ?_, fun i n n' hn hn' hadmits D M v => ?_, fun hmoves hm i n hn => ?_⟩
  · obtain ⟨ids, -, -, hget⟩ := hc.exists_get?_eq hformed.rooted
    rw [hget, Option.map_map]
    rfl
  · rw [hc.formula_eq hformed.rooted hn hn']
    exact Formula.holds_bind hadmits
  · refine hformed.admits ?_ (formula_mem_formulas hn)
    exact hs.avoids_of_closes hrun hc (fun hnone m hmem => (hmoves hnone m hmem).of_subset hbinders)
      (hm.of_subset hbinders)

/-- The formula `∀X ∃Y R(X, Y) ∧ (Q ∧ ¬Q ∨ ∀Z ¬R(Z, Z))`. -/
def irreflexive : Formula :=
  .and (.all "X" (.ex "Y" (.rel ⟨"R", [.var "X", .var "Y"]⟩)))
    (.or (.and (.rel ⟨"Q", []⟩) (.not (.rel ⟨"Q", []⟩)))
      (.all "Z" (.not (.rel ⟨"R", [.var "Z", .var "Z"]⟩))))

theorem starts_irreflexive :
    Starts irreflexive (.initial irreflexive.negationNormal true) := by
  have hx : Grammar.IsVariableName "X" := by decide
  have hy : Grammar.IsVariableName "Y" := by decide
  have hz : Grammar.IsVariableName "Z" := by decide
  have hxy : Relation.Readable ⟨"R", [.var "X", .var "Y"]⟩ :=
    List.forall_mem_cons.mpr ⟨.var hx, List.forall_mem_singleton.mpr (.var hy)⟩
  have hzz : Relation.Readable ⟨"R", [.var "Z", .var "Z"]⟩ :=
    List.forall_mem_cons.mpr ⟨.var hz, List.forall_mem_singleton.mpr (.var hz)⟩
  have hq : Relation.Readable ⟨"Q", []⟩ := List.forall_mem_nil _
  exact ⟨⟨⟨hx, hy, hxy⟩, ⟨hq, hq⟩, hz, hzz⟩, by decide, true, rfl⟩

/-- Two things are related if they are different. -/
def difference : Interpretation Bool where
  const _ := true
  func _ _ := true
  rel _ args := args.Nodup

@[simp] theorem holds_difference (v : String → Bool) (name x y : String) :
    (Formula.rel ⟨name, [.var x, .var y]⟩).Holds difference v ↔ v x ≠ v y := by
  simp [Formula.Holds, Relation.Holds, Term.valueList_eq_map, Term.value, difference]

private theorem holds_irreflexive (v : String → Bool) : irreflexive.Holds difference v := by
  refine ⟨fun d => ⟨!d, ?_⟩, Or.inr fun d hd => ?_⟩
  · simp
  · exact (holds_difference _ _ _ _).mp hd rfl

/-- After these moves the leaf `¬Q` can be closed under any substitution, and `∃Y R(X_1, Y)` has
not been decomposed. -/
def opening : List Move := [.alpha 0, .gamma 1, .beta 2, .alpha 4]

/-- The formula of node 3 then. -/
def pending : Formula := .ex "Y" (.rel ⟨"R", [.var "X_1", .var "Y"]⟩)

private theorem exists_pending
    (h : opening.foldlM step (.initial irreflexive.negationNormal true) = .ok s) :
    ∃ n, s.tree.get? 3 = some n ∧ n.label.formula = pending := by
  have hrun : (opening.foldlM step (.initial irreflexive.negationNormal true) >>= fun s =>
      Outcome.ofReference ((s.tree.get? 3).map fun n => n.label.formula)) = .ok pending := by cbv
  rw [h] at hrun
  exact Option.map_eq_some_iff.mp (Outcome.ofReference_eq_ok.mp hrun)

/-- The substitution of a variable for `X_1`. -/
def replacing (x : String) : Substitution := KeyMap.empty.insert "X_1" (.var x)

theorem parse_replacing {x : String} (hx : Grammar.IsVariableName x) :
    Substitution.parse (replacing x).texts = .ok (replacing x) :=
  Substitution.parse_texts (List.forall_mem_singleton.mpr (.var hx))

private theorem avoids_replacing {x : String} {xs : List String} (hx : x ∉ xs) :
    (replacing x).Avoids xs := by
  intro z t hz y hy
  rw [replacing, KeyMap.get?_insert] at hz
  split at hz <;> cases hz
  rwa [List.mem_singleton.mp hy]

/-- Closing `¬Q` with a variable for `X_1`. -/
def closing (x : String) : Move := .close 7 6 (some (replacing x).texts)

theorem Closes.eq_replacing {x : String} (hx : Grammar.IsVariableName x)
    (h : Closes s s' leaf partner (some (replacing x).texts) σ) : σ = replacing x := by
  obtain ⟨-, -, l, r, -, -, -, -, -, hσ, -⟩ := h.relations
  exact Except.ok.inj ((closingSubstitution_some hσ).symm.trans (parse_replacing hx))

/-- The leaf can be closed with any variable for `X_1`, which is put into node 3. -/
theorem exists_replaced {x : String} (hx : Grammar.IsVariableName x) :
    ∃ s s' n n', opening.foldlM step (.initial irreflexive.negationNormal true) = .ok s ∧
      step s (closing x) = .ok s' ∧ s.tree.get? 3 = some n ∧ s'.tree.get? 3 = some n' ∧
      n.label.formula = pending ∧ n'.label.formula = pending.instantiate (replacing x) := by
  have hrun : (opening.foldlM step (.initial irreflexive.negationNormal true) >>= fun s =>
      step s (closing x) >>= fun _ => .ok ()) = Except.ok () := by
    simp only [closing, step_close, State.close, State.closingSubstitution, parse_replacing hx]
    cbv
  simp only [Outcome.bind_eq_ok] at hrun
  obtain ⟨s, hs, ⟨s', hs', -⟩⟩ := hrun
  obtain ⟨n, hn, hpending⟩ := exists_pending hs
  obtain ⟨σ, hc⟩ := exists_closes hs'
  have hrooted := (starts_irreflexive.formed hs).rooted
  obtain ⟨n', hn', -⟩ := (hc.sameShape hrooted).node hn
  refine ⟨s, s', n, n', hs, hs', hn, hn', hpending, ?_⟩
  rw [hc.formula_eq hrooted hn hn', hpending, hc.eq_replacing hx]

/-- A variable that is not bound in the formula is not captured. -/
theorem fresh_captureFree :
    ∃ s s' n n', opening.foldlM step (.initial irreflexive.negationNormal true) = .ok s ∧
      step s (closing "W") = .ok s' ∧ (closing "W").Avoids irreflexive.binders ∧
      s.tree.get? 3 = some n ∧ s'.tree.get? 3 = some n' ∧ n.label.formula = pending ∧
      ∀ (D : Type u) (M : Interpretation D) (v : String → D), n'.label.formula.Holds M v ↔
        n.label.formula.Holds M fun x => ((replacing "W").apply x).value M v := by
  have hW : Grammar.IsVariableName "W" := by decide
  obtain ⟨s, s', n, n', hs, hs', hn, hn', hpending, -⟩ := exists_replaced hW
  have havoids : (closing "W").Avoids irreflexive.binders := by
    intro τ hτ
    cases (parse_replacing hW).symm.trans hτ
    exact avoids_replacing (by decide)
  obtain ⟨σ, hc, -, hiff, hadmits⟩ :=
    (close_captureFree _ s s' opening 7 6 _).2 irreflexive starts_irreflexive hs hs'
  cases hc.eq_replacing hW
  refine ⟨s, s', n, n', hs, hs', havoids, hn, hn', hpending, ?_⟩
  exact hiff 3 n n' hn hn' (hadmits nofun havoids 3 n hn)

/-- With `Y` for `X_1` the quantifier captures it: `Y` is related to something, but nothing is
related to itself. -/
theorem captured_not_iff (v : String → Bool) :
    ¬ ((pending.instantiate (replacing "Y")).Holds difference v ↔
      pending.Holds difference fun x => ((replacing "Y").apply x).value difference v) := by
  intro h
  have hother : pending.Holds difference fun x =>
      ((replacing "Y").apply x).value difference v := by
    refine ⟨!v "Y", ?_⟩
    simp [replacing, Substitution.apply, KeyMap.get?_insert, Term.value]
  have hinstance : pending.instantiate (replacing "Y") =
      .ex "Y" (.rel ⟨"R", [.var "Y", .var "Y"]⟩) := by decide
  rw [hinstance] at h
  obtain ⟨d, hd⟩ := h.mpr hother
  exact (holds_difference _ _ _ _).mp hd rfl

/-- With the bound variable `Y` for `X_1` the instance of `∃Y R(X_1, Y)` says something else, and
after it has been decomposed a satisfiable formula is refuted. -/
theorem capture_refutes_satisfiable :
    (∀ v, irreflexive.Holds difference v) ∧
    Starts irreflexive (.initial irreflexive.negationNormal true) ∧
    ∃ s s' n n', opening.foldlM step (.initial irreflexive.negationNormal true) = .ok s ∧
      step s (closing "Y") = .ok s' ∧
      Closes s s' 7 6 (some (replacing "Y").texts) (replacing "Y") ∧
      s.tree.get? 3 = some n ∧ s'.tree.get? 3 = some n' ∧
      (∀ v, ¬ (n'.label.formula.Holds difference v ↔
        n.label.formula.Holds difference fun x =>
          ((replacing "Y").apply x).value difference v)) ∧
      ∃ s'' v, [Move.delta 3, .gamma 5, .close 9 8 none].foldlM step s' = .ok s'' ∧
        s''.verdict = .ok v ∧ v.closed = true := by
  have hY : Grammar.IsVariableName "Y" := by decide
  obtain ⟨s, s', n, n', hs, hs', hn, hn', hpending, hpending'⟩ := exists_replaced hY
  obtain ⟨σ, hc⟩ := exists_closes hs'
  cases hc.eq_replacing hY
  have hrun : (opening.foldlM step (.initial irreflexive.negationNormal true) >>= fun s =>
      step s (closing "Y") >>= fun s' =>
      [Move.delta 3, .gamma 5, .close 9 8 none].foldlM step s' >>= State.verdict) =
      .ok ⟨true, "The proof is closed and valid in non-clausal tableaux with backtracking"⟩ := by
    simp only [closing, step_close, State.close, State.closingSubstitution, parse_replacing hY]
    cbv
  simp only [Outcome.bind_eq_ok] at hrun
  obtain ⟨s₁, hs₁, s₂, hs₂, s'', hs'', hverdict⟩ := hrun
  cases hs.symm.trans hs₁
  cases hs'.symm.trans hs₂
  refine ⟨holds_irreflexive, starts_irreflexive, s, s', n, n', hs, hs', hc, hn, hn', fun v => ?_,
    s'', _, hs'', hverdict, rfl⟩
  rw [hpending, hpending']
  exact captured_not_iff v

end Deduction.NonClausal
