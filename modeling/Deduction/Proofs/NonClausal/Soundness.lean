import Deduction.Proofs.Formula.Symbols
import Deduction.Proofs.NonClausal.Names

/-!
# Soundness of non-clausal tableaux

If the formula at the start is true in some interpretation, then after every move
there is an interpretation in which, for all values of the free variables, everything
on some branch is true. A closed tree has no such branch. This needs that no
instantiation captures a variable, which is so as long as all substitutions are
computed.
-/

namespace Deduction.NonClausal

open Deduction.Tree

universe u

variable {f g : Formula} {e : Expansion} {s s' : State}

/-- The formula that is decomposed implies one side of what it is decomposed into, for a suitable
meaning of a new symbol. -/
theorem Rule.exists_interpretation {D : Type u} [Nonempty D] (hs : Proper f s)
    (hg : g ∈ s.formulas) (hrule : Rule s g e) (M : Interpretation D) :
    ∃ N : Interpretation D, (∀ g' ∈ s.formulas, ∀ v, g'.Holds M v → g'.Holds N v) ∧
      ∀ v, g.Holds N v → e.SomeSide fun g' => g'.Holds N v := by
  have bound {x : String} (hx : x ∈ g.binders) : x ∈ f.binders := (hs.binders x).mpr ⟨g, hg, hx⟩
  cases hrule with
  | alpha f₁ f₂ | beta f₁ f₂ => exact ⟨M, fun _ _ _ h => h, fun _ h => h⟩
  | gamma x body k new =>
    refine ⟨M, fun _ _ _ h => h, fun v h => ?_⟩
    refine (Formula.holds_instantiateBound fun z hz hmem => ?_).mpr (h _)
    rw [Term.vars, List.mem_singleton] at hz
    exact hs.notMem_binders_of_new new (hz ▸ bound (List.mem_cons_of_mem x hmem))
  | delta x body k new =>
    obtain ⟨F, hF⟩ := Formula.exists_witness M x body
    have hnew : "sk" ++ Decimal.render k ∉ (Formula.ex x body).symbols := new _ hg
    have hbody : "sk" ++ Decimal.render k ∉ body.symbols := hnew
    refine ⟨M.withSymbol ("sk" ++ Decimal.render k) F,
      fun g' hg' v h => (Formula.holds_withSymbol (new g' hg')).mpr h, fun v h => ?_⟩
    refine (Formula.holds_instantiateBound fun z hz hmem => ?_).mpr ?_
    · exact hs.free _ hg z (Formula.mem_freeVars.mp (Term.mem_vars_skolem.mp hz))
        (bound (List.mem_cons_of_mem x hmem))
    · rw [Term.value_skolem]
      exact (Formula.holds_withSymbol hbody).mpr (hF v ((Formula.holds_withSymbol hnew).mp h))

/-- Whether the truth of a formula in some interpretation shows in a tableau, as long as there are
ids: in some interpretation of the same domain there is a true branch for all values of the
variables. -/
def ShowsTruth (f : Formula) (s : State) : Prop :=
  s.tree.size ≤ UInt32.size → ∀ (D : Type u) [Nonempty D] (M : Interpretation D),
    (∀ v, f.Holds M v) →
    ∃ N : Interpretation D, ∀ v, ∃ i, LiveAt s.tree (fun l => l.formula.Holds N v) i

private theorem showsTruth_initial (f : Formula) (backtracking : Bool) :
    ShowsTruth.{u} f (.initial f backtracking) := by
  intro _ D _ M hM
  refine ⟨M, fun v => ⟨root, ⟨_, rfl, rfl⟩, fun j n _ hn => ?_⟩⟩
  rw [(eq_of_get?_single hn).2]
  exact hM v

theorem ShowsTruth.expand (h : ShowsTruth.{u} f s) (hs : Proper f s) (he : Expands s s' g e) :
    ShowsTruth.{u} f s' := by
  intro hfits D _ M hM
  have hsize := (he.extends_tree hs.rooted).keepsParents.size_le
  obtain ⟨N, hN⟩ := h (Nat.le_trans hsize hfits) D M hM
  obtain ⟨N', hkeep, hside⟩ := he.rule.exists_interpretation hs he.mem_formulas N
  refine ⟨N', fun v => he.live hs.steady hfits ?_ (hside v)⟩
  obtain ⟨i, hi⟩ := hN v
  refine ⟨i, hi.leaf, fun j n hj hn => ?_⟩
  exact hkeep _ (formula_mem_formulas hn) v (hi.along j n hj hn)

theorem ShowsTruth.close {leaf partner : Nat} {assignment : Option (KeyMap String String)}
    {σ : Substitution} (h : ShowsTruth.{u} f s) (hs : Proper f s) (hσ : σ.Avoids f.binders)
    (hc : Closes s s' leaf partner assignment σ) : ShowsTruth.{u} f s' := by
  intro hfits D _ M hM
  obtain ⟨N, hN⟩ := h ((hc.sameShape hs.rooted).size_eq ▸ hfits) D M hM
  refine ⟨N, fun v => hc.live hs.rooted (hN fun x => (σ.apply x).value N v) fun g hg hholds => ?_⟩
  exact (Formula.holds_bind (hs.admits hσ hg)).mpr hholds

theorem showsTruth_invariant (hreadable : f.Readable) (hclosed : ∀ x, ¬ f.Free x) :
    Invariant f (Move.Avoids f.binders) fun s => Proper f s ∧ ShowsTruth.{u} f s where
  initial b := ⟨proper_initial hreadable hclosed b, showsTruth_initial f b⟩
  origin _ h := h.1.origin
  history _ h := h.1.history
  expand s s' g e m hm _ he h := by
    have htruth := h.2.expand h.1 he
    exact ⟨(h.1.expand he).record hm, htruth⟩
  close s s' leaf partner assignment σ hm hc h :=
    ⟨h.1.close hc hm, h.2.close h.1 (h.1.avoids_of_closes hc hm) hc⟩

/-- A tableau before the first move, for a closed formula with names that can be read. -/
def Starts (f : Formula) (s : State) : Prop :=
  f.Readable ∧ f.freeVars = [] ∧ ∃ backtracking, s = .initial f.negationNormal backtracking

theorem exists_starts_of_start {params : Params} {text : String} (h : start params text = .ok s) :
    ∃ f, Formula.parse .firstOrder text = .ok f ∧ Starts f s := by
  simp only [start, Outcome.bind_eq_ok, Outcome.ofText_eq_ok, Outcome.pure_eq_ok] at h
  obtain ⟨f, hf, rfl⟩ := h
  obtain ⟨hreadable, hfree⟩ := Formula.readable_of_parse hf
  exact ⟨f, hf, hreadable, hfree, _, rfl⟩

namespace Starts

variable {s₀ : State}

theorem exists_eq_initial (h : Starts f s₀) :
    ∃ backtracking, s₀ = .initial f.negationNormal backtracking := h.2.2

theorem readable (h : Starts f s₀) : f.negationNormal.Readable := h.1.normalize true

theorem not_free (h : Starts f s₀) (x : String) : ¬ f.negationNormal.Free x :=
  fun hx => Formula.not_free_of_closed h.2.1 x (Formula.free_normalize.mp hx)

end Starts

/-- A finished proof in which no bound variable was typed in shows that the formula is
unsatisfiable. -/
theorem Starts.unsatisfiable {s₀ : State} {moves : List Move} {v : Verdict} (hs : Starts f s₀)
    (hmoves : ∀ m ∈ moves, m.Avoids f.negationNormal.binders)
    (h : moves.foldlM step s₀ = .ok s) (hv : s.verdict = .ok v) (hclosed : v.closed = true) :
    Formula.Unsatisfiable.{u} f := by
  obtain ⟨backtracking, rfl⟩ := hs.exists_eq_initial
  obtain ⟨hproper, htruth⟩ := (showsTruth_invariant.{u} hs.readable hs.not_free).run hmoves h
  obtain ⟨n, hn, hroot⟩ := Verdict.exists_closed_root hv hclosed
  have hfits := hproper.steady.fits_of_isClosed_root hn hroot
  intro D _ M w hholds
  have hnormal := (Formula.holds_negationNormal M w f).mpr hholds
  obtain ⟨N, hN⟩ := htruth hfits D M (Formula.holds_of_closed M hs.not_free hnormal)
  exact not_live_of_closed hproper.steady hproper.justified hn hroot
    (fun r hr hnot => hnot hr) (hN w)

/-- Non-clausal tableaux are sound: if a run from a closed formula in which all substitutions are
computed ends in a finished proof, then the formula holds in no interpretation. -/
theorem closed_unsatisfiable (s₀ s : State) (moves : List Move) (v : Verdict) :
    (∀ params text, start params text = .ok s₀ →
      ∃ f, Formula.parse .firstOrder text = .ok f ∧ Starts f s₀) ∧
    ∀ f, Starts f s₀ → (∀ leaf partner texts, Move.close leaf partner (some texts) ∉ moves) →
      moves.foldlM step s₀ = .ok s → s.verdict = .ok v → v.closed = true →
      Formula.Unsatisfiable.{u} f := by
  refine ⟨fun params text => exists_starts_of_start, ?_⟩
  intro f hs hcomputed hrun hv hclosed
  refine hs.unsatisfiable (fun m hm => ?_) hrun hv hclosed
  cases m with
  | close leaf partner assignment =>
    cases assignment with
    | none => trivial
    | some texts => exact absurd hm (hcomputed leaf partner texts)
  | _ => trivial

/-- The formula `∀X ∃Y R(X, Y) ∧ ∃X ∀Y ¬R(X, Y)`. -/
def contradiction : Formula :=
  .and (.all "X" (.ex "Y" (.rel ⟨"R", [.var "X", .var "Y"]⟩)))
    (.ex "X" (.all "Y" (.not (.rel ⟨"R", [.var "X", .var "Y"]⟩))))

theorem starts_contradiction :
    Starts contradiction (.initial contradiction.negationNormal true) := by
  have hx : Grammar.IsVariableName "X" := by decide
  have hy : Grammar.IsVariableName "Y" := by decide
  have hr : Relation.Readable ⟨"R", [.var "X", .var "Y"]⟩ :=
    List.forall_mem_cons.mpr ⟨.var hx, List.forall_mem_singleton.mpr (.var hy)⟩
  exact ⟨⟨⟨hx, hy, hr⟩, hx, hy, hr⟩, by decide, true, rfl⟩

/-- Its refutation. One move is taken back on the way. -/
def refutation : List Move :=
  [.alpha 0, .delta 2, .gamma 1, .delta 4, .gamma 1, .undo, .gamma 3, .close 6 5 none]

theorem contradiction_unsatisfiable :
    (∃ s v, refutation.foldlM step (.initial contradiction.negationNormal true) = .ok s ∧
      s.verdict = .ok v ∧ v.closed = true) ∧ Formula.Unsatisfiable.{u} contradiction := by
  have hrun :
      (refutation.foldlM step (.initial contradiction.negationNormal true) >>= State.verdict) =
        .ok ⟨true, "The proof is closed and valid in non-clausal tableaux with backtracking"⟩ := by
    cbv
  obtain ⟨s, hs, hv⟩ := Outcome.bind_eq_ok.mp hrun
  refine ⟨⟨s, _, hs, hv, rfl⟩, ?_⟩
  refine (closed_unsatisfiable _ s refutation _).2 contradiction starts_contradiction ?_ hs hv rfl
  simp [refutation]

end Deduction.NonClausal
