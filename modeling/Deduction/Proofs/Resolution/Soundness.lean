import Deduction.Proofs.Resolution.Rules
import Mathlib

/-!
# Soundness of first-order resolution

All clauses of a proof follow from those at its start, so a proof that is reported
as finished shows them to be unsatisfiable. This holds of every run without a
certain kind of move: one that merges atoms and names the position of the atom to be
kept a second time drops that atom as well. The restriction cannot be weakened, for
each move of this kind derives from the clauses of some closed formula one that does
not follow.
-/

namespace Deduction

universe u

/-- A formula without quantifiers and variables whose clauses are known. -/
structure Formula.GroundForm (f : Formula) (clauses : List (Clause Relation)) : Prop where
  /-- Nothing is to be replaced by Skolem terms. -/
  skolem : f.skolemWith true [] .var = pure f
  /-- Distribution gives the clauses. -/
  clauses : ClauseSet.distribute none false true f = .ok ⟨clauses⟩
  /-- No variable occurs. -/
  closed : f.freeOccurrences [] = []

namespace Formula.GroundForm

variable {f g : Formula}

theorem rel {r : Relation} (h : r.vars = []) : GroundForm (.rel r) [⟨[⟨r, false⟩]⟩] where
  skolem := by simp only [skolemWith, Relation.bind_var, signed, if_true]
  clauses := rfl
  closed := by rw [freeOccurrences, h, List.filter_nil]

theorem or {c d : Clause Relation} (hf : GroundForm f [c]) (hg : GroundForm g [d]) :
    GroundForm (.or f g) [⟨c.atoms ++ d.atoms⟩] where
  skolem := by simp only [skolemWith, hf.skolem, hg.skolem, pure_bind, if_true]
  clauses := by
    rw [ClauseSet.distribute, hf.clauses, hg.clauses]
    rfl
  closed := by rw [freeOccurrences, hf.closed, hg.closed, List.append_nil]

theorem and {cs ds : List (Clause Relation)} (hf : GroundForm f cs) (hg : GroundForm g ds) :
    GroundForm (.and f g) (cs ++ ds) where
  skolem := by simp only [skolemWith, hf.skolem, hg.skolem, pure_bind, if_true]
  clauses := by
    rw [ClauseSet.distribute, hf.clauses, hg.clauses]
    rfl
  closed := by rw [freeOccurrences, hf.closed, hg.closed, List.append_nil]

private theorem ofFirstOrder_eq_ok {cs : List (Clause Relation)} (h : GroundForm f cs) :
    ClauseSet.ofFirstOrder f = .ok ⟨cs⟩ := by
  rw [ClauseSet.ofFirstOrder, skolemForm, h.skolem]
  exact h.clauses

private theorem freeVars_eq_nil {cs : List (Clause Relation)} (h : GroundForm f cs) :
    f.freeVars = [] := by
  rw [freeVars, h.closed, List.eraseDups_nil]

/-- Every clause of positive ground atoms, if there are any, is that of a closed formula. -/
theorem exists_disjunction (rs : List Relation) (hne : rs ≠ []) (h : ∀ r ∈ rs, r.vars = []) :
    ∃ f, GroundForm f [⟨rs.map fun r => ⟨r, false⟩⟩] := by
  induction rs with
  | nil => exact absurd rfl hne
  | cons r rs ih =>
    have hr := GroundForm.rel (h r List.mem_cons_self)
    cases rs with
    | nil => exact ⟨_, hr⟩
    | cons q rs =>
      obtain ⟨f, hf⟩ := ih (List.cons_ne_nil q rs) fun p hp => h p (List.mem_cons_of_mem r hp)
      exact ⟨_, hr.or hf⟩

/-- A clause may be had any number of times. -/
theorem exists_replicate {c : Clause Relation} (hf : GroundForm f [c]) (n : Nat) :
    ∃ g, GroundForm g (List.replicate (n + 1) c) := by
  induction n with
  | zero => exact ⟨f, hf⟩
  | succ n ih =>
    obtain ⟨g, hg⟩ := ih
    exact ⟨_, hf.and hg⟩

end Formula.GroundForm

namespace Resolution.FirstOrder

/-- A literal that tells chosen positions from others. -/
def markedLiteral (chosen : List Nat) (k : Nat) : Relation :=
  ⟨if k ∈ chosen then "R" else "Q", [.const "c"]⟩

/-- A clause with the same atom at all chosen positions and another one elsewhere. -/
def markedClause (chosen : List Nat) (n : Nat) : Clause Relation :=
  ⟨(List.range (n + 1)).map fun k => ⟨markedLiteral chosen k, false⟩⟩

section Marked

variable {chosen : List Nat} {n : Nat}

theorem getElem?_markedClause {k : Nat} {a : Atom Relation} :
    (markedClause chosen n).atoms[k]? = some a ↔ k ≤ n ∧ a = ⟨markedLiteral chosen k, false⟩ := by
  simp only [markedClause, List.getElem?_map, Option.map_eq_some_iff, List.getElem?_eq_some_iff,
    List.length_range, List.getElem_range, Nat.lt_succ_iff]
  constructor
  · rintro ⟨_, ⟨hk, rfl⟩, rfl⟩
    exact ⟨hk, rfl⟩
  · rintro ⟨hk, rfl⟩
    exact ⟨k, ⟨hk, rfl⟩, rfl⟩

theorem atomOf_markedClause (chosen : List Nat) {k : Nat} (hk : k ≤ n) :
    State.atomOf (markedClause chosen n) k = .ok ⟨markedLiteral chosen k, false⟩ :=
  Outcome.ofLookup_eq_ok.mpr (getElem?_markedClause.mpr ⟨hk, rfl⟩)

theorem markedLiteral_of_mem {k : Nat} (hk : k ∈ chosen) :
    markedLiteral chosen k = ⟨"R", [.const "c"]⟩ := by
  rw [markedLiteral, if_pos hk]

private theorem unifier_markedLiteral {k l : Nat} (hk : k ∈ chosen) (hl : l ∈ chosen) :
    unifier (markedLiteral chosen k) (markedLiteral chosen l) = .ok .empty := by
  rw [markedLiteral_of_mem hk, markedLiteral_of_mem hl]
  cbv

/-- Equal atoms are made equal by changing nothing. -/
theorem mergeAtoms_markedClause {atoms : List Nat} (hatoms : ∀ k ∈ atoms, k ∈ chosen ∧ k ≤ n)
    (hchain : atoms.IsChain (· ≠ ·)) :
    mergeAtoms (markedClause chosen n) atoms = .ok (markedClause chosen n) := by
  induction hchain with
  | nil => rfl
  | singleton i => rfl
  | @cons_cons i j rest hne hchain ih =>
    obtain ⟨hi, hin⟩ := hatoms i (by simp)
    obtain ⟨hj, hjn⟩ := hatoms j (by simp)
    rw [mergeAtoms, if_neg hne, atomOf_markedClause _ hin, atomOf_markedClause _ hjn]
    simp only [Outcome.ok_bind, ne_eq, not_true_eq_false, if_false, unifier_markedLiteral hi hj,
      Clause.instantiate_empty]
    exact ih fun k hk => hatoms k (List.mem_cons_of_mem i hk)

/-- Merging the chosen atoms drops them all if the first one is chosen twice. -/
theorem factorize_markedClause {s : State Relation} {c1 i : Nat} {rest : List Nat}
    (hclause : s.clause c1 = .ok (markedClause (i :: rest) n)) (hn : ∀ k ∈ i :: rest, k ≤ n)
    (hi : i ∈ rest) (hchain : (i :: rest).IsChain (· ≠ ·)) :
    ∃ c, factorize s c1 (i :: rest) = .ok (s.replace c1 (markedClause (i :: rest) n) c) ∧
      ∀ a ∈ c.atoms, a.lit.name = "Q" ∧ a.negated = false := by
  have hlength : ¬ (i :: rest).length < 2 := by
    have := List.length_pos_of_mem hi
    simp only [List.length_cons]
    omega
  obtain ⟨as, has⟩ := Outcome.exists_mapM_eq_ok fun k hk =>
    ⟨_, atomOf_markedClause (i :: rest) (hn k hk)⟩
  have hmerged := mergeAtoms_markedClause (fun k hk => ⟨hk, hn k hk⟩) hchain
  have hkept : (markedClause (i :: rest) n).atoms[i]? = some ⟨⟨"R", [.const "c"]⟩, false⟩ :=
    getElem?_markedClause.mpr
      ⟨hn i List.mem_cons_self, by rw [markedLiteral_of_mem List.mem_cons_self]⟩
  rw [factorize, if_neg hlength, hclause]
  simp only [Outcome.ok_bind, has, hmerged, List.head?_cons, Option.bind_some, hkept,
    List.tail_cons]
  refine ⟨_, rfl, ?_⟩
  simp only [Clause.withSuffix, List.map_map, List.forall_mem_map, List.mem_filter, Prod.forall,
    List.mk_mem_zipIdx_iff_getElem?, Function.comp_apply]
  rintro a k ⟨hk, hstays⟩
  obtain ⟨-, rfl⟩ := getElem?_markedClause.mp hk
  -- Every chosen position is one of `rest`, since the first one is.
  have hnot : k ∉ i :: rest := by
    intro hmem
    have hrest : k ∈ rest := by
      rcases List.mem_cons.mp hmem with rfl | hrest
      · exact hi
      · exact hrest
    simp [markedLiteral_of_mem hmem, hrest] at hstays
  refine ⟨?_, rfl⟩
  change (markedLiteral (i :: rest) k).name = "Q"
  rw [markedLiteral, if_neg hnot]

end Marked

/-- An interpretation in which exactly the atoms at chosen positions hold. -/
def markedInterpretation : Interpretation PUnit.{u + 1} where
  const _ := ⟨⟩
  func _ _ := ⟨⟩
  rel name _ := name = "R"

private theorem trueIn_markedClause {chosen : List Nat} {n k : Nat} (hk : k ∈ chosen) (hn : k ≤ n) :
    (markedClause chosen n).TrueIn markedInterpretation.{u} := by
  intro v
  refine ⟨_, List.mem_of_getElem? (getElem?_markedClause.mpr ⟨hn, rfl⟩), ?_⟩
  rw [Atom.holds_of_not_negated _ rfl, markedLiteral_of_mem hk]
  rfl

private theorem not_trueIn_of_unmarked {c : Clause Relation}
    (h : ∀ a ∈ c.atoms, a.lit.name = "Q" ∧ a.negated = false) :
    ¬ c.TrueIn markedInterpretation.{u} := by
  intro hc
  obtain ⟨a, ha, hv⟩ := hc fun _ => ⟨⟩
  obtain ⟨hname, hnegated⟩ := h a ha
  rw [Atom.holds_of_not_negated _ hnegated, Relation.Holds, hname] at hv
  exact absurd (show "Q" = "R" from hv) (by decide)

/-- The proofs before the first move, which start from closed formulas. -/
def Starts (s : State Relation) : Prop :=
  ∃ f clauses highlight, f.freeVars = [] ∧ ClauseSet.ofFirstOrder f = .ok clauses ∧
    s = .initial clauses highlight

/-- Every proof that is started from a text is such a proof. -/
theorem starts_of_start_eq_ok {params : Params} {text : String} {s : State Relation}
    (h : start params text = .ok s) : Starts s := by
  simp only [start, ClauseSet.ofFirstOrderText, Outcome.bind_eq_ok, Outcome.pure_eq_ok,
    Outcome.ofText_eq_ok, Outcome.ofConversion_eq_ok] at h
  obtain ⟨clauses, ⟨f, hparse, hclauses⟩, rfl⟩ := h
  rw [Formula.parse, Outcome.bind_eq_ok] at hparse
  obtain ⟨g, -, hclosed⟩ := hparse
  simp only [Grammar.closed] at hclosed
  split at hclosed
  next hfree =>
    cases hclosed
    exact ⟨_, clauses, params.highlight, hfree, hclauses, rfl⟩
  next => cases hclosed

/-- A move that drops the atom to be kept derives, in some proof, a clause that does not follow
from those before. -/
theorem exists_not_entails {m : Move} (hm : m.DropsFirst) :
    ∃ s₀ s, Starts s₀ ∧ step s₀ m = .ok s ∧
      ∃ c ∈ s.all, ¬ ClauseSet.Entails.{u} s₀.clauses c := by
  match m, hm with
  | .factorize c1 (i :: rest), ⟨hi, hchain⟩ =>
    have hn : ∀ k ∈ i :: rest, k ≤ (i :: rest).max?.getD 0 :=
      fun k hk => List.le_max?_getD_of_mem hk
    generalize (i :: rest).max?.getD 0 = n at hn
    obtain ⟨g, hg⟩ : ∃ g, Formula.GroundForm g [markedClause (i :: rest) n] := by
      have h := Formula.GroundForm.exists_disjunction
        ((List.range (n + 1)).map (markedLiteral (i :: rest))) (by simp) (by
          simp only [List.forall_mem_map]
          intro k _
          rfl)
      rwa [List.map_map] at h
    obtain ⟨f, hf⟩ := hg.exists_replicate c1
    have hclause : State.clause (.initial ⟨List.replicate (c1 + 1) (markedClause (i :: rest) n)⟩
        false) c1 = .ok (markedClause (i :: rest) n) := by
      simp [State.clause, State.initial, ClauseSet.get?]
    obtain ⟨c, hfactorize, hc⟩ := factorize_markedClause hclause hn hi hchain
    refine ⟨_, _, ⟨f, _, _, hf.freeVars_eq_nil, hf.ofFirstOrder_eq_ok, rfl⟩, hfactorize, c,
      List.mem_append_left _ (List.mem_set (by simp [State.initial]) c), fun hentails => ?_⟩
    refine not_trueIn_of_unmarked hc (hentails _ markedInterpretation fun d hd => ?_)
    rw [List.eq_of_mem_replicate hd]
    exact trueIn_markedClause List.mem_cons_self (hn i List.mem_cons_self)

/-- Before the first move no clause is hidden. -/
theorem Starts.trueIn {D : Type u} {M : Interpretation D} {s : State Relation} (hs : Starts s)
    (h : s.clauses.TrueIn M) : s.TrueIn M := by
  obtain ⟨f, clauses, highlight, -, -, rfl⟩ := hs
  intro c hc
  rw [State.all, State.initial, ClauseSet.empty, List.append_nil] at hc
  exact h c hc

/-- All clauses of a proof follow from the first ones, provided that no move drops the atom to
be kept. -/
theorem Starts.entails {s₀ s : State Relation} {moves : List Move} (hs : Starts s₀)
    (h : moves.foldlM step s₀ = .ok s) (hmoves : ∀ m ∈ moves, ¬ m.DropsFirst) :
    ∀ c ∈ s.all, ClauseSet.Entails.{u} s₀.clauses c :=
  fun c hc _ _ _ htrue => trueIn_run hmoves h (hs.trueIn htrue) c hc

/-- A finished proof has a visible clause without atoms. -/
theorem exists_isEmpty_of_closed {s : State Relation} (h : s.verdict.closed = true) :
    ∃ c ∈ s.all, c.isEmpty = true := by
  obtain ⟨c, hc, hempty⟩ := State.closed_iff.mp h
  exact ⟨c, List.mem_append_left _ hc, hempty⟩

/-- First-order resolution is sound: along every run from a closed formula all clauses, visible
or hidden, follow from the first ones, and the first ones are unsatisfiable if the proof is
reported as finished. The moves that merge atoms and choose the atom to be kept twice are
excepted; they are exactly the moves that can derive what does not follow. -/
theorem run_sound_unless_first_dropped (s₀ s : State Relation) (moves : List Move) :
    (∀ params text, start params text = .ok s₀ → Starts s₀) ∧
    (Starts s₀ → moves.foldlM step s₀ = .ok s → (∀ m ∈ moves, ¬ m.DropsFirst) →
      (∀ c ∈ s.all, ClauseSet.Entails.{u} s₀.clauses c) ∧
        (s.verdict.closed = true → ClauseSet.Unsatisfiable.{u} s₀.clauses)) ∧
    ∀ m ∈ moves, m.DropsFirst ↔ ∃ s₁ s₂, Starts s₁ ∧ step s₁ m = .ok s₂ ∧
      ∃ c ∈ s₂.all, ¬ ClauseSet.Entails.{u} s₁.clauses c := by
  refine ⟨fun params text => starts_of_start_eq_ok, fun hs hrun hmoves => ?_,
    fun m _ => ⟨exists_not_entails, ?_⟩⟩
  · have hentails := hs.entails hrun hmoves
    refine ⟨hentails, fun hclosed D _ M htrue => ?_⟩
    obtain ⟨c, hc, hempty⟩ := exists_isEmpty_of_closed hclosed
    exact Clause.not_trueIn_of_isEmpty hempty (hentails c hc D M htrue)
  · rintro ⟨s₁, s₂, hs, hstep, c, hc, hnot⟩
    by_contra hm
    exact hnot fun D _ M htrue => trueIn_step hm hstep (hs.trueIn htrue) c hc

/-- The literal `R(t)`. -/
def sampleLiteral (t : Term) : Relation := ⟨"R", [t]⟩

/-- The proof of `∀X ∀Y (R(X) ∨ R(Y)) ∧ ¬R(c)` before the first move. -/
def refutable : State Relation :=
  .initial ⟨[⟨[⟨sampleLiteral (.var "X"), false⟩, ⟨sampleLiteral (.var "Y"), false⟩]⟩,
    ⟨[⟨sampleLiteral (.const "c"), true⟩]⟩]⟩ false

private theorem starts_refutable : Starts refutable :=
  ⟨.and (.all "X" (.all "Y" (.or (.rel (sampleLiteral (.var "X")))
    (.rel (sampleLiteral (.var "Y")))))) (.not (.rel (sampleLiteral (.const "c")))), _, false,
    by decide, rfl, rfl⟩

/-- Merging the two atoms of the first clause and resolving with the second one shows that the
two exclude each other. -/
theorem refutable_unsatisfiable :
    (∃ s, [Move.factorize 0 [0, 1], Move.resolveUnify 0 1 0 0].foldlM step refutable = .ok s ∧
      s.verdict.closed = true) ∧ ClauseSet.Unsatisfiable.{u} refutable.clauses := by
  have hrun : ∃ s, [Move.factorize 0 [0, 1], Move.resolveUnify 0 1 0 0].foldlM step refutable =
      .ok s ∧ s.verdict.closed = true := by
    let merged := refutable.replace 0
      ⟨[⟨sampleLiteral (.var "X"), false⟩, ⟨sampleLiteral (.var "Y"), false⟩]⟩
      ⟨[⟨sampleLiteral (.var "Y_0"), false⟩]⟩
    refine ⟨merged.push ⟨[]⟩, ?_, ?_⟩
    · cbv
    · decide
  refine ⟨hrun, ?_⟩
  obtain ⟨s, hrun, hclosed⟩ := hrun
  refine ((run_sound_unless_first_dropped refutable s _).2.1 starts_refutable hrun ?_).2 hclosed
  simp [Move.DropsFirst]

/-- The proof of `∀X (R(X) ∨ R(c))` before the first move. -/
def irrefutable : State Relation :=
  .initial ⟨[⟨[⟨sampleLiteral (.var "X"), false⟩, ⟨sampleLiteral (.const "c"), false⟩]⟩]⟩ false

/-- The formula `∀X (R(X) ∨ R(c))` is satisfiable, but merging its atoms in the order first,
second, first finishes the proof. -/
theorem irrefutable_closed :
    Starts irrefutable ∧
      (∃ s, [Move.factorize 0 [0, 1, 0]].foldlM step irrefutable = .ok s ∧
        s.verdict.closed = true) ∧
      ¬ ClauseSet.Unsatisfiable.{u} irrefutable.clauses := by
  refine ⟨⟨.all "X" (.or (.rel (sampleLiteral (.var "X"))) (.rel (sampleLiteral (.const "c")))),
    _, _, by decide, rfl, rfl⟩, ⟨irrefutable.replace 0 _ ⟨[]⟩, by cbv, by decide⟩, fun h => ?_⟩
  refine h PUnit markedInterpretation fun c hc v => ?_
  rw [List.mem_singleton.mp hc]
  exact ⟨_, List.mem_cons_self, rfl⟩

end Resolution.FirstOrder

end Deduction
