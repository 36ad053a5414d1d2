import Deduction.Proofs.Grammar.Clauses
import Deduction.Proofs.Replay
import Deduction.Proofs.Tableau.Soundness

/-!
# Taking moves back in clausal tableaux

Every tableau is what its kept moves lead to, so taking a move back gives the tableau
before it. In first-order logic a closing move is kept with the text of the substitution
that was used. Reading this text gives the substitution again, since the names in the
tableau can be read: they come from a formula that has been read, or are numbered.
-/

namespace Deduction.Tableau

open Deduction.Tree

section Kept

variable {L : Type} {s s' : State L}

/-- The moves of a calculus for tableaux, as kept. -/
def journal (advance : State L → Move → Outcome (State L)) : Journal (State L) Move where
  toRules := rules advance
  origin s := .ok s.fresh

/-- The start tells whether moves are kept. -/
theorem backtracking_eq_of_fresh_eq (h : s'.fresh = s.fresh) :
    s'.backtracking = s.backtracking := by
  have hback := congrArg (fun s : State L => s.backtracking) h
  exact hback

/-- A tableau with the same parameters, for which the same moves have been kept. -/
structure SameGame (s s' : State L) : Prop where
  /-- The start is the same. -/
  fresh : s'.fresh = s.fresh
  /-- The moves are the same. -/
  history : s'.history = s.history

theorem Expands.sameGame {leaf : Nat} {c : Clause L} (h : Expands s s' leaf c) :
    SameGame s s' := by
  rw [h.eq]
  exact ⟨rfl, rfl⟩

theorem Closes.sameGame {g : L → L} {leaf partner : Nat} (h : Closes (s.map g) s' leaf partner) :
    SameGame s s' := by
  obtain ⟨t, -, rfl⟩ := h.eq
  exact ⟨rfl, rfl⟩

variable {advance : State L → Move → Outcome (State L)}

/-- A move that leads to where it is kept itself is kept in a form by which it can be made
again. -/
theorem SameGame.keeps (h : SameGame s s') {m : Move} (hback : s.backtracking = true)
    (hm : advance s m = .ok (s'.record m)) : (journal advance).Keeps s (s'.record m) where
  move := by
    have hback' : s'.backtracking = true := (backtracking_eq_of_fresh_eq h.fresh).trans hback
    exact ⟨m, hm, (history_record m hback').trans (congrArg (· ++ [m]) h.history)⟩
  origin := congrArg Except.ok ((fresh_record s' m).trans h.fresh)

/-- A condition on tableaux under which every move is kept in a form by which it can be made
again. -/
structure KeepsUnder (advance : State L → Move → Outcome (State L)) (Q : State L → Prop) :
    Prop where
  /-- Moves that are taken back are not kept. -/
  none : ∀ s s', advance s .undo ≠ .ok s'
  /-- The condition holds at the start. -/
  fresh : ∀ s, Q s → Q s.fresh
  /-- The condition is kept. -/
  condition : ∀ s s' m, Q s → advance s m = .ok s' → Q s'
  /-- Moves are kept. -/
  keeps : ∀ s s' m, s.backtracking = true → Q s → advance s m = .ok s' →
    (journal advance).Keeps s s'

namespace KeepsUnder

variable {Q : State L → Prop}

/-- Taking a move back makes the kept ones before it again. -/
theorem undoes (h : KeepsUnder advance Q) :
    (journal advance).Undoes fun s => s.backtracking = true ∧ Q s where
  none := h.none
  idle s start _ hempty hstart := by
    obtain ⟨-, hne, -⟩ := earlier_eq_ok.mp hstart
    exact absurd hempty hne
  earlier s hs hne := earlier_eq_ok.mpr ⟨hs.1, hne, rfl⟩
  origin s s₀ hs hs₀ := by
    cases hs₀
    exact ⟨⟨hs.1, h.fresh s hs.2⟩, rfl, rfl⟩
  keeps s s' m hs hstep := by
    have hkeeps := h.keeps s s' m hs.1 hs.2 hstep
    have hfresh : s'.fresh = s.fresh := Except.ok.inj hkeeps.origin
    exact ⟨⟨(backtracking_eq_of_fresh_eq hfresh).trans hs.1, h.condition s s' m hs.2 hstep⟩,
      hkeeps⟩

/-- After a run the kept moves lead to the tableau, and a further move can be taken back. -/
theorem undo_of_run (h : KeepsUnder advance Q) {s₀ : State L} {moves : List Move}
    (hrun : moves.foldlM (rules advance).step s₀ = .ok s)
    (hback : s₀.backtracking = true) (hQ : Q s₀) (hs₀ : s₀ = s₀.fresh) :
    s.history.foldlM (rules advance).step s.fresh = .ok s ∧
      ∀ m s', m ≠ .undo → (rules advance).step s m = .ok s' →
        (rules advance).step s' .undo = .ok s := by
  have hhistory : s₀.history = [] := by
    rw [hs₀]
    rfl
  have hs := h.undoes.run hrun ⟨hback, hQ⟩ (congrArg Except.ok hs₀.symm) hhistory
  exact ⟨h.undoes.foldlM_eq_ok _ hs.2, fun m s' hm hstep => h.undoes.undo_eq_ok hs hm hstep⟩

end KeepsUnder

end Kept

theorem Propositional.keepsUnder : KeepsUnder Propositional.advance fun _ => True where
  none _ _ h := by cases h
  fresh _ _ := trivial
  condition _ _ _ _ _ := trivial
  keeps s s' m hback _ hstep := by
    have hmove := hstep
    cases m with
    | expand id clause =>
      simp only [advance, Outcome.bind_eq_ok, Outcome.pure_eq_ok] at hstep
      obtain ⟨n, hn, c, -, s₁, hs₁, rfl⟩ := hstep
      exact (expands_of_expand hn hs₁).sameGame.keeps hback hmove
    | close leaf partner assignment =>
      simp only [advance, Outcome.bind_eq_ok, Outcome.pure_eq_ok] at hstep
      obtain ⟨s₁, hs₁, rfl⟩ := hstep
      have hcloses := closes_of_close hs₁
      rw [← s.map_id] at hcloses
      exact hcloses.sameGame.keeps hback hmove
    | undo => cases hstep

namespace FirstOrder

open Grammar

/-- A tableau for readable clauses whose atoms are readable. -/
structure ReadableTableau (clauses : ClauseSet Relation) (s : State Relation) : Prop
    extends Sound clauses s where
  /-- The clauses are readable. -/
  clause : clauses.EachLiteral Relation.Readable
  /-- The atoms in the tableau are readable. -/
  atom : ∀ i a, atomAt s.tree i = some a → a.lit.Readable

variable {clauses : ClauseSet Relation} {s s' : State Relation}

theorem readableTableau_initial (h : clauses.EachLiteral Relation.Readable) (kind : Connectedness)
    (regular backtracking manual : Bool) :
    ReadableTableau clauses (.initial clauses kind regular backtracking manual) where
  toSound := sound_initial clauses kind regular backtracking manual
  clause := h
  atom i a ha := by
    obtain ⟨n, hn, ha⟩ := Option.bind_eq_some_iff.mp ha
    rw [(eq_of_get?_single hn).2] at ha
    cases ha

/-- The substitution under which a leaf is closed is readable. -/
theorem ReadableTableau.closingSubstitution (h : ReadableTableau clauses s) {leaf partner : Nat}
    {a b : Atom Relation} (hpair : s.closePair leaf partner = .ok (a, b))
    {assignment : Option (KeyMap String String)} {σ : Substitution}
    (hσ : closingSubstitution s a b assignment = .ok σ) : σ.Readable := by
  obtain ⟨-, n, m, hn, -, -, hm, hna, hmb, -, -⟩ := closePair_eq_ok hpair
  have ha : a.lit.Readable := h.atom leaf a (by rw [atomAt, hn, Option.bind_some, hna])
  have hb : b.lit.Readable := h.atom partner b (by rw [atomAt, hm, Option.bind_some, hmb])
  cases assignment with
  | some texts => exact Substitution.readable_of_parse (Outcome.ofText_eq_ok.mp hσ)
  | none =>
    simp only [FirstOrder.closingSubstitution] at hσ
    split at hσ
    · cases hσ
    · split at hσ
      next hunify =>
        cases hσ
        exact readable_of_unify ha hb hunify
      · cases hσ

/-- A readable substitution is found again from its texts. -/
theorem closingSubstitution_texts {σ : Substitution} (h : σ.Readable) (a b : Atom Relation) :
    closingSubstitution s a b (some σ.texts) = .ok σ := by
  rw [closingSubstitution, Substitution.parse_texts h]
  rfl

theorem ReadableTableau.advance (h : ReadableTableau clauses s) {m : Move}
    (hstep : FirstOrder.advance s m = .ok s') : ReadableTableau clauses s' := by
  refine ⟨h.toSound.advance (advances_of_advance hstep), h.clause, fun i a ha => ?_⟩
  cases m with
  | expand id clause =>
    simp only [FirstOrder.advance, Outcome.bind_eq_ok, Outcome.pure_eq_ok] at hstep
    obtain ⟨n, hn, c, hc, count, -, s₁, hs₁, rfl⟩ := hstep
    rw [tree_record] at ha
    rcases (expands_of_expand hn hs₁).atomAt_eq_some ha with hold | hnew
    · exact h.atom i a hold
    · obtain ⟨b, hb, rfl⟩ := List.mem_map.mp hnew
      have hclause := h.kept ▸ mem_of_clause_eq_ok hc
      exact (h.clause c hclause b hb).bind fun x hx => .var (hx.withSuffix count)
  | close leaf partner assignment =>
    rw [FirstOrder.advance] at hstep
    obtain ⟨b, c, σ, s₁, hpair, hσ, hs₁, rfl⟩ := close_eq_ok.mp hstep
    have hreadable := h.closingSubstitution hpair hσ
    have hrooted := (h.toSound.map (replaces_bind σ.apply)).rooted
    rw [tree_record, (closes_of_close hs₁).atomAt_eq hrooted] at ha
    have hold : (atomAt s.tree i).map (Atom.map fun r => r.instantiate σ) = some a :=
      (atomAt_map _ s i).symm.trans ha
    obtain ⟨d, hd, rfl⟩ := Option.map_eq_some_iff.mp hold
    exact (h.atom i d hd).bind fun x hx => hreadable.apply hx
  | undo => cases hstep

theorem keepsUnder (clauses : ClauseSet Relation) :
    KeepsUnder advance (ReadableTableau clauses) where
  none _ _ h := by cases h
  fresh s h := by
    rw [State.fresh, h.kept]
    exact readableTableau_initial h.clause _ _ _ _
  condition _ _ _ h hstep := h.advance hstep
  keeps s s' m hback h hstep := by
    cases m with
    | expand id clause =>
      have hmove := hstep
      simp only [advance, Outcome.bind_eq_ok, Outcome.pure_eq_ok] at hstep
      obtain ⟨n, hn, c, -, count, -, s₁, hs₁, rfl⟩ := hstep
      exact (expands_of_expand hn hs₁).sameGame.keeps hback hmove
    | close leaf partner assignment =>
      rw [advance] at hstep
      obtain ⟨a, b, σ, s₁, hpair, hσ, hs₁, rfl⟩ := close_eq_ok.mp hstep
      -- The move is kept with the substitution that was used, whose texts are read back.
      have hsame : closingSubstitution s a b (some σ.texts) = .ok σ :=
        closingSubstitution_texts (h.closingSubstitution hpair hσ) a b
      refine (closes_of_close hs₁).sameGame.keeps hback ?_
      rw [advance]
      exact close_eq_ok.mpr ⟨a, b, σ, s₁, hpair, hsame, hs₁, rfl⟩
    | undo => cases hstep

/-- A tableau that is started from a text is one for readable clauses. -/
theorem exists_clauses_of_start {params : Params} {text : String} (h : start params text = .ok s) :
    ∃ clauses : ClauseSet Relation, clauses.EachLiteral Relation.Readable ∧
      s = .initial clauses params.kind params.regular params.backtracking params.manual := by
  simp only [start, Outcome.bind_eq_ok, Outcome.pure_eq_ok] at h
  obtain ⟨clauses, hclauses, rfl⟩ := h
  exact ⟨clauses, ClauseSet.eachLiteral_of_text hclauses, rfl⟩

end FirstOrder

/-- Taking a move back in a clausal tableau gives the tableau before it, after every run from any
propositional clauses and from any first-order ones that can be read, and the moves that are kept
lead from the start to the tableau. -/
theorem undo_step_eq (kind : Connectedness) (regular manual : Bool) (moves : List Move) :
    (∀ (clauses : ClauseSet String) (s : State String),
      moves.foldlM Propositional.step (.initial clauses kind regular true manual) = .ok s →
      s.history.foldlM Propositional.step s.fresh = .ok s ∧
      ∀ m s', m ≠ .undo → Propositional.step s m = .ok s' →
        Propositional.step s' .undo = .ok s) ∧
    (∀ params text s₀, FirstOrder.start params text = .ok s₀ →
      ∃ clauses : ClauseSet Relation, clauses.EachLiteral Relation.Readable ∧
        s₀ = .initial clauses params.kind params.regular params.backtracking params.manual) ∧
    ∀ (clauses : ClauseSet Relation) (s : State Relation),
      clauses.EachLiteral Relation.Readable →
      moves.foldlM FirstOrder.step (.initial clauses kind regular true manual) = .ok s →
      s.history.foldlM FirstOrder.step s.fresh = .ok s ∧
      ∀ m s', m ≠ .undo → FirstOrder.step s m = .ok s' → FirstOrder.step s' .undo = .ok s := by
  refine ⟨fun clauses s hrun => ?_, fun _ _ _ => FirstOrder.exists_clauses_of_start,
    fun clauses s hreadable hrun => ?_⟩
  · exact Propositional.keepsUnder.undo_of_run hrun rfl trivial rfl
  · have hstart := FirstOrder.readableTableau_initial hreadable kind regular true manual
    exact (FirstOrder.keepsUnder clauses).undo_of_run hrun rfl hstart rfl

private theorem eachLiteral_excludedInstance : excludedInstance.EachLiteral Relation.Readable := by
  have hc : Term.Readable (.const "c") :=
    .const ⟨⟨by decide, List.all_eq_true.mp (by decide)⟩, by decide⟩
  have hX : Term.Readable (.var "X") := .var (by decide)
  have hY : Term.Readable (.var "Y") := .var (by decide)
  have hf : Term.Readable (.app "f" [.var "X"]) :=
    .app ⟨⟨by decide, List.all_eq_true.mp (by decide)⟩, by decide⟩ (by simp)
      (List.forall_mem_singleton.mpr hX)
  simp [ClauseSet.EachLiteral, excludedInstance, Relation.Readable, hc, hX, hY, hf]

/-- Two clauses are added, after another one has been taken back. -/
def expansions : List Move := [.expand 0 0, .expand 2 2, .undo, .expand 1 1]

theorem closed_after_expansions :
    ((expansions.foldlM Propositional.step (.initial excludedPair .strong true true false) >>=
      fun s => Propositional.step s (.close 3 1 none)).toOption.map fun s => s.history.length) =
      some 3 ∧
    ((expansions.foldlM FirstOrder.step (.initial excludedInstance .strong true true false) >>=
      fun s => FirstOrder.step s (.close 3 1 none)).toOption.map fun s => s.history.length) =
      some 3 := by
  constructor <;> cbv

/-- The closing move that follows is taken back, also where it has replaced a variable. -/
theorem undo_close_excluded :
    (∃ s s', expansions.foldlM Propositional.step (.initial excludedPair .strong true true false) =
      .ok s ∧ Propositional.step s (.close 3 1 none) = .ok s' ∧
        Propositional.step s' .undo = .ok s) ∧
    ∃ s s', expansions.foldlM FirstOrder.step (.initial excludedInstance .strong true true false) =
      .ok s ∧ FirstOrder.step s (.close 3 1 none) = .ok s' ∧
        FirstOrder.step s' .undo = .ok s := by
  have hundo := undo_step_eq .strong true false expansions
  constructor
  · obtain ⟨s, s', hs, hs', -⟩ := Outcome.exists_of_toOption closed_after_expansions.1
    exact ⟨s, s', hs, hs', (hundo.1 excludedPair s hs).2 _ s' (by simp) hs'⟩
  · obtain ⟨s, s', hs, hs', -⟩ := Outcome.exists_of_toOption closed_after_expansions.2
    exact ⟨s, s', hs, hs', (hundo.2.2 excludedInstance s eachLiteral_excludedInstance hs).2 _ s'
      (by simp) hs'⟩

end Deduction.Tableau
