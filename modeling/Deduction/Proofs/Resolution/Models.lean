import Deduction.Proofs.Resolution.Clauses
import Deduction.Proofs.Valuation
import Deduction.Resolution.Propositional
import Mathlib

/-!
# Models along a propositional resolution proof

A move in a propositional resolution proof loses no clause, visible or hidden, and the
clause that it adds is true under every valuation under which all the others are. So
after every run the clauses have the models that they had at the start, and the start
has none if an empty clause has been derived.
-/

namespace Deduction.Resolution.Propositional

variable {s s' s'' : State String} {c : Clause String}

/-- Whether a clause is true under every valuation under which all clauses of a proof are. -/
def Entails (s : State String) (c : Clause String) : Prop :=
  ∀ val, (∀ d ∈ s.all, d.eval val = true) → c.eval val = true

/-- A proof comes from another one by adding clauses that follow and losing none, and points to a
visible clause as the newest if to any. -/
structure Follows (s s' : State String) : Prop where
  /-- Clauses are added that follow from those before. -/
  clauses : ∃ derived : List (Clause String),
    s'.all.Perm (derived ++ s.all) ∧ ∀ c ∈ derived, Entails s c
  /-- The newest clause is visible. -/
  newest : ∀ i, s'.newest = some i → i < s'.clauses.size

namespace Follows

/-- Under a valuation all clauses of the later proof are true if those of the earlier one are. -/
theorem eval_eq_true (h : Follows s s') {val : String → Bool}
    (hs : ∀ c ∈ s.all, c.eval val = true) : ∀ c ∈ s'.all, c.eval val = true := by
  obtain ⟨derived, hperm, hderived⟩ := h.clauses
  intro c hc
  rcases List.mem_append.mp (hperm.subset hc) with hnew | hold
  · exact hderived c hnew val hs
  · exact hs c hold

theorem subperm (h : Follows s s') : s.all.Subperm s'.all := by
  obtain ⟨derived, hperm, -⟩ := h.clauses
  exact (List.sublist_append_right derived s.all).subperm.trans hperm.symm.subperm

theorem trans (h : Follows s s') (h' : Follows s' s'') : Follows s s'' := by
  obtain ⟨derived, hperm, hderived⟩ := h.clauses
  obtain ⟨later, hperm', hlater⟩ := h'.clauses
  refine ⟨⟨later ++ derived, ?_, fun c hc => ?_⟩, h'.newest⟩
  · rw [List.append_assoc]
    exact hperm'.trans (hperm.append_left later)
  · rcases List.mem_append.mp hc with hc | hc
    · exact fun val hs => hlater c hc val (h.eval_eq_true hs)
    · exact hderived c hc

/-- Clauses may be moved between the visible and the hidden ones. -/
theorem of_perm (h : s'.all.Perm s.all) (hnewest : s'.newest = none) : Follows s s' where
  clauses := ⟨[], h, fun c hc => absurd hc List.not_mem_nil⟩
  newest i hi := by
    rw [hnewest] at hi
    cases hi

theorem push (h : Entails s c) : Follows s (s.push c) where
  clauses := ⟨[c], State.all_push s c, List.forall_mem_singleton.mpr h⟩
  newest i hi := by
    cases hi
    simp [State.push, ClauseSet.add, ClauseSet.size]

theorem replace {id : Nat} {old : Clause String} (hold : s.clause id = .ok old)
    (h : Entails s c) : Follows s (s.replace id old c) where
  clauses := ⟨[c], State.all_replace hold c, List.forall_mem_singleton.mpr h⟩
  newest i hi := by
    cases hi
    have hlt := (List.getElem?_eq_some_iff.mp (State.clause_eq_ok.mp hold)).1
    simpa [State.replace, ClauseSet.size] using hlt

end Follows

theorem entails_of_clause {id : Nat} (h : s.clause id = .ok c) : Entails s c :=
  fun _ hs => hs c (State.mem_all_of_clause_eq_ok h)

theorem entails_resolvent {first second : Clause String} (hfirst : Entails s first)
    (hsecond : Entails s second) (a : Atom String) : Entails s (resolvent first second a) := by
  intro val hs
  rw [Clause.eval_eq_true]
  exact exists_true_resolvent (Atom.eval_complement val) a
    (Clause.eval_eq_true.mp (hfirst val hs)) (Clause.eval_eq_true.mp (hsecond val hs))

/-- Two clauses are resolved on the first atom of the one, with the given variable if there is one,
whose complement is in the other. -/
theorem resolve_eq_ok {c1 c2 : Nat} {literal : Option String} :
    resolve s c1 c2 literal = .ok s' ↔
      c1 ≠ c2 ∧ ∃ first second a, s.clause c1 = .ok first ∧ s.clause c2 = .ok second ∧
        (first.atoms.find? fun a => literal.all (a.lit = ·) && second.contains a.complement) =
          some a ∧
        s' = s.push (resolvent first second a) := by
  -- With and without a variable the atom is found in the same way.
  cases literal
  all_goals
    simp only [resolve, refuse, ↓Outcome.guard_eq_ok, Outcome.bind_eq_ok, Option.all_none,
      Option.all_some, Bool.true_and]
    constructor
    · rintro ⟨hne, first, hfirst, second, hsecond, h⟩
      split at h <;> cases h
      exact ⟨hne, first, second, _, hfirst, hsecond, ‹_›, rfl⟩
    · rintro ⟨hne, first, second, a, hfirst, hsecond, ha, rfl⟩
      exact ⟨hne, first, hfirst, second, hsecond, by rw [ha]; rfl⟩

theorem follows_of_resolve {c1 c2 : Nat} {literal : Option String}
    (h : resolve s c1 c2 literal = .ok s') : Follows s s' := by
  obtain ⟨-, first, second, a, hfirst, hsecond, -, rfl⟩ := resolve_eq_ok.mp h
  exact .push (entails_resolvent (entails_of_clause hfirst) (entails_of_clause hsecond) a)

theorem follows_of_hyper {main : Nat} {atoms : KeyMap Nat (Nat × Nat)}
    (h : hyper s main atoms = .ok s') : Follows s s' := by
  simp only [hyper, Outcome.bind_eq_ok, Outcome.pure_eq_ok] at h
  obtain ⟨⟨mainClause, sides⟩, hpremisses, c, hc, rfl⟩ := h
  obtain ⟨hmain, hsides⟩ := mem_of_premisses_eq_ok hpremisses
  refine .push fun val hs => Clause.eval_eq_true.mpr ?_
  have hpremiss {id : Nat} {d : Clause String} (hd : s.clause id = .ok d) :
      ∃ a ∈ d.atoms, a.eval val = true :=
    Clause.eval_eq_true.mp (entails_of_clause hd val hs)
  refine exists_true_hyperResolvent (Atom.eval_complement val) (hpremiss hmain) ?_ hc
  intro side hside
  obtain ⟨⟨id, hclause⟩, hatom, hindex⟩ := hsides side hside
  exact ⟨hpremiss hclause, hatom, hindex⟩

theorem follows_of_factorize {c1 : Nat} (h : factorize s c1 = .ok s') : Follows s s' := by
  simp only [factorize, refuse, ↓Outcome.guard_eq_ok, Outcome.bind_eq_ok, Outcome.pure_eq_ok] at h
  obtain ⟨c, hc, -, rfl⟩ := h
  refine .replace hc fun val hs => ?_
  obtain ⟨a, ha, htrue⟩ := Clause.eval_eq_true.mp (entails_of_clause hc val hs)
  exact Clause.eval_eq_true.mpr ⟨a, List.mem_eraseDups.mpr ha, htrue⟩

/-- An accepted move loses no clause and adds only what follows. -/
theorem follows_of_step {m : Move} (h : step s m = .ok s') : Follows s s' := by
  -- Dropping the remark on the move before changes no clause.
  have hclear (h : Follows { s with status := none } s') : Follows s s' := ⟨h.clauses, h.newest⟩
  cases m with
  | resolve c1 c2 literal =>
    obtain ⟨lit, -, h⟩ := Outcome.bind_eq_ok.mp h
    exact hclear (follows_of_resolve h)
  | hide c1 =>
    refine hclear (.of_perm (State.all_hide h) ?_)
    obtain ⟨c, -, h⟩ := Outcome.bind_eq_ok.mp h
    cases h
    rfl
  | reveal =>
    rw [step, Outcome.pure_eq_ok] at h
    subst h
    exact hclear (.of_perm (.of_eq (State.all_reveal _)) rfl)
  | hyper main atoms => exact hclear (follows_of_hyper h)
  | factorize c1 atoms => exact hclear (follows_of_factorize h)
  | resolveUnify c1 c2 l1 l2 => cases h
  | resolveCustom c1 c2 l1 l2 assignment => cases h
  | instantiate c1 assignment => cases h

/-- So does a run of accepted moves. -/
theorem follows_of_run {clauses : ClauseSet String} {highlight : Bool} {moves : List Move}
    (h : moves.foldlM step (.initial clauses highlight) = .ok s) :
    Follows (.initial clauses highlight) s := by
  refine Outcome.foldlM_induction (motive := Follows (.initial clauses highlight)) h
    (.of_perm (.refl _) rfl) fun m _ t t' hstep ht => ?_
  exact ht.trans (follows_of_step hstep)

theorem all_initial (clauses : ClauseSet String) (highlight : Bool) :
    (State.initial clauses highlight).all = clauses.clauses := by
  simp [State.all, State.initial, ClauseSet.empty]

/-- If a finished proof follows from the start, then no valuation makes the first clauses true. -/
theorem Follows.eval_eq_false {clauses : ClauseSet String} {highlight : Bool}
    (h : Follows (.initial clauses highlight) s) (hclosed : s.verdict.closed = true)
    (val : String → Bool) : clauses.eval val = false := by
  obtain ⟨c, hc, hempty⟩ := State.closed_iff.mp hclosed
  rw [Bool.eq_false_iff, Ne, ClauseSet.eval, List.all_eq_true, ← all_initial clauses highlight]
  intro htrue
  have hfalse := h.eval_eq_true htrue c (List.mem_append_left _ hc)
  rw [Clause.eval, List.isEmpty_iff.mp hempty] at hfalse
  cases hfalse

/-- Along every run of a propositional resolution proof the clauses, visible and hidden, have the
models of the first ones, and each of these is still there as often as at the start. The newest
clause is a visible one, and the first clauses have no model if the proof is reported as
finished. -/
theorem run_keeps_models (clauses : ClauseSet String) (highlight : Bool) (moves : List Move)
    (s : State String) (h : moves.foldlM step (.initial clauses highlight) = .ok s) :
    (∀ val, (s.clauses.unite s.hidden).eval val = clauses.eval val) ∧
    clauses.clauses.Subperm (s.clauses.clauses ++ s.hidden.clauses) ∧
    (∀ i, s.newest = some i → i < s.clauses.size) ∧
    (s.verdict.closed = true → ∀ val, clauses.eval val = false) := by
  have hfollows := follows_of_run h
  have hkept : clauses.clauses.Subperm s.all := all_initial clauses highlight ▸ hfollows.subperm
  have hmodels (val : String → Bool) :
      (s.clauses.unite s.hidden).eval val = true ↔ clauses.eval val = true := by
    rw [ClauseSet.eval, ClauseSet.eval, List.all_eq_true, List.all_eq_true]
    refine ⟨fun hs c hc => hs c (hkept.subset hc), fun hclauses => ?_⟩
    refine hfollows.eval_eq_true fun c hc => hclauses c ?_
    rwa [all_initial] at hc
  exact ⟨fun val => Bool.eq_iff_iff.mpr (hmodels val), hkept, hfollows.newest,
    hfollows.eval_eq_false⟩

/-- The clauses `{a, a, b}`, `{¬a}`, `{¬b}` and `{c, ¬c}`. -/
def repeated : ClauseSet String :=
  ⟨[⟨[⟨"a", false⟩, ⟨"a", false⟩, ⟨"b", false⟩]⟩, ⟨[⟨"a", true⟩]⟩, ⟨[⟨"b", true⟩]⟩,
    ⟨[⟨"c", false⟩, ⟨"c", true⟩]⟩]⟩

/-- A refutation of them by moves of every kind. -/
def repeatedRefutation : List Move :=
  [.factorize 0 [], .hide 3, .hyper 1 (.ofList [(0, (0, 0))]), .reveal, .resolve 3 2 (some "b")]

private theorem closed_repeatedRefutation :
    (repeatedRefutation.foldlM step (.initial repeated false) >>= fun s =>
      pure s.verdict).toOption.map Verdict.closed = some true := by
  cbv

theorem repeated_unsatisfiable :
    ∃ s, repeatedRefutation.foldlM step (.initial repeated false) = .ok s ∧
      s.verdict.closed = true ∧ repeated.clauses.Subperm (s.clauses.clauses ++ s.hidden.clauses) ∧
      ∀ val, repeated.eval val = false := by
  obtain ⟨s, v, hs, hv, hclosed⟩ := Outcome.exists_of_toOption closed_repeatedRefutation
  rw [← Outcome.pure_eq_ok.mp hv] at hclosed
  obtain ⟨-, hkept, -, hunsat⟩ := run_keeps_models repeated false repeatedRefutation s hs
  exact ⟨s, hs, hclosed, hkept, hunsat hclosed⟩

end Deduction.Resolution.Propositional
