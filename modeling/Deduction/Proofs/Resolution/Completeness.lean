import Deduction.Proofs.Resolution.Models

/-!
# Refutations by propositional resolution

Every unsatisfiable clause set is refuted by resolving clauses two at a time, and no
variable has to be named for it. Each valuation makes some clause false. Where two
valuations differ in one variable only, the clauses that they make false either do not
mention the variable or clash in it and in nothing else, and then both valuations make
the resolvent false, which does not mention it. So the variables go one by one, down to a
clause without atoms.
-/

namespace Deduction.Resolution.Propositional

variable {s s' s'' : State String} {c : Clause String} {clauses : ClauseSet String}

/-- A proof leads to another one by resolving clauses without naming a variable. -/
structure ResolvesTo (s s' : State String) : Prop where
  /-- Only clauses are resolved. -/
  run : ∃ moves : List Move, (∀ m ∈ moves, ∃ c1 c2, m = .resolve c1 c2 none) ∧
    moves.foldlM step s = .ok s'
  /-- The visible clauses stay visible. -/
  visible : s.clauses.clauses ⊆ s'.clauses.clauses

namespace ResolvesTo

theorem refl (s : State String) : ResolvesTo s s where
  run := ⟨[], fun _ hm => absurd hm List.not_mem_nil, rfl⟩
  visible := List.Subset.refl _

theorem trans (h : ResolvesTo s s') (h' : ResolvesTo s' s'') : ResolvesTo s s'' where
  run := by
    obtain ⟨moves, hmoves, hrun⟩ := h.run
    obtain ⟨moves', hmoves', hrun'⟩ := h'.run
    refine ⟨moves ++ moves', List.forall_mem_append.mpr ⟨hmoves, hmoves'⟩, ?_⟩
    rw [List.foldlM_append, hrun]
    exact hrun'
  visible := List.Subset.trans h.visible h'.visible

end ResolvesTo

/-- Two visible clauses that clash in one atom only have their resolvent derived. -/
theorem exists_resolvesTo {first second : Clause String} {a : Atom String}
    (hfirst : first ∈ s.clauses.clauses) (hsecond : second ∈ s.clauses.clauses)
    (hne : first ≠ second) (ha : a ∈ first.atoms) (hcomplement : a.complement ∈ second.atoms)
    (honly : ∀ b ∈ first.atoms, b.complement ∈ second.atoms → b = a) :
    ∃ s', ResolvesTo s s' ∧ resolvent first second a ∈ s'.clauses.clauses := by
  obtain ⟨i, hi⟩ := List.getElem?_of_mem hfirst
  obtain ⟨j, hj⟩ := List.getElem?_of_mem hsecond
  have hij : i ≠ j := by
    rintro rfl
    exact hne (Option.some.inj (hi.symm.trans hj))
  let clashes (b : Atom String) : Bool :=
    (none : Option String).all (b.lit = ·) && second.contains b.complement
  have hclashes (b : Atom String) : clashes b = true ↔ b.complement ∈ second.atoms :=
    List.contains_iff_mem
  have hfind : first.atoms.find? clashes = some a := by
    have hsome := List.find?_isSome.mpr ⟨a, ha, (hclashes a).mpr hcomplement⟩
    obtain ⟨b, hb⟩ := Option.isSome_iff_exists.mp hsome
    have hclash := (hclashes b).mp (List.find?_some hb)
    rw [← honly b (List.mem_of_find?_eq_some hb) hclash]
    exact hb
  let cleared : State String := { s with status := none }
  have hstep : step s (.resolve i j none) = .ok (cleared.push (resolvent first second a)) :=
    resolve_eq_ok (s := cleared) |>.mpr ⟨hij, first, second, a, State.clause_eq_ok.mpr hi,
      State.clause_eq_ok.mpr hj, hfind, rfl⟩
  refine ⟨cleared.push (resolvent first second a), ⟨⟨[.resolve i j none], ?_, ?_⟩, ?_⟩, ?_⟩
  · exact List.forall_mem_singleton.mpr ⟨i, j, rfl⟩
  · rw [List.foldlM_cons, hstep]
    rfl
  · exact List.subset_append_left _ _
  · exact List.mem_append_right _ List.mem_cons_self

/-- Whether a valuation makes all atoms of a clause false, and they have only the given
variables. -/
def Fails (val : String → Bool) (vars : List String) (c : Clause String) : Prop :=
  ∀ a ∈ c.atoms, a.lit ∈ vars ∧ ¬ a.eval val = true

section Fails

variable {val : String → Bool} {vars : List String} {x : String} {b : Bool} {a : Atom String}

/-- The sign of an atom that fails is the value of its variable. -/
theorem Fails.eq_of_lit_eq (h : Fails (Function.update val x b) vars c) (ha : a ∈ c.atoms)
    (hx : a.lit = x) : a = ⟨x, b⟩ := by
  have hfalse := (h a ha).2
  cases a with
  | mk lit negated =>
    subst hx
    simp only [Atom.eval, Function.update_self, bne_iff_ne, ne_eq, not_not] at hfalse
    rw [hfalse]

/-- The value of a variable does not matter for atoms with another one. -/
theorem Fails.of_lit_ne (h : Fails (Function.update val x b) (x :: vars) c) (ha : a ∈ c.atoms)
    (hx : a.lit ≠ x) : a.lit ∈ vars ∧ ¬ a.eval val = true := by
  obtain ⟨hmem, hfalse⟩ := h a ha
  rw [Atom.eval, Function.update_of_ne hx] at hfalse
  exact ⟨(List.mem_cons.mp hmem).resolve_left hx, hfalse⟩

/-- A clause without the variable fails whatever its value. -/
theorem Fails.of_notMem (h : Fails (Function.update val x b) (x :: vars) c)
    (hx : ⟨x, b⟩ ∉ c.atoms) : Fails val vars c := by
  intro a ha
  refine h.of_lit_ne ha fun hlit => hx ?_
  rwa [← h.eq_of_lit_eq ha hlit]

/-- If there are clauses that fail for either value of a variable, one can be derived that fails
whatever its value. -/
theorem exists_fails_of_both {c₁ c₂ : Clause String} (hc₁ : c₁ ∈ s.clauses.clauses)
    (hc₂ : c₂ ∈ s.clauses.clauses) (h₁ : Fails (Function.update val x true) (x :: vars) c₁)
    (h₂ : Fails (Function.update val x false) (x :: vars) c₂) :
    ∃ s' c, ResolvesTo s s' ∧ c ∈ s'.clauses.clauses ∧ Fails val vars c := by
  by_cases hx₁ : ⟨x, true⟩ ∈ c₁.atoms
  · by_cases hx₂ : ⟨x, false⟩ ∈ c₂.atoms
    · have hne : c₂ ≠ c₁ := by
        rintro rfl
        cases h₁.eq_of_lit_eq hx₂ rfl
      have honly : ∀ a ∈ c₂.atoms, a.complement ∈ c₁.atoms → a = ⟨x, false⟩ := by
        intro a ha hcomplement
        by_contra hother
        have hlit : a.lit ≠ x := fun hlit => hother (h₂.eq_of_lit_eq ha hlit)
        have hfalse := (h₁.of_lit_ne hcomplement hlit).2
        rw [Atom.eval_complement] at hfalse
        exact hfalse (h₂.of_lit_ne ha hlit).2
      obtain ⟨s', hs', hresolvent⟩ := exists_resolvesTo hc₂ hc₁ hne hx₂ hx₁ honly
      refine ⟨s', _, hs', hresolvent, fun a ha => ?_⟩
      simp only [resolvent, Clause.factorized, List.mem_eraseDups, List.mem_append,
        List.mem_filter, decide_eq_true_eq] at ha
      rcases ha with ⟨ha, hother⟩ | ⟨ha, hother⟩
      · exact h₂.of_lit_ne ha fun hlit => hother (h₂.eq_of_lit_eq ha hlit)
      · exact h₁.of_lit_ne ha fun hlit => hother (h₁.eq_of_lit_eq ha hlit)
    · exact ⟨s, c₂, .refl s, hc₂, h₂.of_notMem hx₂⟩
  · exact ⟨s, c₁, .refl s, hc₁, h₁.of_notMem hx₁⟩

end Fails

/-- From an unsatisfiable clause set a clause can be derived that a given valuation makes false
and that has none of the remaining variables. -/
theorem exists_fails (hunsat : ∀ val, clauses.eval val = false) (remaining vars : List String)
    (hvars : ∀ c ∈ clauses.clauses, ∀ a ∈ c.atoms, a.lit ∈ remaining ++ vars)
    (val : String → Bool) (hs : clauses.clauses ⊆ s.clauses.clauses) :
    ∃ s' c, ResolvesTo s s' ∧ c ∈ s'.clauses.clauses ∧ Fails val vars c := by
  induction remaining generalizing vars val s with
  | nil =>
    obtain ⟨c, hc, hfalse⟩ := List.all_eq_false.mp (hunsat val)
    refine ⟨s, c, .refl s, hs hc, fun a ha => ⟨hvars c hc a ha, fun htrue => hfalse ?_⟩⟩
    exact Clause.eval_eq_true.mpr ⟨a, ha, htrue⟩
  | cons x remaining ih =>
    have hvars' : ∀ c ∈ clauses.clauses, ∀ a ∈ c.atoms, a.lit ∈ remaining ++ (x :: vars) := by
      intro c hc a ha
      exact List.perm_middle.mem_iff.mpr (hvars c hc a ha)
    obtain ⟨s₁, c₁, hs₁, hc₁, h₁⟩ := ih (x :: vars) hvars' (Function.update val x true) hs
    obtain ⟨s₂, c₂, hs₂, hc₂, h₂⟩ := ih (x :: vars) hvars' (Function.update val x false)
      (List.Subset.trans hs hs₁.visible)
    obtain ⟨s₃, c, hs₃, hc, h⟩ := exists_fails_of_both (hs₂.visible hc₁) hc₂ h₁ h₂
    exact ⟨s₃, c, (hs₁.trans hs₂).trans hs₃, hc, h⟩

/-- An unsatisfiable clause set among the visible clauses is refuted by resolving clauses. -/
theorem exists_closed (hunsat : ∀ val, clauses.eval val = false)
    (hs : clauses.clauses ⊆ s.clauses.clauses) :
    ∃ s', ResolvesTo s s' ∧ s'.verdict.closed = true := by
  let vars := clauses.clauses.flatMap fun c => c.atoms.map Atom.lit
  have hvars : ∀ c ∈ clauses.clauses, ∀ a ∈ c.atoms, a.lit ∈ vars ++ [] := by
    intro c hc a ha
    rw [List.append_nil]
    exact List.mem_flatMap.mpr ⟨c, hc, List.mem_map_of_mem ha⟩
  obtain ⟨s', c, hs', hc, hfails⟩ := exists_fails hunsat vars [] hvars (fun _ => false) hs
  refine ⟨s', hs', State.closed_iff.mpr ⟨c, hc, List.isEmpty_iff.mpr ?_⟩⟩
  exact List.eq_nil_iff_forall_not_mem.mpr fun a ha => absurd (hfails a ha).1 List.not_mem_nil

/-- Propositional resolution is sound and complete: the clauses that are read from a text have no
model exactly if resolving clauses, without any other kind of move and without naming a variable,
finishes the proof. -/
theorem unsatisfiable_iff_exists_refutation (params : Params) (text : String) (s₀ : State String)
    (h : start params text = .ok s₀) :
    (∀ val, s₀.clauses.eval val = false) ↔
      ∃ (moves : List Move) (s : State String), (∀ m ∈ moves, ∃ c1 c2, m = .resolve c1 c2 none) ∧
        moves.foldlM step s₀ = .ok s ∧ s.verdict.closed = true := by
  simp only [start, Outcome.bind_eq_ok, Outcome.pure_eq_ok] at h
  obtain ⟨clauses, -, rfl⟩ := h
  constructor
  · intro hunsat
    obtain ⟨s, hs, hclosed⟩ := exists_closed hunsat (List.Subset.refl _)
    obtain ⟨moves, hmoves, hrun⟩ := hs.run
    exact ⟨moves, s, hmoves, hrun, hclosed⟩
  · rintro ⟨moves, s, -, hrun, hclosed⟩
    exact (follows_of_run hrun).eval_eq_false hclosed

/-- The clauses over `a` and `b` with each choice of signs, the first one with a repetition. -/
def allSigns : ClauseSet String :=
  ⟨[⟨[⟨"a", false⟩, ⟨"b", false⟩, ⟨"a", false⟩]⟩, ⟨[⟨"a", true⟩, ⟨"b", false⟩]⟩,
    ⟨[⟨"a", false⟩, ⟨"b", true⟩]⟩, ⟨[⟨"a", true⟩, ⟨"b", true⟩]⟩]⟩

private theorem start_allSigns :
    start {} "a, b, a; !a, b; a, !b; !a, !b" = .ok (.initial allSigns false) := by
  decide +kernel

theorem allSigns_refutable :
    (∀ val, allSigns.eval val = false) ∧
      ∃ (moves : List Move) (s : State String), (∀ m ∈ moves, ∃ c1 c2, m = .resolve c1 c2 none) ∧
        moves.foldlM step (.initial allSigns false) = .ok s ∧ s.verdict.closed = true := by
  have hunsat (val : String → Bool) : allSigns.eval val = false := by
    cases ha : val "a" <;> cases hb : val "b" <;>
      simp [allSigns, ClauseSet.eval, Clause.eval, Atom.eval, ha, hb]
  exact ⟨hunsat, (unsatisfiable_iff_exists_refutation {} _ _ start_allSigns).mp hunsat⟩

end Deduction.Resolution.Propositional
