import Deduction.Proofs.Legible
import Deduction.Proofs.Resolution.Soundness

/-!
# Variables of derived clauses

A derived clause gets the number of visible clauses as a suffix to its variables. It
has no variable in common with a clause that does not use this number yet. The
numbers in use stay below the number of visible clauses as long as nobody brings in
a larger one and hides clauses while their numbers are in use; then every derived
clause is apart from all others. Hiding a clause can make its number come up a
second time, and then two clauses that contradict each other may no longer resolve.
-/

namespace Deduction

open Resolution

/-- Whether a name ends in an underscore and a number. -/
def Numbered (n : Nat) (x : String) : Prop := ∃ base, x = base ++ "_" ++ Decimal.render n

theorem Numbered.unique {m n : Nat} {x : String} (hm : Numbered m x) (hn : Numbered n x) :
    m = n := by
  obtain ⟨base, rfl⟩ := hm
  obtain ⟨base', h⟩ := hn
  exact (Decimal.underscored_inj h).2

private theorem not_numbered_of_notMem {n : Nat} {x : String} (h : '_' ∉ x.toList) :
    ¬ Numbered n x := by
  rintro ⟨base, rfl⟩
  simp at h

private theorem numbered_withSuffix (n : Nat) (x : String) :
    Numbered n (withSuffix (Decimal.render n) x) :=
  ⟨stem x, rfl⟩

namespace Clause

/-- The variables of a clause. -/
def vars (c : Clause Relation) : List String := c.atoms.flatMap fun a => a.lit.vars

/-- Whether two clauses have no variable in common. -/
def Apart (c d : Clause Relation) : Prop := ∀ x ∈ c.vars, x ∉ d.vars

/-- Under a suffix, a clause has only variables with that number. -/
theorem numbered_of_mem_vars_withSuffix {c : Clause Relation} {n : Nat} {x : String}
    (hx : x ∈ (c.withSuffix (Decimal.render n)).vars) : Numbered n x := by
  simp only [vars, withSuffix, List.mem_flatMap, List.mem_map] at hx
  obtain ⟨_, ⟨a, -, rfl⟩, hx⟩ := hx
  obtain ⟨y, -, hy⟩ := Relation.mem_vars_bind.mp hx
  rw [Term.vars, List.mem_singleton] at hy
  rw [hy]
  exact numbered_withSuffix n y

end Clause

namespace Resolution

/-- Whether a move resolves clauses. -/
def Move.Derives : Move → Prop
  | .resolve .. | .resolveUnify .. | .resolveCustom .. | .hyper .. => True
  | _ => False

namespace State

variable {s s' : State Relation}

/-- Whether a number is in use: a variable of some clause ends in it. -/
def Uses (s : State Relation) (n : Nat) : Prop := ∃ c ∈ s.all, ∃ x ∈ c.vars, Numbered n x

/-- Whether all numbers in use are below the number of visible clauses. -/
def NumbersBelow (s : State Relation) : Prop := ∀ n, s.Uses n → n < s.clauses.size

/-- Whether a move leads to numbers in use that a later clause is to get: it hides a clause while
the last number is in use, or adds an instance with variables of larger numbers. -/
def Renumbers (s : State Relation) : Move → Prop
  | .hide _ => s.Uses (s.clauses.size - 1)
  | .instantiate c1 assignment => ∃ c σ, s.clause c1 = .ok c ∧
      Substitution.parse assignment = .ok σ ∧
      ∃ x ∈ (c.instantiate σ).vars, ∃ n > s.clauses.size, Numbered n x
  | _ => False

theorem Uses.mono {n : Nat} (h : s.Uses n) (hall : s.all ⊆ s'.all) : s'.Uses n := by
  obtain ⟨c, hc, hx⟩ := h
  exact ⟨c, hall hc, hx⟩

/-- The numbers in use are those of a new clause and those of the others. -/
theorem uses_of_perm_cons {c : Clause Relation} (hall : s'.all.Perm (c :: s.all)) {n : Nat}
    (h : s'.Uses n) : (∃ x ∈ c.vars, Numbered n x) ∨ s.Uses n := by
  obtain ⟨d, hd, hx⟩ := h
  obtain rfl | hd := List.mem_cons.mp (hall.subset hd)
  · exact .inl hx
  · exact .inr ⟨d, hd, hx⟩

/-- Numbers stay below if a clause comes to the others that uses only numbers below. -/
theorem NumbersBelow.cons {c : Clause Relation} (hs : s.NumbersBelow)
    (hall : s'.all.Perm (c :: s.all)) (hsize : s.clauses.size ≤ s'.clauses.size)
    (hc : ∀ x ∈ c.vars, ∀ n, Numbered n x → n < s'.clauses.size) : s'.NumbersBelow := by
  intro n hn
  obtain ⟨x, hx, hnum⟩ | hn := uses_of_perm_cons hall hn
  · exact hc x hx n hnum
  · exact (hs n hn).trans_le hsize

@[simp] theorem size_push (s : State Relation) (c : Clause Relation) :
    (s.push c).clauses.size = s.clauses.size + 1 := by
  simp [push, ClauseSet.add, ClauseSet.size]

@[simp] theorem size_replace (s : State Relation) (id : Nat) (old new : Clause Relation) :
    (s.replace id old new).clauses.size = s.clauses.size := by
  simp [replace, ClauseSet.size]

private theorem size_le_size_reveal (s : State Relation) :
    s.clauses.size ≤ s.reveal.clauses.size := by
  simp [reveal, ClauseSet.unite, ClauseSet.size]

private theorem size_hide {id : Nat} (h : s.hide id = .ok s') :
    s'.clauses.size = s.clauses.size - 1 := by
  simp only [hide, Outcome.bind_eq_ok, Outcome.pure_eq_ok] at h
  obtain ⟨c, hc, rfl⟩ := h
  obtain ⟨hlt, -⟩ := List.getElem?_eq_some_iff.mp (clause_eq_ok.mp hc)
  simp [ClauseSet.size, List.length_eraseIdx_of_lt hlt]

end State

namespace FirstOrder

variable {s s' : State Relation}

/-- An accepted move that resolves adds one clause, under the number of visible clauses. -/
theorem exists_withSuffix_of_derives {m : Move} (h : step s m = .ok s') (hm : m.Derives) :
    ∃ c : Clause Relation, s'.hidden = s.hidden ∧
      s'.clauses = s.clauses.add (c.withSuffix (Decimal.render s.clauses.size)) := by
  cases m with
  | resolve c1 c2 literal =>
    obtain ⟨lit, -, h⟩ := Outcome.bind_eq_ok.mp h
    obtain ⟨first, second, l1, l2, -, -, -, h⟩ := exists_of_resolve_eq_ok h
    obtain ⟨σ, first, second, left, right, status, -, -, rfl⟩ := exists_of_resolveOn_eq_ok h
    exact ⟨_, rfl, rfl⟩
  | resolveUnify c1 c2 l1 l2 =>
    rw [step] at h
    obtain ⟨σ, first, second, left, right, status, -, -, rfl⟩ := exists_of_resolveOn_eq_ok h
    exact ⟨_, rfl, rfl⟩
  | resolveCustom c1 c2 l1 l2 assignment =>
    obtain ⟨σ, -, h⟩ := Outcome.bind_eq_ok.mp h
    obtain ⟨σ, first, second, left, right, status, -, -, rfl⟩ := exists_of_resolveOn_eq_ok h
    exact ⟨_, rfl, rfl⟩
  | hyper main atoms =>
    obtain ⟨mainClause, sides, σ, c, -, -, -, rfl⟩ := exists_of_hyper_eq_ok h
    exact ⟨c, rfl, rfl⟩
  | instantiate c1 assignment => cases hm
  | hide c1 => cases hm
  | reveal => cases hm
  | factorize c1 atoms => cases hm

/-- Numbers stay below when clauses are resolved: the new number is the one of the new clause. -/
theorem numbersBelow_of_derives {m : Move} (h : step s m = .ok s') (hm : m.Derives)
    (hs : s.NumbersBelow) : s'.NumbersBelow := by
  obtain ⟨c, hhidden, hclauses⟩ := exists_withSuffix_of_derives h hm
  have hsize : s'.clauses.size = s.clauses.size + 1 := by
    rw [hclauses]
    exact State.size_push s _
  have hall : s'.all.Perm (c.withSuffix (Decimal.render s.clauses.size) :: s.all) := by
    rw [State.all, hclauses, hhidden]
    exact State.all_push s _
  refine hs.cons hall (by omega) fun x hx n hn => ?_
  have hnumber := hn.unique (Clause.numbered_of_mem_vars_withSuffix hx)
  omega

/-- A clause whose atoms are merged gets its own number, which is below already. -/
theorem numbersBelow_factorize {c1 : Nat} {atoms : List Nat} (h : factorize s c1 atoms = .ok s')
    (hs : s.NumbersBelow) : s'.NumbersBelow := by
  simp only [factorize, refuse, ↓Outcome.guard_eq_ok, Outcome.bind_eq_ok,
    Outcome.pure_eq_ok] at h
  obtain ⟨-, c, hc, -, -, merged, -, rfl⟩ := h
  refine hs.cons (State.all_replace hc _) (by rw [State.size_replace]) fun x hx n hn => ?_
  obtain ⟨hlt, -⟩ := List.getElem?_eq_some_iff.mp (State.clause_eq_ok.mp hc)
  rw [State.size_replace, hn.unique (Clause.numbered_of_mem_vars_withSuffix hx)]
  exact hlt

/-- Every accepted move keeps the numbers below, unless it is one of those that renumber. -/
theorem numbersBelow_step {m : Move} (hm : ¬ s.Renumbers m) (h : step s m = .ok s')
    (hs : s.NumbersBelow) : s'.NumbersBelow := by
  have hclear : State.NumbersBelow { s with status := none } := hs
  cases m with
  | resolve c1 c2 literal => exact numbersBelow_of_derives h trivial hs
  | resolveUnify c1 c2 l1 l2 => exact numbersBelow_of_derives h trivial hs
  | resolveCustom c1 c2 l1 l2 assignment => exact numbersBelow_of_derives h trivial hs
  | hyper main atoms => exact numbersBelow_of_derives h trivial hs
  | instantiate c1 assignment =>
    simp only [step, Outcome.bind_eq_ok, Outcome.pure_eq_ok, Outcome.ofText_eq_ok] at h
    obtain ⟨σ, hσ, c, hc, rfl⟩ := h
    refine hclear.cons (State.all_push _ _) (by simp) fun x hx n hn => ?_
    rw [State.size_push, Nat.lt_succ_iff]
    by_contra hlarge
    exact hm ⟨c, σ, hc, hσ, x, hx, n, Nat.lt_of_not_le hlarge, hn⟩
  | hide c1 =>
    rw [step] at h
    intro n hn
    have hused : s.Uses n := hn.mono (State.all_hide h).subset
    have hlast : n ≠ s.clauses.size - 1 := by
      rintro rfl
      exact hm hused
    have hsize : s'.clauses.size = s.clauses.size - 1 := by rw [State.size_hide h]
    have hlt := hs n hused
    omega
  | reveal =>
    rw [step, Outcome.pure_eq_ok] at h
    intro n hn
    have hused : s.Uses n := hn.mono (by rw [← h, State.all_reveal]; exact List.Subset.refl _)
    have hsize : s.clauses.size ≤ s'.clauses.size := h ▸ State.size_le_size_reveal _
    exact (hs n hused).trans_le hsize
  | factorize c1 atoms => exact numbersBelow_factorize h hclear

/-- Along a run without moves that renumber, the numbers stay below. -/
theorem numbersBelow_run {moves : List Move} (h : moves.foldlM step s = .ok s')
    (hmoves : ∀ earlier m later t, moves = earlier ++ m :: later →
      earlier.foldlM step s = .ok t → ¬ t.Renumbers m)
    (hs : s.NumbersBelow) : s'.NumbersBelow := by
  induction moves generalizing s with
  | nil =>
    cases h
    exact hs
  | cons m moves ih =>
    rw [List.foldlM_cons] at h
    obtain ⟨t, hstep, h⟩ := Outcome.bind_eq_ok.mp h
    obtain ⟨hm, hmoves⟩ := (Outcome.forall_steps_cons hstep).mp hmoves
    exact ih h hmoves (numbersBelow_step hm hstep hs)

/-- A clause that is derived by resolution comes behind the visible clauses, and it has variables
in common only with clauses that use its number already. In every run that starts with numbers
below the number of clauses and has no moves that renumber, there are none. -/
theorem derived_clause_apart {s₀ : State Relation} {moves : List Move} {m : Move}
    (hstep : step s m = .ok s') (hm : m.Derives) :
    ∃ c, s'.clauses = s.clauses.add c ∧ s'.hidden = s.hidden ∧
      (∀ d, ¬ c.Apart d → ∃ x ∈ d.vars, Numbered s.clauses.size x) ∧
      (moves.foldlM step s₀ = .ok s → s₀.NumbersBelow →
        (∀ earlier move later t, moves = earlier ++ move :: later →
          earlier.foldlM step s₀ = .ok t → ¬ t.Renumbers move) →
        ∀ d ∈ s.all, c.Apart d) := by
  obtain ⟨c, hhidden, hclauses⟩ := exists_withSuffix_of_derives hstep hm
  refine ⟨_, hclauses, hhidden, fun d hshared => ?_, fun hrun hfirst hmoves d hd x hx hxd => ?_⟩
  · rw [Clause.Apart] at hshared
    push Not at hshared
    obtain ⟨x, hx, hxd⟩ := hshared
    exact ⟨x, hxd, Clause.numbered_of_mem_vars_withSuffix hx⟩
  · have hnumber := Clause.numbered_of_mem_vars_withSuffix hx
    exact absurd (numbersBelow_run hrun hmoves hfirst _ ⟨d, hd, x, hxd, hnumber⟩) (lt_irrefl _)

/-- The clause `(¬)R(c) ∨ …`. -/
def conditional (negated : Bool) (rest : List (Atom Relation)) : Clause Relation :=
  ⟨⟨⟨"R", [.const "c"]⟩, negated⟩ :: rest⟩

/-- The proof of `∀X (R(c) ∨ Q(X)) ∧ ¬R(c) ∧ ∀X (R(c) ∨ ¬Q(f(X)))` before the first move. -/
def twoConditionals : State Relation :=
  .initial ⟨[conditional false [⟨⟨"Q", [.var "X"]⟩, false⟩], conditional true [],
    conditional false [⟨⟨"Q", [.app "f" [.var "X_1"]]⟩, true⟩]]⟩ false

private theorem starts_twoConditionals : Starts twoConditionals := by
  refine ⟨.and (.and (.all "X" (.or (.rel ⟨"R", [.const "c"]⟩) (.rel ⟨"Q", [.var "X"]⟩)))
      (.not (.rel ⟨"R", [.const "c"]⟩)))
    (.all "X" (.or (.rel ⟨"R", [.const "c"]⟩) (.not (.rel ⟨"Q", [.app "f" [.var "X"]]⟩)))),
    twoConditionals.clauses, false, by decide, by cbv, rfl⟩

private theorem numbersBelow_twoConditionals : twoConditionals.NumbersBelow := by
  rintro n ⟨c, hc, x, hx, hn⟩
  have hvars : ∀ c ∈ twoConditionals.all, ∀ x ∈ c.vars, x = "X" ∨ x = "X_1" := by decide
  obtain rfl | rfl := hvars c hc x hx
  · exact absurd hn (not_numbered_of_notMem (by decide))
  · have hone : Numbered 1 "X_1" := ⟨"X", by cbv⟩
    rw [hn.unique hone]
    decide

/-- The first conditional without its condition, under a number. -/
def freed (name : String) : Clause Relation := ⟨[⟨⟨"Q", [.var name]⟩, false⟩]⟩

/-- The second conditional without its condition, under a number. -/
def freedNegated (name : String) : Clause Relation := ⟨[⟨⟨"Q", [.app "f" [.var name]]⟩, true⟩]⟩

/-- Both conditionals are freed from their condition one after the other, and the second result
is apart from all other clauses. -/
theorem twoConditionals_apart :
    ∃ s s', [Move.resolveUnify 0 1 0 0].foldlM step twoConditionals = .ok s ∧
      step s (.resolveUnify 2 1 0 0) = .ok s' ∧
      ∃ c, s'.clauses = s.clauses.add c ∧ ∀ d ∈ s.all, c.Apart d := by
  have hfirst : [Move.resolveUnify 0 1 0 0].foldlM step twoConditionals =
      .ok (twoConditionals.push (freed "X_3")) := by cbv
  have hsecond : step (twoConditionals.push (freed "X_3")) (.resolveUnify 2 1 0 0) =
      .ok ((twoConditionals.push (freed "X_3")).push (freedNegated "X_4")) := by cbv
  obtain ⟨c, hclauses, -, -, hapart⟩ := derived_clause_apart hsecond trivial
  refine ⟨_, _, hfirst, hsecond, c, hclauses, hapart hfirst numbersBelow_twoConditionals ?_⟩
  intro earlier move later t hmoves _
  have hmove : move ∈ [Move.resolveUnify 0 1 0 0] := by simp [hmoves]
  rw [List.mem_singleton.mp hmove]
  exact id

/-- If the first of the two derived clauses is hidden before the second one is derived, both get
the number 3. They contradict each other, but their resolution is refused: the variable `X_3` of
the one would have to be the term `f(X_3)` of the other. -/
theorem twoConditionals_clash :
    Starts twoConditionals ∧
      ∃ s s' c d, [.resolveUnify 0 1 0 0, .hide 3].foldlM step twoConditionals = .ok s ∧
        step s (.resolveUnify 2 1 0 0) = .ok s' ∧ s'.clauses = s.clauses.add c ∧
        d ∈ s'.hidden.clauses ∧ ¬ c.Apart d ∧
        ∃ left right, step s'.reveal (.resolveUnify 4 3 0 0) =
          refuse (.notUnifiable left right (.cyclic "X_3" (.app "f" [.var "X_3"]))) := by
  let s : State Relation := { twoConditionals with hidden := ⟨[freed "X_3"]⟩ }
  refine ⟨starts_twoConditionals, s, s.push (freedNegated "X_3"), freedNegated "X_3", freed "X_3",
    by cbv, by cbv, rfl, List.mem_singleton_self _, ?_,
    ⟨"Q", [.var "X_3"]⟩, ⟨"Q", [.app "f" [.var "X_3"]]⟩, by cbv⟩
  intro hapart
  exact hapart "X_3" (by decide) (by decide)

end FirstOrder

end Resolution

end Deduction
