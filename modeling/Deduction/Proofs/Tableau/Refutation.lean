import Deduction.Proofs.Tableau.Soundness

/-!
# Refutations of propositional clauses

A branch is closed at once if its last atom is the complement of an earlier one. Otherwise
a clause is added to it, and each of the branches that this makes is closed. Clauses are
refuted in this way exactly if they have no model.

The nodes that are added are counted. There are never more of them than if the clauses are
added one after the other to every branch. The clauses with all choices of signs for some
names need at least as many nodes as there are orders of the names: a branch that is not
closed at once has chosen signs for distinct names, in any order.
-/

namespace Deduction.Tableau.Propositional

variable {clauses : List (Clause String)} {branch : List (Atom String)} {names : List String}
  {a : Atom String} {n : Nat}

/-- Whether a branch can be closed by adding clauses below it, with a given number of nodes. The
atoms of the branch are listed from its leaf upwards. -/
inductive Refutes (clauses : List (Clause String)) : List (Atom String) → Nat → Prop
  /-- The leaf is the complement of an atom above it. -/
  | close {a : Atom String} {branch : List (Atom String)} (ha : a.complement ∈ branch) :
      Refutes clauses (a :: branch) 0
  /-- A clause is added, and the branches with its atoms are closed. -/
  | expand {branch : List (Atom String)} {c : Clause String} {cost : Atom String → Nat}
      (hc : c ∈ clauses) (h : ∀ a ∈ c.atoms, Refutes clauses (a :: branch) (cost a)) :
      Refutes clauses branch (c.atoms.map fun a => cost a + 1).sum

/-- A valuation under which all atoms of a refuted branch are true makes some clause false. -/
theorem Refutes.exists_eval_eq_false (h : Refutes clauses branch n) {val : String → Bool}
    (hval : ∀ a ∈ branch, a.eval val = true) : ∃ c ∈ clauses, c.eval val = false := by
  induction h with
  | @close a branch ha =>
    have htrue := hval a List.mem_cons_self
    have hcomplement := hval _ (List.mem_cons_of_mem a ha)
    exact absurd htrue ((Atom.eval_complement val a).mp hcomplement)
  | @expand branch c _ hc _ ih =>
    cases heval : c.eval val with
    | false => exact ⟨c, hc, heval⟩
    | true =>
      obtain ⟨a, ha, htrue⟩ := Clause.eval_eq_true.mp heval
      exact ih a ha (List.forall_mem_cons.mpr ⟨htrue, hval⟩)

/-- Whether no atom of a branch is the complement of another one. -/
def Consistent (branch : List (Atom String)) : Prop := ∀ a ∈ branch, a.complement ∉ branch

theorem consistent_nil : Consistent [] := fun _ ha => absurd ha List.not_mem_nil

/-- A consistent branch describes a valuation. -/
theorem Consistent.exists_eval (h : Consistent branch) :
    ∃ val : String → Bool, ∀ a ∈ branch, a.eval val = true := by
  refine ⟨fun x => decide (⟨x, false⟩ ∈ branch), fun a ha => ?_⟩
  cases a with
  | mk x negated =>
    cases negated with
    | false => simp [Atom.eval, ha]
    | true =>
      have hother : ⟨x, false⟩ ∉ branch := h _ ha
      simp [Atom.eval, hother]

theorem Consistent.cons (h : Consistent branch) (ha : a.complement ∉ branch) :
    Consistent (a :: branch) := by
  intro b hb hcomplement
  rcases List.mem_cons.mp hb with rfl | hb <;> rcases List.mem_cons.mp hcomplement with heq | hmem
  · exact Atom.complement_ne _ heq
  · exact ha hmem
  · rw [← heq, Atom.complement_complement] at ha
    exact ha hb
  · exact h b hb hmem

/-- The number of nodes if clauses are added one after the other to every branch. -/
def nodeBound : List (Clause String) → Nat
  | [] => 0
  | c :: rest => c.atoms.length * (nodeBound rest + 1)

/-- A branch is refuted by clauses that contradict its atoms. -/
theorem exists_refutes {rest : List (Clause String)} (hrest : rest ⊆ clauses)
    (hbranch : Consistent branch)
    (hunsat : ∀ val, (∀ a ∈ branch, a.eval val = true) → ∃ c ∈ rest, c.eval val = false) :
    ∃ n ≤ nodeBound rest, Refutes clauses branch n := by
  induction rest generalizing branch with
  | nil =>
    obtain ⟨val, hval⟩ := hbranch.exists_eval
    obtain ⟨c, hc, -⟩ := hunsat val hval
    cases hc
  | cons c rest ih =>
    obtain ⟨hc, hrest⟩ := List.cons_subset.mp hrest
    -- Each atom clashes with the branch, or the branch with it makes the clause true.
    have hone : ∀ a ∈ c.atoms, ∃ n ≤ nodeBound rest, Refutes clauses (a :: branch) n := by
      intro a ha
      by_cases hcomplement : a.complement ∈ branch
      · exact ⟨0, Nat.zero_le _, .close hcomplement⟩
      · refine ih hrest (hbranch.cons hcomplement) fun val hval => ?_
        obtain ⟨htrue, hval⟩ := List.forall_mem_cons.mp hval
        obtain ⟨d, hd, hfalse⟩ := hunsat val hval
        rcases List.mem_cons.mp hd with rfl | hd
        · rw [Clause.eval_eq_true.mpr ⟨a, ha, htrue⟩] at hfalse
          cases hfalse
        · exact ⟨d, hd, hfalse⟩
    choose! cost hcost using hone
    refine ⟨_, ?_, .expand hc fun a ha => (hcost a ha).2⟩
    have hle : ∀ k ∈ c.atoms.map fun a => cost a + 1, k ≤ nodeBound rest + 1 := by
      intro k hk
      obtain ⟨a, ha, rfl⟩ := List.mem_map.mp hk
      exact Nat.succ_le_succ (hcost a ha).1
    simpa [nodeBound] using List.sum_le_card_nsmul _ _ hle

/-- Clauses are refuted exactly if they have no model. -/
theorem unsatisfiable_iff_exists_refutes (clauses : ClauseSet String) :
    (∀ val, clauses.eval val = false) ↔
      ∃ n ≤ nodeBound clauses.clauses, Refutes clauses.clauses [] n := by
  have hfalse_iff (val : String → Bool) :
      clauses.eval val = false ↔ ∃ c ∈ clauses.clauses, c.eval val = false := by
    simp [ClauseSet.eval]
  constructor
  · intro hunsat
    exact exists_refutes (List.Subset.refl _) consistent_nil fun val _ =>
      (hfalse_iff val).mp (hunsat val)
  · rintro ⟨n, -, h⟩ val
    exact (hfalse_iff val).mpr (h.exists_eval_eq_false fun _ ha => absurd ha List.not_mem_nil)

/-- All lists of atoms with the given names and any signs. -/
def signPatterns : List String → List (List (Atom String))
  | [] => [[]]
  | x :: names => (signPatterns names).flatMap fun p => [⟨x, false⟩ :: p, ⟨x, true⟩ :: p]

/-- The clauses with the given names and any signs. -/
def signClauses (names : List String) : ClauseSet String := ⟨(signPatterns names).map Clause.mk⟩

private theorem mem_signPatterns {p : List (Atom String)} :
    p ∈ signPatterns names ↔ p.map Atom.lit = names := by
  induction names generalizing p with
  | nil => simp [signPatterns]
  | cons x names ih =>
    simp only [signPatterns, List.mem_flatMap, ih, List.mem_cons, List.not_mem_nil, or_false]
    constructor
    · rintro ⟨q, rfl, rfl | rfl⟩ <;> rfl
    · intro h
      obtain ⟨⟨y, negated⟩, q, rfl, rfl, rfl⟩ := List.map_eq_cons_iff.mp h
      refine ⟨q, rfl, ?_⟩
      cases negated <;> simp

theorem mem_signClauses {c : Clause String} :
    c ∈ (signClauses names).clauses ↔ c.atoms.map Atom.lit = names := by
  rw [signClauses, List.mem_map, ← mem_signPatterns]
  constructor
  · rintro ⟨p, hp, rfl⟩
    exact hp
  · exact fun hc => ⟨c.atoms, hc, rfl⟩

/-- Every valuation makes the clause with the opposite signs false. -/
theorem eval_signClauses (names : List String) (val : String → Bool) :
    (signClauses names).eval val = false := by
  rw [ClauseSet.eval, List.all_eq_false]
  refine ⟨⟨names.map fun x => ⟨x, val x⟩⟩, mem_signClauses.mpr ?_, ?_⟩
  · simp [Function.comp_def]
  · simp [Clause.eval, Atom.eval]

/-- The names for which no sign is chosen on a branch. -/
def undecided (names : List String) (branch : List (Atom String)) : List String :=
  names.filter fun x => x ∉ branch.map Atom.lit

/-- An atom with such a name leaves one name less. -/
theorem length_undecided_cons (hnames : names.Nodup) (ha : a.lit ∈ undecided names branch) :
    (undecided names (a :: branch)).length + 1 = (undecided names branch).length := by
  have herase : undecided names (a :: branch) = (undecided names branch).erase a.lit := by
    rw [undecided, undecided, (hnames.filter _).erase_eq_filter, List.filter_filter]
    exact List.filter_congr fun x _ => by simp [bne, beq_eq_decide]
  rw [herase, List.length_erase_of_mem ha]
  have hpos := List.length_pos_of_mem ha
  omega

/-- A sum is at least a bound of some of its terms times their number. -/
theorem length_filter_mul_le_sum {α : Type} {f : α → Nat} {p : α → Bool} {k : Nat} {xs : List α}
    (h : ∀ x ∈ xs, p x = true → k ≤ f x) : (xs.filter p).length * k ≤ (xs.map f).sum := by
  induction xs with
  | nil => simp
  | cons x xs ih =>
    obtain ⟨hx, hxs⟩ := List.forall_mem_cons.mp h
    have hrest := ih hxs
    rw [List.map_cons, List.sum_cons]
    cases hp : p x with
    | false =>
      rw [List.filter_cons_of_neg (by simp [hp])]
      omega
    | true =>
      rw [List.filter_cons_of_pos hp, List.length_cons, Nat.succ_mul]
      have hle := hx hp
      omega

/-- The clauses with all choices of signs are refuted on a consistent branch only with as many
nodes as there are orders of the names that are left. -/
theorem Refutes.factorial_le (hnames : names.Nodup)
    (h : Refutes (signClauses names).clauses branch n) (hbranch : Consistent branch) :
    (undecided names branch).length.factorial ≤ n + 1 := by
  induction h with
  | @close a branch ha => exact absurd (List.mem_cons_of_mem a ha) (hbranch a List.mem_cons_self)
  | @expand branch c cost hc _ ih =>
    cases hleft : (undecided names branch).length with
    | zero => simp
    | succ k =>
      have hlit := mem_signClauses.mp hc
      -- An atom with a name that is left can be closed only after all orders of the others.
      have hcost : ∀ a ∈ c.atoms, decide (a.lit ∉ branch.map Atom.lit) = true →
          k.factorial ≤ cost a + 1 := by
        intro a ha hnew
        have hnew : a.lit ∉ branch.map Atom.lit := of_decide_eq_true hnew
        have hmem : a.lit ∈ undecided names branch :=
          List.mem_filter.mpr ⟨hlit ▸ List.mem_map_of_mem ha, decide_eq_true hnew⟩
        have hcount := length_undecided_cons hnames hmem
        have hcomplement : a.complement ∉ branch := fun hb =>
          hnew (List.mem_map.mpr ⟨a.complement, hb, rfl⟩)
        have hle := ih a ha (hbranch.cons hcomplement)
        rwa [show (undecided names (a :: branch)).length = k by omega] at hle
      have hlength : (c.atoms.filter fun a => a.lit ∉ branch.map Atom.lit).length = k + 1 := by
        rw [← hleft, undecided, ← hlit, List.filter_map, List.length_map]
        rfl
      calc (k + 1).factorial = (k + 1) * k.factorial := Nat.factorial_succ k
        _ ≤ (c.atoms.map fun a => cost a + 1).sum := hlength ▸ length_filter_mul_le_sum hcost
        _ ≤ (c.atoms.map fun a => cost a + 1).sum + 1 := Nat.le_succ _

end Deduction.Tableau.Propositional
