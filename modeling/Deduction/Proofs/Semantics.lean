import Deduction.Clause
import Deduction.Proofs.Substitution

/-!
# Meaning of first-order clauses

An interpretation gives a domain a meaning for every symbol. A clause is read as
its universal closure, so it is true in an interpretation if it holds under
every assignment of its variables. Replacing variables in a clause is changing
the assignment, and so every instance of a true clause is true.
-/

namespace Deduction

universe u

/-- A meaning of all symbols in a domain. Functions and relations take argument lists of any
length. -/
structure Interpretation (D : Type u) where
  /-- The value of a constant symbol. -/
  const : String → D
  /-- The value of a function symbol at its arguments. -/
  func : String → List D → D
  /-- Whether a predicate symbol holds of its arguments. -/
  rel : String → List D → Prop

variable {D : Type u} (M : Interpretation D)

namespace Term

mutual

/-- The value of a term under an assignment of its variables. -/
def value (v : String → D) : Term → D
  | .var x => v x
  | .const a => M.const a
  | .app f args => M.func f (valueList v args)

/-- The values of an argument list. -/
def valueList (v : String → D) : List Term → List D
  | [] => []
  | t :: ts => value v t :: valueList v ts

end

theorem valueList_eq_map (v : String → D) (ts : List Term) :
    valueList M v ts = ts.map (value M v) := by
  induction ts with
  | nil => rfl
  | cons t ts ih => simp [valueList, ih]

/-- The value of an instance is the value under the assignment of what is put in. -/
theorem value_bind (v : String → D) (σ : String → Term) (t : Term) :
    (t.bind σ).value M v = t.value M fun x => (σ x).value M v := by
  induction t using Term.induction with
  | var x => rfl
  | const a => rfl
  | app f args ih =>
    simp only [bind, value, bindList_eq_map, valueList_eq_map, List.map_map]
    exact congrArg (M.func f) (List.map_congr_left ih)

end Term

/-- Whether a relation holds under an assignment. -/
def Relation.Holds (v : String → D) (r : Relation) : Prop :=
  M.rel r.name (Term.valueList M v r.args)

/-- An instance of a relation holds exactly if the relation does under the assignment of what is
put in. -/
theorem Relation.holds_bind (v : String → D) (σ : String → Term) (r : Relation) :
    (r.bind σ).Holds M v ↔ r.Holds M fun x => (σ x).value M v := by
  simp only [Holds, bind, Term.bindList_eq_map, Term.valueList_eq_map, List.map_map]
  exact iff_of_eq (congrArg _ (List.map_congr_left fun t _ => Term.value_bind M v σ t))

namespace Atom

/-- Whether an atom holds under an assignment. -/
def Holds (v : String → D) (a : Atom Relation) : Prop :=
  if a.negated then ¬ a.lit.Holds M v else a.lit.Holds M v

theorem holds_of_not_negated {v : String → D} {a : Atom Relation} (h : a.negated = false) :
    a.Holds M v ↔ a.lit.Holds M v := by
  simp [Holds, h]

/-- Of an atom and its complement exactly one holds. -/
theorem holds_complement (v : String → D) (a : Atom Relation) :
    a.complement.Holds M v ↔ ¬ a.Holds M v := by
  cases h : a.negated <;> simp [Holds, complement, h]

/-- An instance of an atom holds exactly if the atom does under the assignment of what is put
in. -/
theorem holds_bind (v : String → D) (σ : String → Term) (a : Atom Relation) :
    (Atom.mk (a.lit.bind σ) a.negated).Holds M v ↔ a.Holds M fun x => (σ x).value M v := by
  simp only [Holds, Relation.holds_bind]

end Atom

namespace Clause

/-- Whether some atom of a clause holds under an assignment. -/
def Holds (v : String → D) (c : Clause Relation) : Prop := ∃ a ∈ c.atoms, a.Holds M v

/-- Whether the universal closure of a clause is true. -/
def TrueIn (c : Clause Relation) : Prop := ∀ v : String → D, c.Holds M v

variable {M}

/-- More atoms make a clause weaker. -/
theorem TrueIn.mono {c d : Clause Relation} (h : c.TrueIn M) (hsub : c.atoms ⊆ d.atoms) :
    d.TrueIn M := by
  intro v
  obtain ⟨a, ha, hv⟩ := h v
  exact ⟨a, hsub ha, hv⟩

/-- A clause whose atoms are those of a true clause, with variables replaced, is true. -/
theorem TrueIn.bind {c : Clause Relation} (h : c.TrueIn M) (σ : String → Term) :
    TrueIn M ⟨c.atoms.map fun a => ⟨a.lit.bind σ, a.negated⟩⟩ := by
  intro v
  obtain ⟨a, ha, hv⟩ := h fun x => (σ x).value M v
  exact ⟨_, List.mem_map_of_mem ha, (Atom.holds_bind M v σ a).mpr hv⟩

@[simp] theorem instantiate_empty (c : Clause Relation) : c.instantiate .empty = c := by
  simp [instantiate, Atom.instantiate, Relation.instantiate]

/-- Every instance of a true clause is true. -/
theorem TrueIn.instantiate {c : Clause Relation} (h : c.TrueIn M) (s : Substitution) :
    (c.instantiate s).TrueIn M :=
  h.bind s.apply

/-- A true clause stays true when its variables get a suffix. -/
theorem TrueIn.withSuffix {c : Clause Relation} (h : c.TrueIn M) (suffix : String) :
    (c.withSuffix suffix).TrueIn M :=
  h.bind fun x => .var (Deduction.withSuffix suffix x)

/-- A clause without atoms is true in no interpretation. -/
theorem not_trueIn_of_isEmpty [Nonempty D] {c : Clause Relation} (h : c.isEmpty = true) :
    ¬ c.TrueIn M := by
  intro hc
  obtain ⟨d⟩ := ‹Nonempty D›
  obtain ⟨a, ha, -⟩ := hc fun _ => d
  rw [isEmpty, List.isEmpty_iff] at h
  rw [h] at ha
  cases ha

end Clause

namespace ClauseSet

/-- Whether all clauses of a set are true. -/
def TrueIn (s : ClauseSet Relation) : Prop := ∀ c ∈ s.clauses, c.TrueIn M

/-- Whether a clause is true wherever all clauses of a set are. -/
def Entails (s : ClauseSet Relation) (c : Clause Relation) : Prop :=
  ∀ (D : Type u) [Nonempty D] (M : Interpretation D), s.TrueIn M → c.TrueIn M

/-- Whether the clauses of a set are not true together in any interpretation. -/
def Unsatisfiable (s : ClauseSet Relation) : Prop :=
  ∀ (D : Type u) [Nonempty D] (M : Interpretation D), ¬ s.TrueIn M

end ClauseSet

end Deduction
