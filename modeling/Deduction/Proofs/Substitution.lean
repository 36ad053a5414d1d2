import Deduction.Unify

/-!
# Laws of replacing variables

Replacing variables twice is replacing them once by the composed replacement,
and only the replacement of variables that occur matters. The look-ups of a map
after each of its operations are given here, and from them what a substitution
does to a variable once it has been extended.
-/

namespace Deduction

namespace KeyMap

variable {κ α β : Type} [Ord κ] [DecidableEq κ]

@[simp] theorem get?_empty (x : κ) : (empty : KeyMap κ α).get? x = none := rfl

/-- Writing to an ordered list changes the look-up of the written key only. -/
theorem find?_insertEntry [Std.LawfulEqOrd κ] (key x : κ) (value : α) (entries : List (κ × α)) :
    (insertEntry key value entries).find? (fun e => e.1 = x) =
      if key = x then some (key, value) else entries.find? fun e => e.1 = x := by
  induction entries with
  | nil => by_cases h : key = x <;> simp [insertEntry, h]
  | cons head rest ih =>
    obtain ⟨k, v⟩ := head
    rw [insertEntry]
    split
    · by_cases h : key = x <;> simp [h]
    next hc =>
      obtain rfl := Std.LawfulEqCmp.eq_of_compare hc
      by_cases h : key = x <;> simp [h]
    next hc =>
      have hne : key ≠ k := by
        rintro rfl
        simp at hc
      by_cases hk : k = x
      · subst hk
        simp [hne]
      · simp [hk, ih]

/-- A map remembers what was written last under each key. -/
theorem get?_insert [Std.TransOrd κ] [Std.LawfulEqOrd κ] (m : KeyMap κ α) (key x : κ) (value : α) :
    (m.insert key value).get? x = if key = x then some value else m.get? x := by
  simp only [get?, entries_insert, find?_insertEntry]
  split <;> rfl

/-- Changing all values changes what is found and nothing else. -/
theorem get?_mapValues (f : α → β) (m : KeyMap κ α) (x : κ) :
    (m.mapValues f).get? x = (m.get? x).map f := by
  simp only [get?, entries_mapValues, List.find?_map, Option.map_map]
  rfl

/-- A map made from keys with a value for each of them has these values. -/
theorem get?_ofList_map [Std.TransOrd κ] [Std.LawfulEqOrd κ] (f : κ → α) (keys : List κ) (x : κ) :
    (ofList (keys.map fun key => (key, f key))).get? x = if x ∈ keys then some (f x) else none := by
  have hfold : ∀ (keys : List κ) (m : KeyMap κ α),
      (keys.foldl (fun m key => m.insert key (f key)) m).get? x =
        if x ∈ keys then some (f x) else m.get? x := by
    intro keys
    induction keys with
    | nil => simp
    | cons key keys ih =>
      intro m
      rw [List.foldl_cons, ih, get?_insert]
      by_cases hmem : x ∈ keys
      · simp [hmem]
      · by_cases hkey : key = x
        · simp [hkey]
        · simp [hmem, hkey, Ne.symm hkey]
  rw [ofList, List.foldl_map, hfold, get?_empty]

end KeyMap

namespace Term

/-- Induction over terms: what holds of all arguments may be used for an application. -/
@[elab_as_elim] theorem induction {P : Term → Prop} (var : ∀ x, P (.var x))
    (const : ∀ a, P (.const a)) (app : ∀ f args, (∀ t ∈ args, P t) → P (.app f args))
    (t : Term) : P t := by
  cases t with
  | var x => exact var x
  | const a => exact const a
  | app f args => exact app f args fun t _ => induction var const app t

variable {σ τ : String → Term}

/-- Only the replacement of variables that occur in a term matters. -/
theorem bind_congr {t : Term} (h : ∀ x ∈ t.vars, σ x = τ x) : t.bind σ = t.bind τ := by
  induction t using Term.induction with
  | var x => exact h x (by simp [vars])
  | const a => rfl
  | app f args ih =>
    simp only [bind, bindList_eq_map, app.injEq, true_and]
    refine List.map_congr_left fun t ht => ih t ht fun x hx => h x ?_
    rw [vars, varsList_eq_flatMap]
    exact List.mem_flatMap.mpr ⟨t, ht, hx⟩

/-- Replacing every variable by itself changes nothing. -/
@[simp] theorem bind_var (t : Term) : t.bind .var = t := by
  induction t using Term.induction with
  | var x => rfl
  | const a => rfl
  | app f args ih =>
    simp only [bind, bindList_eq_map, app.injEq, true_and]
    exact (List.map_congr_left ih).trans (List.map_id' args)

/-- Two replacements one after the other are one replacement. -/
theorem bind_bind (t : Term) : (t.bind σ).bind τ = t.bind fun x => (σ x).bind τ := by
  induction t using Term.induction with
  | var x => rfl
  | const a => rfl
  | app f args ih =>
    simp only [bind, bindList_eq_map, List.map_map, app.injEq, true_and]
    exact List.map_congr_left ih

/-- An instance shows what has been put in for each variable. -/
theorem eq_of_bind_eq {t : Term} (h : t.bind σ = t.bind τ) : ∀ x ∈ t.vars, σ x = τ x := by
  induction t using Term.induction with
  | var x => simpa [vars, bind] using h
  | const a => simp [vars]
  | app f args ih =>
    simp only [bind, bindList_eq_map, app.injEq, true_and, List.map_inj_left] at h
    intro x hx
    rw [vars, varsList_eq_flatMap] at hx
    obtain ⟨t, ht, hx⟩ := List.mem_flatMap.mp hx
    exact ih t ht (h t ht) x hx

/-- The variables of an instance are those of the terms put in. -/
theorem mem_vars_bind {t : Term} {y : String} :
    y ∈ (t.bind σ).vars ↔ ∃ x ∈ t.vars, y ∈ (σ x).vars := by
  induction t using Term.induction with
  | var x => simp [bind, vars]
  | const a => simp [bind, vars]
  | app f args ih =>
    simp only [bind, vars, bindList_eq_map, varsList_eq_flatMap, List.mem_flatMap, List.mem_map]
    constructor
    · rintro ⟨_, ⟨t, ht, rfl⟩, hy⟩
      obtain ⟨x, hx, hy⟩ := (ih t ht).mp hy
      exact ⟨x, ⟨t, ht, hx⟩, hy⟩
    · rintro ⟨x, ⟨t, ht, hx⟩, hy⟩
      exact ⟨_, ⟨t, ht, rfl⟩, (ih t ht).mpr ⟨x, hx, hy⟩⟩

/-- Replacing a variable that does not occur changes nothing. -/
theorem bind_single_of_notMem {t u : Term} {x : String} (h : x ∉ t.vars) :
    t.bind (single x u) = t := by
  rw [bind_congr (τ := .var), bind_var]
  intro y hy
  simp only [single, ite_eq_right_iff]
  rintro rfl
  exact absurd hy h

/-- A replacement that solves `x = u` does not see whether `x` was replaced before. -/
theorem bind_single_apply {u : Term} {x : String} (h : σ x = u.bind σ) (y : String) :
    (single x u y).bind σ = σ y := by
  rw [single]
  split
  next hy => rw [hy, h]
  · rfl

end Term

/-- Replacing every variable by itself changes nothing. -/
@[simp] theorem Relation.bind_var (r : Relation) : r.bind .var = r := by
  rw [bind, Term.bindList_eq_map, List.map_congr_left fun t _ => Term.bind_var t, List.map_id']

/-- Only the variables of a relation matter. -/
theorem Relation.bind_congr {σ τ : String → Term} {r : Relation}
    (h : ∀ x ∈ r.vars, σ x = τ x) : r.bind σ = r.bind τ := by
  simp only [bind, Term.bindList_eq_map]
  refine congrArg _ (List.map_congr_left fun t ht => Term.bind_congr fun x hx => h x ?_)
  rw [vars, Term.varsList_eq_flatMap]
  exact List.mem_flatMap.mpr ⟨t, ht, hx⟩

/-- Two replacements one after the other are one replacement. -/
theorem Relation.bind_bind {σ τ : String → Term} (r : Relation) :
    (r.bind σ).bind τ = r.bind fun x => (σ x).bind τ := by
  simp only [bind, Term.bindList_eq_map, List.map_map]
  exact congrArg _ (List.map_congr_left fun t _ => t.bind_bind)

/-- An instance shows what has been put in for each variable. -/
theorem Relation.eq_of_bind_eq {σ τ : String → Term} {r : Relation} (h : r.bind σ = r.bind τ) :
    ∀ x ∈ r.vars, σ x = τ x := by
  have hterm : (Term.app r.name r.args).bind σ = (Term.app r.name r.args).bind τ :=
    congrArg (fun r : Relation => Term.app r.name r.args) h
  exact Term.eq_of_bind_eq hterm

/-- The variables of an instance are those of the terms put in. -/
theorem Relation.mem_vars_bind {r : Relation} {σ : String → Term} {y : String} :
    y ∈ (r.bind σ).vars ↔ ∃ x ∈ r.vars, y ∈ (σ x).vars :=
  -- A relation has the variables of a term with the same arguments.
  Term.mem_vars_bind (t := .app r.name r.args)

namespace Substitution

@[simp] theorem apply_empty : apply .empty = .var := rfl

/-- The bindings of an extended substitution. -/
theorem get?_extend (s : Substitution) (x y : String) (t : Term) :
    (s.extend x t).get? y =
      if x = y then some t else (s.get? y).map (Term.bind (Term.single x t)) := by
  rw [extend, KeyMap.get?_insert, KeyMap.get?_mapValues]

/-- Every replacement does what some substitution does to finitely many variables. -/
theorem exists_apply_eq (xs : List String) (σ : String → Term) :
    ∃ s : Substitution, ∀ x ∈ xs, s.apply x = σ x := by
  refine ⟨.ofList (xs.map fun x => (x, σ x)), fun x hx => ?_⟩
  rw [apply, KeyMap.get?_ofList_map, if_pos hx, Option.getD_some]

/-- A variable without binding stands for itself. -/
theorem apply_of_get?_eq_none {s : Substitution} {x : String} (h : s.get? x = none) :
    s.apply x = .var x := by
  rw [apply, h, Option.getD_none]

/-- Extending by a variable without binding is replacing that variable afterwards. -/
theorem apply_extend {s : Substitution} {x : String} (h : s.get? x = none) (t : Term) (y : String) :
    (s.extend x t).apply y = (s.apply y).bind (Term.single x t) := by
  rw [apply, get?_extend]
  split
  next hy =>
    rw [← hy, apply_of_get?_eq_none h]
    simp [Term.bind, Term.single]
  next hy =>
    rw [apply]
    cases s.get? y with
    | none => simp [Term.bind, Term.single, Ne.symm hy]
    | some u => rfl

end Substitution

end Deduction
