import Deduction.Substitution

/-!
# Unification

A list of equations between terms is solved one equation at a time, first come
first served. A solved variable is replaced in all that is left, an equation
between two applications is replaced by equations between their arguments, and
an equation with its variable on the right is turned round and put last. Each
step loses a variable, or symbols, or an equation that stands the wrong way
round, so the solving ends; `solve` computes its answer by that measure.
-/

namespace Deduction

/-- Why equations have no common solution. -/
inductive UnifyError where
  /-- Two relations differ in name or number of arguments. -/
  | differentSymbols (left right : Relation)
  /-- A variable would have to be a term that contains it. -/
  | cyclic (x : String) (t : Term)
  /-- Two terms start with different symbols. -/
  | clash (left right : Term)
  deriving DecidableEq, Repr

/-- The wording of a failed unification. -/
def UnifyError.message : UnifyError → String
  | .differentSymbols left right =>
    "Relations '" ++ left.render ++ "' and '" ++ right.render ++
      "' have different names or arities"
  | .cyclic x t =>
    "Variable '" ++ x ++ "' would be instantiated with term '" ++ t.render ++
      "' that contains it"
  | .clash left right => "Cannot unify '" ++ left.render ++ "' and '" ++ right.render ++ "'"

theorem nodup_eraseDups {α : Type} [DecidableEq α] (l : List α) : l.eraseDups.Nodup := by
  match l with
  | [] => simp
  | x :: l =>
    have : (l.filter fun b => !b == x).length < l.length + 1 :=
      Nat.lt_succ_of_le (List.length_filter_le _ _)
    rw [List.eraseDups_cons, List.nodup_cons]
    exact ⟨by simp, nodup_eraseDups _⟩
termination_by l.length

/-- Two terms that are to become equal. -/
abbrev Equation := Term × Term

namespace Equation

/-- Replace the variables on both sides. -/
def bind (σ : String → Term) (e : Equation) : Equation := (e.1.bind σ, e.2.bind σ)

/-- The variables of both sides. -/
def vars (e : Equation) : List String := e.1.vars ++ e.2.vars

/-- The symbols and variables of both sides. -/
def size (e : Equation) : Nat := e.1.size + e.2.size

end Equation

namespace Equations

/-- Replace the variables of a list of equations. -/
def bind (σ : String → Term) (es : List Equation) : List Equation := es.map (Equation.bind σ)

/-- All variables of a list of equations. -/
def vars (es : List Equation) : List String := es.flatMap Equation.vars

/-- The number of different variables of a list of equations. -/
def varCount (es : List Equation) : Nat := (vars es).eraseDups.length

/-- The total size of a list of equations. -/
def size : List Equation → Nat
  | [] => 0
  | e :: es => e.size + size es

theorem size_append (es fs : List Equation) : size (es ++ fs) = size es + size fs := by
  induction es with
  | nil => simp [size]
  | cons e es ih =>
    rw [List.cons_append, size, size, ih]
    omega

/-- The number of equations that do not have a variable on the left. -/
def unoriented (es : List Equation) : Nat := es.countP fun e => !e.1.isVar

/-- What every step of solving makes smaller. -/
def measure (es : List Equation) : Nat × Nat × Nat := (varCount es, size es, unoriented es)

theorem varCount_le_of_subset {es fs : List Equation} (h : vars es ⊆ vars fs) :
    varCount es ≤ varCount fs := by
  apply (nodup_eraseDups _).length_le_of_subset
  intro x hx
  rw [List.mem_eraseDups] at hx ⊢
  exact h hx

theorem varCount_lt_of_subset {es fs : List Equation} (x : String) (h : vars es ⊆ vars fs)
    (hx : x ∈ vars fs) (hn : x ∉ vars es) : varCount es < varCount fs := by
  have hd : (x :: (vars es).eraseDups).Nodup := by
    rw [List.nodup_cons, List.mem_eraseDups]
    exact ⟨hn, nodup_eraseDups _⟩
  refine hd.length_le_of_subset fun y hy => ?_
  rw [List.mem_eraseDups]
  rcases List.mem_cons.1 hy with rfl | hy
  · exact hx
  · exact h (List.mem_eraseDups.1 hy)

theorem measure_lt_of_varCount {es fs : List Equation} (h : varCount es < varCount fs) :
    Prod.Lex (· < ·) (Prod.Lex (· < ·) (· < ·)) (measure es) (measure fs) :=
  .left _ _ h

theorem measure_lt_of_size {es fs : List Equation} (hv : vars es ⊆ vars fs)
    (hs : size es < size fs) :
    Prod.Lex (· < ·) (Prod.Lex (· < ·) (· < ·)) (measure es) (measure fs) := by
  unfold measure
  rcases Nat.lt_or_eq_of_le (varCount_le_of_subset hv) with h | h
  · exact .left _ _ h
  · rw [h]
    exact .right _ (.left _ _ hs)

theorem measure_lt_of_unoriented {es fs : List Equation} (hv : vars es ⊆ vars fs)
    (hs : size es = size fs) (hu : unoriented es < unoriented fs) :
    Prod.Lex (· < ·) (Prod.Lex (· < ·) (· < ·)) (measure es) (measure fs) := by
  unfold measure
  rcases Nat.lt_or_eq_of_le (varCount_le_of_subset hv) with h | h
  · exact .left _ _ h
  · rw [h, hs]
    exact .right _ (.right _ hu)

end Equations

mutual

/-- A variable of `t.bind (single x u)` is a variable of `u`, or one of `t` other than `x`. -/
theorem Term.mem_vars_bind_single {x y : String} {u : Term} :
    (t : Term) → y ∈ (t.bind (Term.single x u)).vars →
      y ∈ u.vars ∧ x ∈ t.vars ∨ y ∈ t.vars ∧ y ≠ x
  | .var z => by
    intro h
    by_cases hz : z = x
    · subst hz
      exact .inl ⟨by simpa [Term.bind, Term.single] using h, by simp [Term.vars]⟩
    · simp only [Term.bind, Term.single, if_neg hz] at h
      refine .inr ⟨h, ?_⟩
      simp only [Term.vars, List.mem_singleton] at h
      exact h ▸ hz
  | .const a => by simp [Term.bind, Term.vars]
  | .app f args => by
    intro h
    exact Term.mem_varsList_bind_single args h

/-- The same for argument lists. -/
theorem Term.mem_varsList_bind_single {x y : String} {u : Term} :
    (ts : List Term) → y ∈ Term.varsList (Term.bindList (Term.single x u) ts) →
      y ∈ u.vars ∧ x ∈ Term.varsList ts ∨ y ∈ Term.varsList ts ∧ y ≠ x
  | [] => by simp [Term.bindList, Term.varsList]
  | t :: ts => by
    intro h
    simp only [Term.bindList, Term.varsList, List.mem_append] at h ⊢
    rcases h with h | h
    · rcases Term.mem_vars_bind_single t h with h | h
      · exact .inl ⟨h.1, .inl h.2⟩
      · exact .inr ⟨.inl h.1, h.2⟩
    · rcases Term.mem_varsList_bind_single ts h with h | h
      · exact .inl ⟨h.1, .inr h.2⟩
      · exact .inr ⟨.inr h.1, h.2⟩

end

namespace Equations

/-- Solving a variable leaves only variables of the solution and old ones other than it. -/
theorem mem_vars_bind_single {x y : String} {u : Term} {es : List Equation}
    (h : y ∈ vars (bind (Term.single x u) es)) :
    y ∈ u.vars ∨ y ∈ vars es ∧ y ≠ x := by
  simp only [bind, vars, List.mem_flatMap, List.mem_map, Equation.vars] at h ⊢
  obtain ⟨_, ⟨e, he, rfl⟩, h⟩ := h
  simp only [Equation.bind, List.mem_append] at h
  rcases h with h | h <;> rcases Term.mem_vars_bind_single _ h with h | h
  · exact .inl h.1
  · exact .inr ⟨⟨e, he, List.mem_append.2 (.inl h.1)⟩, h.2⟩
  · exact .inl h.1
  · exact .inr ⟨⟨e, he, List.mem_append.2 (.inr h.1)⟩, h.2⟩

/-- The arguments of two applications have no other variables than the applications. -/
theorem vars_zip_subset (ss ts : List Term) :
    vars (ss.zip ts) ⊆ Term.varsList ss ++ Term.varsList ts := by
  intro x hx
  simp only [vars, List.mem_flatMap, Equation.vars, List.mem_append] at hx
  obtain ⟨⟨s, t⟩, he, hx⟩ := hx
  have hmem := List.of_mem_zip he
  rw [List.mem_append, Term.varsList_eq_flatMap, Term.varsList_eq_flatMap]
  rcases hx with hx | hx
  · exact .inl (List.mem_flatMap.2 ⟨s, hmem.1, hx⟩)
  · exact .inr (List.mem_flatMap.2 ⟨t, hmem.2, hx⟩)

/-- Pairing arguments adds no symbols. -/
theorem size_zip_le (ss ts : List Term) :
    size (ss.zip ts) ≤ Term.sizeList ss + Term.sizeList ts := by
  induction ss generalizing ts with
  | nil => simp [size]
  | cons s ss ih =>
    cases ts with
    | nil => simp [size]
    | cons t ts =>
      have := ih ts
      simp only [size, List.zip_cons_cons, Equation.size, Term.sizeList] at this ⊢
      omega

/-- Turning an equation round and putting it last leaves one fewer to turn. -/
theorem measure_lt_turn {t : Term} {x : String} {rest : List Equation} (h : t.isVar = false) :
    Prod.Lex (· < ·) (Prod.Lex (· < ·) (· < ·)) (measure (rest ++ [(.var x, t)]))
      (measure ((t, .var x) :: rest)) := by
  apply measure_lt_of_unoriented
  · intro y hy
    simp only [vars, List.flatMap_append, List.flatMap_cons, List.flatMap_nil, List.append_nil,
      List.mem_append, Equation.vars] at hy ⊢
    grind
  · simp only [size, size_append, Equation.size]
    omega
  · have hx : (Term.var x).isVar = true := rfl
    simp [unoriented, h, hx]

/-- Comparing arguments in place of applications loses the two function symbols. -/
theorem measure_lt_args (f g : String) (as bs : List Term) (rest : List Equation) :
    Prod.Lex (· < ·) (Prod.Lex (· < ·) (· < ·)) (measure (rest ++ as.zip bs))
      (measure ((.app f as, .app g bs) :: rest)) := by
  apply measure_lt_of_size
  · intro y hy
    have hz := @vars_zip_subset as bs y
    simp only [vars, List.flatMap_append, List.flatMap_cons, List.mem_append, Equation.vars,
      Term.vars] at hy hz ⊢
    rcases hy with hy | hy
    · exact .inr hy
    · exact .inl (hz hy)
  · have hz := size_zip_le as bs
    simp only [size, size_append, Equation.size, Term.size] at hz ⊢
    omega

end Equations

/-- Solve equations from the first to the last, extending a substitution as variables are
solved. The substitution is already applied to the equations that are left. -/
def solve (es : List Equation) (s : Substitution) : Except UnifyError Substitution :=
  match es with
  | [] => .ok s
  | (l, r) :: rest =>
    if l = r then solve rest s
    else
      match l, r with
      | .var x, t =>
        if t.occurs x then .error (.cyclic x t)
        else solve (Equations.bind (Term.single x t) rest) (s.extend x t)
      | .const a, .var x => solve (rest ++ [(.var x, .const a)]) s
      | .app f as, .var x => solve (rest ++ [(.var x, .app f as)]) s
      | .app f as, .app g bs =>
        if f = g ∧ as.length = bs.length then solve (rest ++ as.zip bs) s
        else .error (.clash (.app f as) (.app g bs))
      | l, r => .error (.clash l r)
termination_by Equations.measure es
decreasing_by
  · refine Equations.measure_lt_of_size (List.subset_append_right _ _) ?_
    have := l.size_pos
    simp only [Equations.size, Equation.size]
    omega
  · rename_i hocc
    have hn : x ∉ t.vars := by simpa [Term.occurs] using hocc
    apply Equations.measure_lt_of_varCount
    refine Equations.varCount_lt_of_subset x (fun y hy => ?_) ?_ fun hx => ?_
    · simp only [Equations.vars, List.flatMap_cons, Equation.vars, List.mem_append]
      rcases Equations.mem_vars_bind_single hy with h | h
      · exact .inl (.inr h)
      · exact .inr h.1
    · simp [Equations.vars, Equation.vars, Term.vars]
    · rcases Equations.mem_vars_bind_single hx with h | h
      · exact hn h
      · exact h.2 rfl
  · exact Equations.measure_lt_turn rfl
  · exact Equations.measure_lt_turn rfl
  · exact Equations.measure_lt_args _ _ _ _ _

/-- The equations between the arguments of each pair of relations, refused at the first pair
that differs in name or number of arguments. -/
def argumentEquations : List (Relation × Relation) → Except UnifyError (List Equation)
  | [] => .ok []
  | (l, r) :: rest =>
    if l.sameSymbol r then do
      let es ← argumentEquations rest
      .ok (l.args.zip r.args ++ es)
    else .error (.differentSymbols l r)

/-- A most general substitution that makes the two relations of every pair equal. -/
def unifyAll (pairs : List (Relation × Relation)) : Except UnifyError Substitution := do
  let es ← argumentEquations pairs
  solve es .empty

/-- A most general substitution that makes two relations equal. -/
def unify (left right : Relation) : Except UnifyError Substitution := unifyAll [(left, right)]

/-- A most general substitution that makes two terms equal. -/
def unifyTerms (left right : Term) : Except UnifyError Substitution := solve [(left, right)] .empty

end Deduction
