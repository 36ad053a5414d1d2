import Deduction.Proofs.Substitution

/-!
# Solving equations between terms

Every step of solving keeps the solutions of the equations, up to the variable
that it replaces, and every failure is at equations without any solution. So a
substitution that is found solves the equations, and every other solution is an
instance of it. The substitution and the equations that are left never share a
variable, which makes the answer idempotent.
-/

namespace Deduction

namespace Equations

variable {σ θ : String → Term} {es : List Equation}

/-- A replacement makes the two sides of every equation equal. -/
def Holds (σ : String → Term) (es : List Equation) : Prop := ∀ e ∈ es, e.1.bind σ = e.2.bind σ

@[simp] theorem holds_nil : Holds σ [] := by simp [Holds]

@[simp] theorem holds_cons {l r : Term} :
    Holds σ ((l, r) :: es) ↔ l.bind σ = r.bind σ ∧ Holds σ es := by
  simp [Holds]

@[simp] theorem holds_append {fs : List Equation} :
    Holds σ (es ++ fs) ↔ Holds σ es ∧ Holds σ fs := by
  simp [Holds, or_imp, forall_and]

/-- Solving the replaced equations is solving the equations by the composed replacement. -/
theorem holds_bind : Holds σ (bind θ es) ↔ Holds (fun x => (θ x).bind σ) es := by
  simp only [Holds, bind, List.forall_mem_map, Equation.bind, Term.bind_bind]

/-- Turning an equation round and putting it last keeps the solutions. -/
theorem holds_turn {l r : Term} : Holds σ (es ++ [(r, l)]) ↔ Holds σ ((l, r) :: es) := by
  simp only [holds_append, holds_cons, holds_nil, and_true]
  rw [and_comm, eq_comm]

/-- Equations between arguments hold exactly if the argument lists become equal. -/
theorem holds_zip {as bs : List Term} (h : as.length = bs.length) :
    Holds σ (as.zip bs) ↔ Term.bindList σ as = Term.bindList σ bs := by
  induction as generalizing bs with
  | nil =>
    cases bs with
    | nil => simp
    | cons b bs => simp at h
  | cons a as ih =>
    cases bs with
    | nil => simp at h
    | cons b bs => simp [Term.bindList, ih (Nat.succ.inj h)]

/-- Comparing arguments in place of applications keeps the solutions. -/
theorem holds_args {f : String} {as bs : List Term} (h : as.length = bs.length) :
    Holds σ (es ++ as.zip bs) ↔ Holds σ ((.app f as, .app f bs) :: es) := by
  simp only [holds_append, holds_cons, holds_zip h, Term.bind, Term.app.injEq, true_and]
  exact and_comm

/-- For a solution of `x = t` it makes no difference whether `x` was replaced before. -/
theorem holds_bind_single {x : String} {t : Term} (h : σ x = t.bind σ) :
    Holds σ (bind (Term.single x t) es) ↔ Holds σ es := by
  rw [holds_bind, funext (Term.bind_single_apply h)]

end Equations

namespace Term

theorem size_le_sizeList {t : Term} {ts : List Term} (h : t ∈ ts) : t.size ≤ sizeList ts := by
  induction ts with
  | nil => simp at h
  | cons u us ih =>
    rw [sizeList]
    rcases List.mem_cons.mp h with rfl | h
    · omega
    · have := ih h
      omega

/-- An instance is at least as large as what is put in for a variable that occurs. -/
theorem size_le_size_bind {t : Term} {x : String} (σ : String → Term) (h : x ∈ t.vars) :
    (σ x).size ≤ (t.bind σ).size := by
  induction t using Term.induction with
  | var y =>
    obtain rfl : x = y := by simpa [vars] using h
    exact Nat.le_refl _
  | const a => simp [vars] at h
  | app f args ih =>
    rw [vars, varsList_eq_flatMap] at h
    obtain ⟨t, ht, hx⟩ := List.mem_flatMap.mp h
    have hle := ih t ht hx
    have hsum : (t.bind σ).size ≤ sizeList (args.map (bind σ)) :=
      size_le_sizeList (List.mem_map_of_mem ht)
    rw [bind, bindList_eq_map, size]
    omega

/-- No replacement makes a variable equal to a larger term that contains it. -/
theorem bind_ne_of_mem_vars {t : Term} {x : String} (σ : String → Term) (h : x ∈ t.vars)
    (hne : t ≠ .var x) : σ x ≠ t.bind σ := by
  intro heq
  cases t with
  | var y =>
    obtain rfl : x = y := by simpa [vars] using h
    exact hne rfl
  | const a => simp [vars] at h
  | app f args =>
    rw [vars, varsList_eq_flatMap] at h
    obtain ⟨t, ht, hx⟩ := List.mem_flatMap.mp h
    have hle := size_le_size_bind σ hx
    have hsum : (t.bind σ).size ≤ sizeList (args.map (bind σ)) :=
      size_le_sizeList (List.mem_map_of_mem ht)
    have hsize := congrArg size heq
    rw [bind, bindList_eq_map, size] at hsize
    omega

end Term

namespace Equations

variable {σ θ : String → Term} {es : List Equation}

/-- A solution of which every other solution is an instance. -/
structure MostGeneral (θ : String → Term) (es : List Equation) : Prop where
  /-- It makes the two sides of every equation equal. -/
  holds : Holds θ es
  /-- Any solution sees no difference between a variable and what it is replaced by. -/
  absorbed : ∀ σ, Holds σ es → ∀ x, (θ x).bind σ = σ x

/-- Replacing nothing is most general where there is nothing to solve. -/
theorem mostGeneral_nil : MostGeneral .var [] :=
  ⟨holds_nil, fun _ _ _ => rfl⟩

/-- Equations with the same solutions have the same most general ones. -/
theorem MostGeneral.congr {fs : List Equation} (h : MostGeneral θ es)
    (hiff : ∀ σ, Holds σ es ↔ Holds σ fs) : MostGeneral θ fs :=
  ⟨(hiff θ).mp h.holds, fun σ hσ => h.absorbed σ ((hiff σ).mpr hσ)⟩

/-- Replacing a variable by a term that it has to be, and then solving what is left. -/
theorem MostGeneral.single {x : String} {t : Term} (hx : x ∉ t.vars)
    (h : MostGeneral θ (bind (Term.single x t) es)) :
    MostGeneral (fun y => (Term.single x t y).bind θ) ((.var x, t) :: es) := by
  refine ⟨?_, ?_⟩
  · rw [holds_cons, ← holds_bind, ← Term.bind_bind t, Term.bind_single_of_notMem hx]
    exact ⟨by simp [Term.bind, Term.single], h.holds⟩
  · intro σ hσ y
    obtain ⟨hxt, hes⟩ := holds_cons.mp hσ
    have hθ := h.absorbed σ ((holds_bind_single hxt).mpr hes)
    calc ((Term.single x t y).bind θ).bind σ
        = (Term.single x t y).bind σ := by rw [Term.bind_bind, funext hθ]
      _ = σ y := Term.bind_single_apply hxt y

end Equations

/-- The substitution binds none of the given variables, and none that occurs in its values. -/
structure Substitution.Solved (s : Substitution) (xs : List String) : Prop where
  /-- The given variables are not bound. -/
  unbound : ∀ x ∈ xs, s.get? x = none
  /-- The variables in values are not bound. -/
  idempotent : ∀ x t, s.get? x = some t → ∀ y ∈ t.vars, s.get? y = none

namespace Substitution.Solved

variable {s : Substitution} {xs ys : List String}

theorem empty (xs : List String) : Solved .empty xs :=
  ⟨fun _ _ => rfl, fun _ _ h => by simp at h⟩

theorem mono (h : s.Solved xs) (hsub : ys ⊆ xs) : s.Solved ys :=
  ⟨fun x hx => h.unbound x (hsub hx), h.idempotent⟩

/-- A solved substitution does not change what it has been applied to. -/
theorem bind_apply (h : s.Solved xs) {t : Term} (ht : t.vars ⊆ xs) : t.bind s.apply = t := by
  rw [Term.bind_congr (τ := .var), Term.bind_var]
  exact fun x hx => apply_of_get?_eq_none (h.unbound x (ht hx))

/-- Solving one more variable keeps the substitution apart from the variables that are left. -/
theorem extend {x : String} {t : Term} (h : s.Solved xs) (ht : t.vars ⊆ xs) (hn : x ∉ t.vars)
    (hy : ∀ y ∈ ys, y ∈ xs ∧ y ≠ x) : (s.extend x t).Solved ys := by
  -- A variable other than `x` that was not bound is not bound afterwards.
  have hfree : ∀ y, s.get? y = none → y ≠ x → (s.extend x t).get? y = none := by
    intro y hnone hne
    rw [get?_extend, if_neg hne.symm, hnone, Option.map_none]
  have htfree : ∀ y ∈ t.vars, (s.extend x t).get? y = none := by
    intro y hyt
    exact hfree y (h.unbound y (ht hyt)) fun he => hn (he ▸ hyt)
  refine ⟨fun y hys => hfree y (h.unbound y (hy y hys).1) (hy y hys).2, ?_⟩
  intro z u hz y hyu
  rw [get?_extend] at hz
  split at hz
  · cases hz
    exact htfree y hyu
  · obtain ⟨v, hv, rfl⟩ := Option.map_eq_some_iff.mp hz
    rcases Term.mem_vars_bind_single v hyu with ⟨hyt, _⟩ | ⟨hyv, hne⟩
    · exact htfree y hyt
    · exact hfree y (h.idempotent z v hv y hyv) hne

end Substitution.Solved

/-- The substitution has no variables but the given ones. -/
def Substitution.Confined (xs : List String) (s : Substitution) : Prop :=
  ∀ x t, s.get? x = some t → x ∈ xs ∧ t.vars ⊆ xs

namespace Substitution.Confined

theorem empty (xs : List String) : Confined xs .empty := fun _ _ h => by simp at h

theorem extend {s : Substitution} {x : String} {t : Term} {xs : List String}
    (h : s.Confined xs) (hx : x ∈ xs) (ht : t.vars ⊆ xs) : (s.extend x t).Confined xs := by
  intro y u hy
  rw [get?_extend] at hy
  split at hy
  next he =>
    cases hy
    exact ⟨he ▸ hx, ht⟩
  next =>
    obtain ⟨v, hv, rfl⟩ := Option.map_eq_some_iff.mp hy
    refine ⟨(h y v hv).1, fun z hz => ?_⟩
    rcases Term.mem_vars_bind_single v hz with ⟨hzt, _⟩ | ⟨hzv, _⟩
    · exact ht hzt
    · exact (h y v hv).2 hzv

end Substitution.Confined

namespace Equations

variable {es : List Equation} {l r : Term}

/-- The variables of the first equation are among those of all. -/
theorem vars_subset_vars_cons : l.vars ⊆ vars ((l, r) :: es) ∧ r.vars ⊆ vars ((l, r) :: es) := by
  constructor <;> intro y hy <;> simp [vars, Equation.vars, hy]

theorem vars_tail_subset : vars es ⊆ vars ((l, r) :: es) := by
  intro y hy
  simpa [vars] using Or.inr hy

theorem vars_subset_vars_append {fs : List Equation} : vars fs ⊆ vars (es ++ fs) := by
  intro y hy
  simpa [vars] using Or.inr hy

theorem vars_turn_subset : vars (es ++ [(r, l)]) ⊆ vars ((l, r) :: es) := by
  intro y hy
  simp only [vars, List.flatMap_append, List.flatMap_cons, List.flatMap_nil, List.append_nil,
    List.mem_append, Equation.vars] at hy ⊢
  rcases hy with hy | hy | hy
  · exact Or.inr hy
  · exact Or.inl (Or.inr hy)
  · exact Or.inl (Or.inl hy)

theorem vars_args_subset {f g : String} {as bs : List Term} :
    vars (es ++ as.zip bs) ⊆ vars ((.app f as, .app g bs) :: es) := by
  intro y hy
  have hz := @vars_zip_subset as bs y
  simp only [vars, List.flatMap_append, List.flatMap_cons, List.mem_append, Equation.vars,
    Term.vars] at hy hz ⊢
  rcases hy with hy | hy
  · exact Or.inr hy
  · exact Or.inl (hz hy)

/-- Solving a variable leaves old variables other than it. -/
theorem mem_vars_of_mem_bind_single {x y : String} {t : Term} (hx : x ∉ t.vars)
    (hy : y ∈ vars (bind (Term.single x t) es)) : y ∈ vars ((.var x, t) :: es) ∧ y ≠ x := by
  rcases mem_vars_bind_single hy with hy | ⟨hy, hne⟩
  · exact ⟨vars_subset_vars_cons.2 hy, fun he => hx (he ▸ hy)⟩
  · exact ⟨vars_tail_subset hy, hne⟩

/-- Induction along the steps of solving. A step keeps the solutions and brings in no variable,
or it replaces a variable; solving ends without equations, or at equations without solution. -/
theorem solve_induction
    {motive : List Equation → Substitution → Except UnifyError Substitution → Prop}
    (done : ∀ s, motive [] s (.ok s))
    (stuck : ∀ es s e, (∀ σ, ¬ Holds σ es) → motive es s (.error e))
    (same : ∀ es fs s a, (∀ σ, Holds σ fs ↔ Holds σ es) → vars fs ⊆ vars es →
      motive fs s a → motive es s a)
    (single : ∀ x t es s a, x ∉ t.vars → motive (bind (Term.single x t) es) (s.extend x t) a →
      motive ((.var x, t) :: es) s a)
    (es : List Equation) (s : Substitution) : motive es s (solve es s) := by
  fun_induction solve es s with
  | case1 s => exact done s
  | case2 s r rest ih => exact same _ _ _ _ (fun σ => by simp) vars_tail_subset ih
  | case3 s rest x t hocc hne =>
    have hx : x ∈ t.vars := by simpa [Term.occurs] using hocc
    refine stuck _ _ _ fun σ h => ?_
    exact Term.bind_ne_of_mem_vars σ hx (Ne.symm hne) (holds_cons.mp h).1
  | case4 s rest x t hocc hne ih =>
    exact single _ _ _ _ _ (by simpa [Term.occurs] using hocc) ih
  | case5 s rest a x hne ih => exact same _ _ _ _ (fun σ => holds_turn) vars_turn_subset ih
  | case6 s rest f as x hne ih => exact same _ _ _ _ (fun σ => holds_turn) vars_turn_subset ih
  | case7 s rest f as g bs hfg hne ih =>
    obtain ⟨rfl, hlen⟩ := hfg
    exact same _ _ _ _ (fun σ => holds_args hlen) vars_args_subset ih
  | case8 s rest f as g bs hfg hne =>
    refine stuck _ _ _ fun σ h => hfg ?_
    obtain ⟨rfl, hargs⟩ := Term.app.inj (holds_cons.mp h).1
    exact ⟨rfl, by simpa [Term.bindList_eq_map] using congrArg List.length hargs⟩
  | case9 s rest l r hvar hconst happ happs hne =>
    -- Only two constants, or a constant and an application, are left.
    refine stuck _ _ _ fun σ h => ?_
    have hlr := (holds_cons.mp h).1
    cases l with
    | var x => exact hvar x rfl
    | const a =>
      cases r with
      | var x => exact hconst a x rfl rfl
      | const b => exact hne hlr
      | app g bs => exact Term.noConfusion hlr
    | app f as =>
      cases r with
      | var x => exact happ f as x rfl rfl
      | const b => exact Term.noConfusion hlr
      | app g bs => exact happs f as g bs rfl rfl

/-- A substitution that is found is the given one followed by a most general solution. -/
theorem solve_mostGeneral (es : List Equation) (s : Substitution) {s' : Substitution}
    (hs : s.Solved (vars es)) (h : solve es s = .ok s') :
    ∃ θ, MostGeneral θ es ∧ ∀ y, s'.apply y = (s.apply y).bind θ := by
  induction es, s using solve_induction generalizing s' with
  | done s =>
    cases h
    exact ⟨.var, mostGeneral_nil, fun y => (Term.bind_var _).symm⟩
  | stuck es s e hno => cases h
  | same es fs s a hiff hsub ih =>
    obtain ⟨θ, hθ, hs'⟩ := ih (hs.mono hsub) h
    exact ⟨θ, hθ.congr hiff, hs'⟩
  | single x t es s a hx ih =>
    have hfree : s.get? x = none := hs.unbound x (vars_subset_vars_cons.1 (by simp [Term.vars]))
    have hs₁ : (s.extend x t).Solved (vars (bind (Term.single x t) es)) :=
      hs.extend vars_subset_vars_cons.2 hx fun y hy => mem_vars_of_mem_bind_single hx hy
    obtain ⟨θ, hθ, hs'⟩ := ih hs₁ h
    refine ⟨_, hθ.single hx, fun y => ?_⟩
    rw [hs', Substitution.apply_extend hfree, Term.bind_bind]

/-- A substitution that is found binds no variable that occurs in its values. -/
theorem solve_solved (es : List Equation) (s : Substitution) {s' : Substitution}
    (hs : s.Solved (vars es)) (h : solve es s = .ok s') : s'.Solved [] := by
  induction es, s using solve_induction generalizing s' with
  | done s =>
    cases h
    exact hs
  | stuck es s e hno => cases h
  | same es fs s a hiff hsub ih => exact ih (hs.mono hsub) h
  | single x t es s a hx ih =>
    exact ih (hs.extend vars_subset_vars_cons.2 hx fun y hy => mem_vars_of_mem_bind_single hx hy) h

/-- A substitution that is found has no variables but those of the equations. -/
theorem solve_confined {xs : List String} (es : List Equation) (s : Substitution)
    {s' : Substitution} (hes : vars es ⊆ xs) (hs : s.Confined xs) (h : solve es s = .ok s') :
    s'.Confined xs := by
  induction es, s using solve_induction generalizing s' with
  | done s =>
    cases h
    exact hs
  | stuck es s e hno => cases h
  | same es fs s a hiff hsub ih => exact ih (fun y hy => hes (hsub hy)) hs h
  | single x t es s a hx ih =>
    refine ih (fun y hy => hes (mem_vars_of_mem_bind_single hx hy).1) ?_ h
    exact hs.extend (hes (vars_subset_vars_cons.1 (by simp [Term.vars])))
      fun y hy => hes (vars_subset_vars_cons.2 hy)

/-- Equations at which solving fails have no solution at all. -/
theorem not_holds_of_solve_error (es : List Equation) (s : Substitution) {e : UnifyError}
    (h : solve es s = .error e) (σ : String → Term) : ¬ Holds σ es := by
  induction es, s using solve_induction generalizing σ with
  | done s => cases h
  | stuck es s e hno => exact hno σ
  | same es fs s a hiff hsub ih => exact fun hσ => ih h σ ((hiff σ).mpr hσ)
  | single x t es s a hx ih =>
    intro hσ
    obtain ⟨hxt, hes⟩ := holds_cons.mp hσ
    exact ih h σ ((holds_bind_single hxt).mpr hes)

end Equations

/-- A solution, given as a substitution, of which every other solution is an instance. -/
structure Substitution.MostGeneralSolution (solves : Substitution → Prop) (xs : List String)
    (s : Substitution) : Prop where
  /-- It is a solution. -/
  solution : solves s
  /-- No variable that it binds occurs in one of its values. -/
  idempotent : ∀ x t, s.get? x = some t → ∀ y u, s.get? y = some u → x ∉ u.vars
  /-- It has no variables but the given ones. -/
  confined : s.Confined xs
  /-- Any solution sees no difference between a term and its instance. -/
  general : ∀ t, solves t → ∀ u : Term, (u.instantiate s).instantiate t = u.instantiate t

/-- Solving equations from scratch gives a most general solution. -/
theorem solve_mostGeneralSolution {es : List Equation} {s : Substitution}
    (h : solve es .empty = .ok s) :
    s.MostGeneralSolution (fun t => Equations.Holds t.apply es) (Equations.vars es) := by
  have hempty := Substitution.Solved.empty (Equations.vars es)
  obtain ⟨θ, hθ, hs⟩ := Equations.solve_mostGeneral es .empty hempty h
  obtain rfl : s.apply = θ := funext hs
  refine ⟨hθ.holds, ?_, ?_, ?_⟩
  · intro x t hx y u hy hmem
    have hnone := (Equations.solve_solved es .empty hempty h).idempotent y u hy x hmem
    rw [hnone] at hx
    cases hx
  · exact Equations.solve_confined es .empty (fun y hy => hy) (.empty _) h
  · intro t ht u
    rw [Term.instantiate, Term.instantiate, Term.instantiate, Term.bind_bind,
      funext (hθ.absorbed t.apply ht)]

/-- Problems with the same solutions have the same most general ones. -/
theorem Substitution.MostGeneralSolution.congr {p q : Substitution → Prop} {xs ys : List String}
    {s : Substitution} (h : s.MostGeneralSolution p xs) (hiff : ∀ t, p t ↔ q t) (hsub : xs ⊆ ys) :
    s.MostGeneralSolution q ys where
  solution := (hiff s).mp h.solution
  idempotent := h.idempotent
  confined x t hx := ⟨hsub (h.confined x t hx).1, fun _ hy => hsub ((h.confined x t hx).2 hy)⟩
  general t ht := h.general t ((hiff t).mpr ht)

end Deduction
