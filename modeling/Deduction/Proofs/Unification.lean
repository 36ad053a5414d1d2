import Deduction.Error
import Deduction.Proofs.Solving
import Mathlib

/-!
# Unification of relations and terms

Pairs of relations are unified by solving the equations between their arguments.
An answer is a most general unifier, and a refusal means that there is none. The
equations may also wait in a queue as they came in, each one instantiated only
when its turn comes; that loop ends, with the same answer.
-/

namespace Deduction

/-- A substitution makes the two relations of every pair equal. -/
def Substitution.Unifies (pairs : List (Relation × Relation)) (s : Substitution) : Prop :=
  ∀ p ∈ pairs, p.1.instantiate s = p.2.instantiate s

/-- The variables of all relations of a list of pairs. -/
def pairVars (pairs : List (Relation × Relation)) : List String :=
  pairs.flatMap fun p => p.1.vars ++ p.2.vars

namespace Relation

variable {l r : Relation}

/-- Relations of the same symbol become equal exactly if their arguments do. -/
theorem bind_eq_iff (h : l.sameSymbol r = true) (σ : String → Term) :
    l.bind σ = r.bind σ ↔ Equations.Holds σ (l.args.zip r.args) := by
  simp only [sameSymbol, Bool.and_eq_true, beq_iff_eq] at h
  rw [Equations.holds_zip h.2, bind, bind, mk.injEq]
  exact and_iff_right h.1

/-- Relations of different symbols never become equal. -/
theorem sameSymbol_of_bind_eq {σ : String → Term} (h : l.bind σ = r.bind σ) :
    l.sameSymbol r = true := by
  simp only [bind, Term.bindList_eq_map, mk.injEq] at h
  have hlen := congrArg List.length h.2
  simpa [sameSymbol, h.1] using hlen

end Relation

/-- The equations between arguments have the solutions of the pairs, and their variables. -/
theorem argumentEquations_ok {pairs : List (Relation × Relation)} {es : List Equation}
    (h : argumentEquations pairs = .ok es) :
    (∀ s : Substitution, Equations.Holds s.apply es ↔ s.Unifies pairs) ∧
      Equations.vars es ⊆ pairVars pairs := by
  induction pairs generalizing es with
  | nil =>
    cases h
    exact ⟨fun s => by simp [Substitution.Unifies], fun y hy => hy⟩
  | cons p pairs ih =>
    obtain ⟨l, r⟩ := p
    rw [argumentEquations] at h
    split at h
    next hsame =>
      cases hrest : argumentEquations pairs with
      | error e =>
        rw [hrest] at h
        cases h
      | ok fs =>
        rw [hrest] at h
        cases h
        obtain ⟨hiff, hsub⟩ := ih hrest
        refine ⟨fun s => ?_, ?_⟩
        · rw [Equations.holds_append, hiff, ← Relation.bind_eq_iff hsame]
          simp [Substitution.Unifies, Relation.instantiate]
        · intro y hy
          simp only [Equations.vars, List.flatMap_append, List.mem_append] at hy
          simp only [pairVars, List.flatMap_cons, List.mem_append]
          rcases hy with hy | hy
          · have hz := Equations.vars_zip_subset l.args r.args hy
            exact Or.inl (List.mem_append.mp hz)
          · exact Or.inr (hsub hy)
    next => cases h

/-- A refused list of pairs has no unifier. -/
theorem not_unifies_of_argumentEquations_error {pairs : List (Relation × Relation)}
    {e : UnifyError} (h : argumentEquations pairs = .error e) (s : Substitution) :
    ¬ s.Unifies pairs := by
  intro hs
  induction pairs generalizing e with
  | nil => cases h
  | cons p pairs ih =>
    obtain ⟨l, r⟩ := p
    rw [argumentEquations, if_pos (Relation.sameSymbol_of_bind_eq (hs (l, r) (by simp)))] at h
    cases hrest : argumentEquations pairs with
    | error e => exact ih hrest fun p hp => hs p (List.mem_cons_of_mem _ hp)
    | ok fs =>
      rw [hrest] at h
      cases h

/-- A unifier that is found for a list of pairs is most general. -/
theorem unifyAll_mostGeneralSolution {pairs : List (Relation × Relation)} {s : Substitution}
    (h : unifyAll pairs = .ok s) :
    s.MostGeneralSolution (Substitution.Unifies pairs) (pairVars pairs) := by
  rw [unifyAll] at h
  cases hes : argumentEquations pairs with
  | error e =>
    rw [hes] at h
    cases h
  | ok es =>
    rw [hes] at h
    obtain ⟨hiff, hsub⟩ := argumentEquations_ok hes
    exact (solve_mostGeneralSolution h).congr hiff hsub

/-- Pairs at which unification fails have no unifier at all. -/
theorem not_unifies_of_unifyAll_error {pairs : List (Relation × Relation)} {e : UnifyError}
    (h : unifyAll pairs = .error e) (s : Substitution) : ¬ s.Unifies pairs := by
  intro hs
  rw [unifyAll] at h
  cases hes : argumentEquations pairs with
  | error e' => exact not_unifies_of_argumentEquations_error hes s hs
  | ok es =>
    rw [hes] at h
    have hsolved := ((argumentEquations_ok hes).1 s).mpr hs
    exact Equations.not_holds_of_solve_error es .empty h s.apply hsolved

/-- Any solution sees no difference between a relation and its instance. -/
theorem Substitution.MostGeneralSolution.general_relation {solves : Substitution → Prop}
    {xs : List String} {s t : Substitution} (h : s.MostGeneralSolution solves xs) (ht : solves t)
    (r : Relation) : (r.instantiate s).instantiate t = r.instantiate t := by
  rw [Relation.instantiate, Relation.instantiate, Relation.bind_bind]
  exact Relation.bind_congr fun x _ => h.general t ht (.var x)

/-- A unifier that is found for two relations is most general. -/
theorem unify_mostGeneralSolution {l r : Relation} {s : Substitution} (h : unify l r = .ok s) :
    s.MostGeneralSolution (fun t => l.instantiate t = r.instantiate t) (l.vars ++ r.vars) := by
  refine (unifyAll_mostGeneralSolution h).congr (fun t => ?_) ?_
  · simp [Substitution.Unifies]
  · simp [pairVars]

/-- Two relations at which unification fails have no unifier at all. -/
theorem not_unifies_of_unify_error {l r : Relation} {e : UnifyError} (h : unify l r = .error e)
    (s : Substitution) : l.instantiate s ≠ r.instantiate s := by
  intro hs
  exact not_unifies_of_unifyAll_error h s (by simpa [Substitution.Unifies] using hs)

/-- Unification of pairs of relations, of two relations and of two terms gives substitutions
that solve the problem, are idempotent and have only its variables, and of which every other
solution is an instance. -/
theorem unification_mostGeneral :
    (∀ (pairs : List (Relation × Relation)) (s : Substitution), unifyAll pairs = .ok s →
      s.MostGeneralSolution (Substitution.Unifies pairs) (pairVars pairs)) ∧
    (∀ (l r : Relation) (s : Substitution), unify l r = .ok s →
      s.MostGeneralSolution (fun t => l.instantiate t = r.instantiate t) (l.vars ++ r.vars)) ∧
    (∀ (l r : Term) (s : Substitution), unifyTerms l r = .ok s →
      s.MostGeneralSolution (fun t => l.instantiate t = r.instantiate t) (l.vars ++ r.vars)) := by
  refine ⟨fun pairs s h => unifyAll_mostGeneralSolution h,
    fun l r s h => unify_mostGeneralSolution h, fun l r s h => ?_⟩
  refine (solve_mostGeneralSolution h).congr (fun t => ?_) ?_
  · simp [Term.instantiate]
  · simp [Equations.vars, Equation.vars]

/-- Two pairs whose solution takes bindings, a turned equation and compared arguments. -/
theorem unification_mostGeneral_pairs :
    let pairs : List (Relation × Relation) :=
      [(⟨"P", [.var "X", .app "f" [.var "X"]]⟩, ⟨"P", [.app "g" [.var "Y"], .var "Z"]⟩),
        (⟨"Q", [.var "Z"]⟩, ⟨"Q", [.app "f" [.var "W"]]⟩)]
    let s : Substitution := .ofList [("W", .app "g" [.var "Y"]), ("X", .app "g" [.var "Y"]),
      ("Z", .app "f" [.app "g" [.var "Y"]])]
    unifyAll pairs = .ok s ∧
      s.MostGeneralSolution (Substitution.Unifies pairs) (pairVars pairs) := by
  intro pairs s
  have h : unifyAll pairs = .ok s := by cbv
  exact ⟨h, unification_mostGeneral.1 pairs s h⟩

/-- Equations that wait for their turn, and the substitution found so far. The equations stand
as they were put in: the substitution is applied to one when its turn comes. -/
structure Worklist where
  /-- The equations in the order of their turns. -/
  queue : List Equation
  /-- The substitution found so far. -/
  found : Substitution

namespace Worklist

/-- What becomes of an equation that is applied already and of the queue behind it: an answer, or
what there is to do next. -/
def compare (l r : Term) (rest : List Equation) (s : Substitution) :
    Except UnifyError Substitution ⊕ Worklist :=
  if l = r then .inr ⟨rest, s⟩
  else
    match l, r with
    | .var x, t =>
      if t.occurs x then .inl (.error (.cyclic x t)) else .inr ⟨rest, s.extend x t⟩
    | .const a, .var x => .inr ⟨rest ++ [(.var x, .const a)], s⟩
    | .app f as, .var x => .inr ⟨rest ++ [(.var x, .app f as)], s⟩
    | .app f as, .app g bs =>
      if f = g ∧ as.length = bs.length then .inr ⟨rest ++ as.zip bs, s⟩
      else .inl (.error (.clash (.app f as) (.app g bs)))
    | l, r => .inl (.error (.clash l r))

section Compare

variable {l r : Term} {rest : List Equation} {s : Substitution}

theorem compare_self : compare l l rest s = .inr ⟨rest, s⟩ := by
  unfold compare
  rw [if_pos rfl]

theorem compare_cyclic {x : String} (hne : Term.var x ≠ r) (h : r.occurs x = true) :
    compare (.var x) r rest s = .inl (.error (.cyclic x r)) := by
  simp only [compare, if_neg hne, if_pos h]

theorem compare_solved {x : String} (hne : Term.var x ≠ r) (h : ¬ r.occurs x = true) :
    compare (.var x) r rest s = .inr ⟨rest, s.extend x r⟩ := by
  simp only [compare, if_neg hne, if_neg h]

theorem compare_turned {x : String} (h : l.isVar = false) :
    compare l (.var x) rest s = .inr ⟨rest ++ [(.var x, l)], s⟩ := by
  cases l with
  | var y => cases h
  | const a => rfl
  | app f as => rfl

theorem compare_args {f : String} {as bs : List Term} (hne : Term.app f as ≠ .app f bs)
    (h : as.length = bs.length) :
    compare (.app f as) (.app f bs) rest s = .inr ⟨rest ++ as.zip bs, s⟩ := by
  simp only [compare, if_neg hne, true_and, if_pos h]

theorem compare_apps_clash {f g : String} {as bs : List Term}
    (h : ¬ (f = g ∧ as.length = bs.length)) :
    compare (.app f as) (.app g bs) rest s = .inl (.error (.clash (.app f as) (.app g bs))) := by
  have hne : Term.app f as ≠ .app g bs := by
    intro he
    obtain ⟨rfl, rfl⟩ := Term.app.inj he
    exact h ⟨rfl, rfl⟩
  simp only [compare, if_neg hne, if_neg h]

theorem compare_clash (hne : l ≠ r) (hl : l.isVar = false) (hr : r.isVar = false)
    (h : ∀ f as g bs, l = .app f as → r = .app g bs → False) :
    compare l r rest s = .inl (.error (.clash l r)) := by
  cases l with
  | var x => cases hl
  | const a =>
    cases r with
    | var x => cases hr
    | const b => simp only [compare, if_neg hne]
    | app g bs => rfl
  | app f as =>
    cases r with
    | var x => cases hr
    | const b => rfl
    | app g bs => exact (h f as g bs rfl rfl).elim

end Compare

/-- One turn of the loop. -/
def turn (w : Worklist) : Except UnifyError Substitution ⊕ Worklist :=
  match w.queue with
  | [] => .inl (.ok w.found)
  | e :: rest => compare (e.1.instantiate w.found) (e.2.instantiate w.found) rest w.found

/-- The answer of the loop, if there is one within a number of turns. -/
def run : Nat → Worklist → Option (Except UnifyError Substitution)
  | 0, _ => none
  | n + 1, w =>
    match w.turn with
    | .inl a => some a
    | .inr w => run n w

/-- The equations that are left, with the substitution applied. -/
def pending (w : Worklist) : List Equation := Equations.bind w.found.apply w.queue

/-- What has just been instantiated holds no bound variable. -/
theorem solved_pending {w : Worklist} (h : w.found.Solved []) :
    w.found.Solved (Equations.vars w.pending) := by
  have hterm : ∀ (t : Term) (y : String), y ∈ (t.bind w.found.apply).vars →
      w.found.get? y = none := by
    intro t y hy
    obtain ⟨x, -, hy⟩ := Term.mem_vars_bind.mp hy
    cases hx : w.found.get? x with
    | none =>
      rw [Substitution.apply_of_get?_eq_none hx] at hy
      obtain rfl : y = x := by simpa [Term.vars] using hy
      exact hx
    | some u =>
      rw [Substitution.apply, hx, Option.getD_some] at hy
      exact h.idempotent x u hx y hy
  refine ⟨fun y hy => ?_, h.idempotent⟩
  simp only [pending, Equations.vars, Equations.bind, List.flatMap_map, List.mem_flatMap,
    Equation.vars, Equation.bind, List.mem_append] at hy
  obtain ⟨e, -, hy | hy⟩ := hy
  · exact hterm e.1 y hy
  · exact hterm e.2 y hy

/-- The first equation that is pending is the first of the queue, instantiated. -/
theorem pending_eq_cons {queue rest : List Equation} {s : Substitution} {l r : Term}
    (h : pending ⟨queue, s⟩ = (l, r) :: rest) :
    ∃ e q, queue = e :: q ∧ pending ⟨q, s⟩ = rest ∧ turn ⟨e :: q, s⟩ = compare l r q s := by
  cases queue with
  | nil => simp [pending, Equations.bind] at h
  | cons e q =>
    simp only [pending, Equations.bind, List.map_cons, List.cons.injEq] at h
    obtain ⟨he, hq⟩ := h
    obtain ⟨hl, hr⟩ := Prod.mk.inj he
    refine ⟨e, q, rfl, hq, ?_⟩
    simp only [turn, Term.instantiate, hl, hr]

/-- Equations put last in the queue are pending as they are, if they hold no bound variable. -/
theorem pending_append {q fs : List Equation} {s : Substitution} {xs : List String}
    (h : s.Solved xs) (hfs : Equations.vars fs ⊆ xs) :
    pending ⟨q ++ fs, s⟩ = pending ⟨q, s⟩ ++ fs := by
  simp only [pending, Equations.bind, List.map_append, List.append_cancel_left_eq]
  refine (List.map_congr_left fun e he => ?_).trans (List.map_id fs)
  have hsub : ∀ t : Term, (∀ y ∈ t.vars, y ∈ e.vars) → t.bind s.apply = t := fun t ht =>
    h.bind_apply fun y hy => hfs (List.mem_flatMap.mpr ⟨e, he, ht y hy⟩)
  exact Prod.ext (hsub e.1 fun y hy => List.mem_append_left _ hy)
    (hsub e.2 fun y hy => List.mem_append_right _ hy)

/-- Extending the substitution replaces the new variable in all that is pending. -/
theorem pending_extend {q : List Equation} {s : Substitution} {x : String} {t : Term}
    (h : s.get? x = none) :
    pending ⟨q, s.extend x t⟩ = Equations.bind (Term.single x t) (pending ⟨q, s⟩) := by
  simp only [pending, Equations.bind, List.map_map]
  refine List.map_congr_left fun e _ => ?_
  simp only [Function.comp, Equation.bind, Term.bind_bind,
    ← funext (Substitution.apply_extend h t)]

/-- An answer given at once is the answer of the loop. -/
theorem exists_run_of_inl {w : Worklist} {a : Except UnifyError Substitution}
    (h : w.turn = .inl a) : ∃ n, w.run n = some a :=
  ⟨1, by rw [run, h]⟩

/-- The loop ends if it ends after one more turn. -/
theorem exists_run_of_inr {w w' : Worklist} {a : Except UnifyError Substitution}
    (h : w.turn = .inr w') (hrun : ∃ n, w'.run n = some a) : ∃ n, w.run n = some a := by
  obtain ⟨n, hn⟩ := hrun
  exact ⟨n + 1, by simp only [run, h, hn]⟩

/-- The loop ends from every worklist with an idempotent substitution, with the answer of
solving the instantiated equations. -/
theorem exists_run_eq_solve (w : Worklist) (h : w.found.Solved []) :
    ∃ n, w.run n = some (solve w.pending w.found) := by
  obtain ⟨queue, s⟩ := w
  generalize hes : pending ⟨queue, s⟩ = es
  have hvars := hes ▸ solved_pending h
  simp only at h hvars ⊢
  -- The recursion of `solve` on what is pending is followed turn by turn in the queue.
  fun_induction solve es s generalizing queue with
  | case1 s =>
    have hq : queue = [] := by simpa [pending, Equations.bind] using hes
    exact exists_run_of_inl (by rw [hq, turn])
  | case2 s r rest ih =>
    obtain ⟨e, q, rfl, hq, hturn⟩ := pending_eq_cons hes
    refine exists_run_of_inr (hturn.trans compare_self) ?_
    exact ih q h hq (hvars.mono Equations.vars_tail_subset)
  | case3 s rest x t hocc hne =>
    obtain ⟨e, q, rfl, hq, hturn⟩ := pending_eq_cons hes
    exact exists_run_of_inl (hturn.trans (compare_cyclic hne hocc))
  | case4 s rest x t hocc hne ih =>
    obtain ⟨e, q, rfl, hq, hturn⟩ := pending_eq_cons hes
    have hn : x ∉ t.vars := by simpa [Term.occurs] using hocc
    have hx : s.get? x = none :=
      hvars.unbound x (Equations.vars_subset_vars_cons.1 (by simp [Term.vars]))
    have hs : (s.extend x t).Solved (Equations.vars (Equations.bind (Term.single x t) rest)) :=
      hvars.extend Equations.vars_subset_vars_cons.2 hn fun y hy =>
        Equations.mem_vars_of_mem_bind_single hn hy
    refine exists_run_of_inr (hturn.trans (compare_solved hne hocc)) ?_
    exact ih q (hs.mono (by simp)) (by rw [pending_extend hx, hq]) hs
  | case5 s rest a x hne ih =>
    obtain ⟨e, q, rfl, hq, hturn⟩ := pending_eq_cons hes
    refine exists_run_of_inr (hturn.trans (compare_turned rfl)) ?_
    have hs := hvars.mono Equations.vars_turn_subset
    exact ih _ h (by rw [pending_append hs Equations.vars_subset_vars_append, hq]) hs
  | case6 s rest f as x hne ih =>
    obtain ⟨e, q, rfl, hq, hturn⟩ := pending_eq_cons hes
    refine exists_run_of_inr (hturn.trans (compare_turned rfl)) ?_
    have hs := hvars.mono Equations.vars_turn_subset
    exact ih _ h (by rw [pending_append hs Equations.vars_subset_vars_append, hq]) hs
  | case7 s rest f as g bs hfg hne ih =>
    obtain ⟨rfl, hlen⟩ := hfg
    obtain ⟨e, q, rfl, hq, hturn⟩ := pending_eq_cons hes
    refine exists_run_of_inr (hturn.trans (compare_args hne hlen)) ?_
    have hs := hvars.mono Equations.vars_args_subset
    exact ih _ h (by rw [pending_append hs Equations.vars_subset_vars_append, hq]) hs
  | case8 s rest f as g bs hfg hne =>
    obtain ⟨e, q, rfl, hq, hturn⟩ := pending_eq_cons hes
    exact exists_run_of_inl (hturn.trans (compare_apps_clash hfg))
  | case9 s rest l r hvar hconst happ happs hne =>
    obtain ⟨e, q, rfl, hq, hturn⟩ := pending_eq_cons hes
    refine exists_run_of_inl (hturn.trans (compare_clash hne ?_ ?_ happs))
    · cases l with
      | var x => exact (hvar x rfl).elim
      | const a => rfl
      | app f as => rfl
    · cases r with
      | var x =>
        cases l with
        | var y => exact (hvar y rfl).elim
        | const a => exact (hconst a x rfl rfl).elim
        | app f as => exact (happ f as x rfl rfl).elim
      | const b => rfl
      | app g bs => rfl

end Worklist

/-- The loop over waiting equations ends on every unification problem, and the problem is refused
exactly if no substitution makes all pairs equal. -/
theorem unifyAll_refuses_iff (pairs : List (Relation × Relation)) :
    (∀ es, argumentEquations pairs = .ok es →
      ∃ n, (Worklist.mk es .empty).run n = some (unifyAll pairs)) ∧
    ((∃ e, unifyAll pairs = .error e ∧ (Error.unification e).kind = "UnificationImpossible") ↔
      ¬ ∃ s : Substitution, s.Unifies pairs) := by
  refine ⟨fun es hes => ?_, ?_, fun hno => ?_⟩
  · have hrun := Worklist.exists_run_eq_solve ⟨es, .empty⟩ (.empty [])
    have hpending : (Worklist.mk es .empty).pending = es :=
      Worklist.pending_append (q := []) (.empty (Equations.vars es)) (List.Subset.refl _)
    rw [hpending] at hrun
    rw [unifyAll, hes]
    exact hrun
  · rintro ⟨e, he, -⟩ ⟨s, hs⟩
    exact not_unifies_of_unifyAll_error he s hs
  · cases h : unifyAll pairs with
    | error e => exact ⟨e, rfl, rfl⟩
    | ok s => exact (hno ⟨s, (unifyAll_mostGeneralSolution h).solution⟩).elim

end Deduction
