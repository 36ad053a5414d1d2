import Deduction.Error

/-!
# Taking successful computations apart

A computation that succeeds has passed all its checks, and each of its parts has
succeeded.
-/

namespace Deduction.Outcome

variable {α β ε : Type}

@[simp] theorem bind_eq_ok {x : Except ε α} {f : α → Except ε β} {b : β} :
    (x >>= f) = .ok b ↔ ∃ a, x = .ok a ∧ f a = .ok b := by
  cases x with
  | error e => simp [bind, Except.bind]
  | ok a => simp [bind, Except.bind]

theorem ok_bind (a : α) (f : α → Outcome β) : ((.ok a : Outcome α) >>= f) = f a := rfl

@[simp] theorem pure_eq_ok {a b : α} : (pure a : Except ε α) = .ok b ↔ a = b := by
  simp [pure, Except.pure]

@[simp] theorem ofText_eq_ok {x : Except TextError α} {a : α} : ofText x = .ok a ↔ x = .ok a := by
  cases x <;> simp [ofText]

@[simp] theorem ofConversion_eq_ok {x : Except ConversionError α} {a : α} :
    ofConversion x = .ok a ↔ x = .ok a := by
  cases x <;> simp [ofConversion]

@[simp] theorem ofReference_eq_ok {x : Option α} {a : α} : ofReference x = .ok a ↔ x = some a := by
  cases x <;> simp [ofReference]

@[simp] theorem ofLookup_eq_ok {cause : IllegalMove} {x : Option α} {a : α} :
    ofLookup cause x = .ok a ↔ x = some a := by
  cases x <;> simp [ofLookup]

theorem ofCount_eq_ok {m n : Nat} : ofCount m = .ok n ↔ m < UInt64.size ∧ m = n := by
  rw [ofCount]
  split
  next hlt => simp [hlt]
  next hfull => simp [hfull]

theorem eq_of_ofCount {m n : Nat} (h : ofCount m = .ok n) : m = n := (ofCount_eq_ok.mp h).2

/-- A check that ends in an error if it fails has been passed. -/
@[simp] theorem guard_eq_ok {p : Prop} [Decidable p] {e : Error} {k : α → Outcome β}
    {x : Outcome β} {b : β} :
    (if p then (.error e : Outcome α) >>= k else x) = .ok b ↔ ¬ p ∧ x = .ok b := by
  split <;> simp_all

/-- So has one at the end. -/
@[simp] theorem lastGuard_eq_ok {p : Prop} [Decidable p] {e : Error} {x : Outcome β} {b : β} :
    (if p then .error e else x) = .ok b ↔ ¬ p ∧ x = .ok b := by
  split <;> simp_all

/-- A result with a value after two steps comes from results of both. -/
theorem exists_of_toOption {x : Outcome α} {f : α → Outcome β} {g : β → γ} {c : γ}
    (h : (x >>= f).toOption.map g = some c) : ∃ a b, x = .ok a ∧ f a = .ok b ∧ g b = c := by
  obtain ⟨b, hb, rfl⟩ := Option.map_eq_some_iff.mp h
  cases hx : x >>= f with
  | error e =>
    rw [hx] at hb
    cases hb
  | ok b' =>
    rw [hx] at hb
    cases hb
    obtain ⟨a, ha, hfa⟩ := bind_eq_ok.mp hx
    exact ⟨a, b, ha, hfa, rfl⟩

/-- A check that is made on a condition has been passed where the condition holds. -/
theorem check_eq_ok {p : Prop} [Decidable p] {x : Outcome α} {k : Outcome β} {b : β} :
    (if p then x >>= fun _ => k else k) = .ok b ↔ (p → ∃ a, x = .ok a) ∧ k = .ok b := by
  split <;> simp_all

/-- The results of a list of computations are those of its members. -/
theorem exists_of_mem_mapM {f : α → Except ε β} {xs : List α} {ys : List β}
    (h : xs.mapM f = .ok ys) {y : β} (hy : y ∈ ys) : ∃ x ∈ xs, f x = .ok y := by
  induction xs generalizing ys with
  | nil =>
    rw [List.mapM_nil, pure_eq_ok] at h
    rw [← h] at hy
    cases hy
  | cons x xs ih =>
    simp only [List.mapM_cons, bind_eq_ok, pure_eq_ok] at h
    obtain ⟨b, hb, bs, hbs, rfl⟩ := h
    rcases List.mem_cons.mp hy with rfl | hy
    · exact ⟨x, List.mem_cons_self, hb⟩
    · obtain ⟨x', hx', hfx⟩ := ih hbs hy
      exact ⟨x', List.mem_cons_of_mem _ hx', hfx⟩

/-- In a list of computations that succeed every one does. -/
theorem exists_of_mapM_eq_ok {f : α → Outcome β} {xs : List α} {ys : List β}
    (h : xs.mapM f = .ok ys) {x : α} (hx : x ∈ xs) : ∃ y, f x = .ok y := by
  induction xs generalizing ys with
  | nil => cases hx
  | cons x' xs ih =>
    simp only [List.mapM_cons, bind_eq_ok, pure_eq_ok] at h
    obtain ⟨b, hb, bs, hbs, rfl⟩ := h
    rcases List.mem_cons.mp hx with rfl | hx
    · exact ⟨b, hb⟩
    · exact ih hbs hx

/-- A list of computations of which every one succeeds does so itself. -/
theorem exists_mapM_eq_ok {f : α → Outcome β} {xs : List α} (h : ∀ x ∈ xs, ∃ y, f x = .ok y) :
    ∃ ys, xs.mapM f = .ok ys := by
  induction xs with
  | nil => exact ⟨[], rfl⟩
  | cons x xs ih =>
    obtain ⟨y, hy⟩ := h x List.mem_cons_self
    obtain ⟨ys, hys⟩ := ih fun z hz => h z (List.mem_cons_of_mem x hz)
    exact ⟨y :: ys, by rw [List.mapM_cons, hy, ok_bind, hys, ok_bind]; rfl⟩

/-- A list of computations that undo what was done to a list gives the list back. -/
theorem mapM_map_eq_ok {f : β → Except ε α} {g : α → β} {xs : List α}
    (h : ∀ x ∈ xs, f (g x) = .ok x) : (xs.map g).mapM f = .ok xs := by
  induction xs with
  | nil => rfl
  | cons x xs ih =>
    obtain ⟨hx, hxs⟩ := List.forall_mem_cons.mp h
    rw [List.map_cons, List.mapM_cons, hx, ih hxs]
    rfl

/-- A list of computations succeeds where another one does, if each of them gives a part of what
the other gives. -/
theorem mapM_eq_ok_map {γ : Type} {f : α → Except ε β} {g : α → Except ε γ} {part : β → γ}
    {xs : List α} {ys : List β} (h : xs.mapM f = .ok ys)
    (hpart : ∀ x y, f x = .ok y → g x = .ok (part y)) : xs.mapM g = .ok (ys.map part) := by
  induction xs generalizing ys with
  | nil =>
    rw [List.mapM_nil, pure_eq_ok] at h
    rw [← h]
    rfl
  | cons x xs ih =>
    simp only [List.mapM_cons, bind_eq_ok, pure_eq_ok] at h
    obtain ⟨y, hy, ys, hys, rfl⟩ := h
    rw [List.mapM_cons, hpart x y hy, ih hys]
    rfl

/-- What every accepted step keeps is kept by a whole run of accepted steps. -/
theorem foldlM_induction {f : β → α → Outcome β} {motive : β → Prop} {xs : List α} {b b' : β}
    (h : xs.foldlM f b = .ok b') (start : motive b)
    (step : ∀ x ∈ xs, ∀ c c', f c x = .ok c' → motive c → motive c') : motive b' := by
  induction xs generalizing b with
  | nil =>
    rw [List.foldlM_nil, pure_eq_ok] at h
    exact h ▸ start
  | cons x xs ih =>
    rw [List.foldlM_cons, bind_eq_ok] at h
    obtain ⟨c, hc, hrest⟩ := h
    exact ih hrest (step x List.mem_cons_self b c hc start) fun y hy =>
      step y (List.mem_cons_of_mem _ hy)

/-- What holds of every step of a run holds of the first step and of every later one. -/
theorem forall_steps_cons {f : β → α → Outcome β} {P : β → α → Prop} {x : α} {xs : List α}
    {b c : β} (h : f b x = .ok c) :
    (∀ earlier y later d, x :: xs = earlier ++ y :: later → earlier.foldlM f b = .ok d → P d y) ↔
      P b x ∧ ∀ earlier y later d, xs = earlier ++ y :: later → earlier.foldlM f c = .ok d →
        P d y := by
  constructor
  · refine fun hall => ⟨hall [] x xs b rfl rfl, fun earlier y later d heq hrun => ?_⟩
    refine hall (x :: earlier) y later d (by rw [heq, List.cons_append]) ?_
    rw [List.foldlM_cons, h]
    exact hrun
  · rintro ⟨hfirst, hrest⟩ earlier y later d heq hrun
    cases earlier with
    | nil =>
      cases heq
      cases hrun
      exact hfirst
    | cons z earlier =>
      cases heq
      rw [List.foldlM_cons, h] at hrun
      exact hrest earlier y later d rfl hrun

/-- A run of accepted steps is one of other steps that are the same where they are accepted. -/
theorem foldlM_mono {f g : β → α → Outcome β} (hfg : ∀ b x b', f b x = .ok b' → g b x = .ok b')
    {xs : List α} {b b' : β} (h : xs.foldlM f b = .ok b') : xs.foldlM g b = .ok b' := by
  induction xs generalizing b with
  | nil => exact h
  | cons x xs ih =>
    rw [List.foldlM_cons, bind_eq_ok] at h ⊢
    obtain ⟨c, hc, hrest⟩ := h
    exact ⟨c, hfg b x c hc, ih hrest⟩

end Deduction.Outcome
