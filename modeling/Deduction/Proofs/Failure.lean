import Deduction.Proofs.Outcome

/-!
# Taking failed computations apart

A computation fails where one of its parts does. The errors that a move may end in are
told apart by what they say: that a reference leads nowhere is none of them, a counter
may be full only on a condition, and what is refused must be so.
-/

namespace Deduction

/-- The errors that a move may end in, where counters are full only on a condition and moves are
refused for certain causes only. A broken reference is none of them. -/
def Error.Allowed (full : Prop) (cause : IllegalMove → Prop) : Error → Prop
  | .brokenState => False
  | .counterFull => full
  | .move refusal => cause refusal
  | _ => True

theorem Error.Allowed.mono {full full' : Prop} {cause cause' : IllegalMove → Prop} {e : Error}
    (h : e.Allowed full cause) (hfull : full → full') (hcause : ∀ c, cause c → cause' c) :
    e.Allowed full' cause' := by
  cases e with
  | brokenState => exact h
  | counterFull => exact hfull h
  | move c => exact hcause c h
  | text _ | conversion _ | unification _ | document _ => trivial

namespace Outcome

variable {α β : Type} {P : Error → Prop}

/-- Whether a computation ends in no errors but those with a property. -/
def FailsOnly (P : Error → Prop) (x : Outcome α) : Prop := ∀ e, x = .error e → P e

namespace FailsOnly

variable {x : Outcome α} {f : α → Outcome β}

theorem ok (a : α) : FailsOnly P (.ok a) := fun _ h => by cases h

theorem of_eq_ok (h : ∃ a, x = .ok a) : FailsOnly P x := by
  obtain ⟨a, rfl⟩ := h
  exact ok a

theorem error {e : Error} (h : P e) : FailsOnly P (.error e : Outcome α) := by
  intro e' he'
  cases he'
  exact h

theorem mono {Q : Error → Prop} (h : FailsOnly P x) (hPQ : ∀ e, P e → Q e) : FailsOnly Q x :=
  fun e he => hPQ e (h e he)

/-- What follows a part need not be looked at unless the part succeeds. -/
theorem bind (hx : FailsOnly P x) (hf : ∀ a, x = .ok a → FailsOnly P (f a)) :
    FailsOnly P (x >>= f) := by
  cases x with
  | error e => exact error (hx e rfl)
  | ok a => exact hf a rfl

/-- A part that succeeds does not count. -/
theorem bind_ok {a : α} (hx : x = .ok a) (hf : FailsOnly P (f a)) : FailsOnly P (x >>= f) := by
  rw [hx]
  exact hf

theorem ite {p : Prop} [Decidable p] {y : Outcome α} (hx : p → FailsOnly P x)
    (hy : ¬ p → FailsOnly P y) : FailsOnly P (if p then x else y) := by
  split
  next h => exact hx h
  next h => exact hy h

/-- A check that ends in an error if it fails. -/
theorem guard {p : Prop} [Decidable p] {e : Error} {k : α → Outcome β} {y : Outcome β} (he : P e)
    (hy : ¬ p → FailsOnly P y) :
    FailsOnly P (if p then (.error e : Outcome α) >>= k else y) :=
  ite (fun _ => error he) hy

/-- A check that is made on a condition. -/
theorem check {p : Prop} [Decidable p] {y : Outcome β} (hx : p → FailsOnly P x)
    (hy : FailsOnly P y) : FailsOnly P (if p then x >>= fun _ => y else y) :=
  ite (fun hp => (hx hp).bind fun _ _ => hy) fun _ => hy

theorem ofText {x : Except TextError α} (h : ∀ e, P (.text e)) :
    FailsOnly P (Outcome.ofText x) := by
  cases x with
  | error e => exact error (h e)
  | ok a => exact ok a

/-- A look-up fails where there is nothing, for the cause that is given. -/
theorem ofLookup {cause : IllegalMove} {x : Option α} (h : x = none → P (.move cause)) :
    FailsOnly P (Outcome.ofLookup cause x) := by
  cases x with
  | none => exact error (h rfl)
  | some a => exact ok a

theorem mapM {g : α → Outcome β} {xs : List α} (h : ∀ x ∈ xs, FailsOnly P (g x)) :
    FailsOnly P (xs.mapM g) := by
  induction xs with
  | nil => exact ok []
  | cons x xs ih =>
    rw [List.mapM_cons]
    refine bind (h x List.mem_cons_self) fun b _ => ?_
    exact bind (ih fun y hy => h y (List.mem_cons_of_mem x hy)) fun bs _ => ok _

end FailsOnly

end Outcome

end Deduction
