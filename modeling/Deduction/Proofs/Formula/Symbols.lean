import Deduction.Proofs.Formula.Meaning
import Mathlib.Data.List.Basic

/-!
# New symbols

Only the meanings of its own symbols count for where a formula holds, so a symbol
that does not occur in it can be given any meaning. Such a symbol can therefore be
made to name, for all values of the free variables at once, an element that makes an
existential formula true.
-/

namespace Deduction

universe u

variable {D : Type u}

/-- Two interpretations that have the same relations and give the same meaning to certain
symbols. -/
structure Interpretation.SameOn (S : String → Prop) (M M' : Interpretation D) : Prop where
  /-- The constants. -/
  const : ∀ a, S a → M'.const a = M.const a
  /-- The functions. -/
  func : ∀ a, S a → M'.func a = M.func a
  /-- The relations. -/
  rel : M'.rel = M.rel

variable {S : String → Prop} {M M' M'' : Interpretation D} {v : String → D}

namespace Interpretation.SameOn

theorem refl (S : String → Prop) (M : Interpretation D) : SameOn S M M :=
  ⟨fun _ _ => rfl, fun _ _ => rfl, rfl⟩

theorem trans (h : SameOn S M M') (h' : SameOn S M' M'') : SameOn S M M'' where
  const a ha := (h'.const a ha).trans (h.const a ha)
  func a ha := (h'.func a ha).trans (h.func a ha)
  rel := h'.rel.trans h.rel

theorem mono {T : String → Prop} (h : SameOn S M M') (hT : ∀ a, T a → S a) : SameOn T M M' where
  const a ha := h.const a (hT a ha)
  func a ha := h.func a (hT a ha)
  rel := h.rel

/-- Only the meanings of the symbols in a term count. -/
theorem value_eq (h : SameOn S M M') {t : Term} (ht : ∀ a ∈ t.symbols, S a) :
    t.value M' v = t.value M v := by
  induction t using Term.induction with
  | var x => rfl
  | const a => exact h.const a (ht a (by simp [Term.symbols]))
  | app f args ih =>
    rw [Term.symbols, Term.symbolsList_eq_flatMap] at ht
    obtain ⟨hf, hargs⟩ := List.forall_mem_cons.mp ht
    simp only [Term.value, Term.valueList_eq_map]
    rw [h.func f hf]
    refine congrArg (M.func f) (List.map_congr_left fun t ht => ih t ht fun a ha => ?_)
    exact hargs a (List.mem_flatMap.mpr ⟨t, ht, ha⟩)

/-- Only the meanings of the symbols in a relation count. -/
theorem relation_holds_iff (h : SameOn S M M') {r : Relation} (hr : ∀ a ∈ r.symbols, S a) :
    r.Holds M' v ↔ r.Holds M v := by
  have hargs : Term.valueList M' v r.args = Term.valueList M v r.args := by
    simp only [Term.valueList_eq_map]
    refine List.map_congr_left fun t ht => h.value_eq fun a ha => hr a ?_
    rw [Relation.symbols, Term.symbolsList_eq_flatMap]
    exact List.mem_flatMap.mpr ⟨t, ht, ha⟩
  rw [Relation.Holds, Relation.Holds, hargs, h.rel]

end Interpretation.SameOn

namespace Formula

theorem symbols_apply (k : Connective) (f g : Formula) :
    (k.apply f g).symbols = f.symbols ++ g.symbols := by
  cases k <;> rfl

theorem symbols_quantify (universal : Bool) (x : String) (f : Formula) :
    (quantify universal x f).symbols = f.symbols := by
  cases universal <;> rfl

end Formula

/-- Only the meanings of the symbols in a formula count. -/
theorem Interpretation.SameOn.holds_iff (h : SameOn S M M') {f : Formula}
    (hf : ∀ a ∈ f.symbols, S a) : f.Holds M' v ↔ f.Holds M v := by
  induction f using Formula.shapeInduction generalizing v with
  | var name => exact iff_of_eq (congrFun (congrFun h.rel name) [])
  | rel r => exact h.relation_holds_iff hf
  | not f ih => exact not_congr (ih hf)
  | connective k f g ihf ihg =>
    rw [Formula.symbols_apply] at hf
    obtain ⟨hleft, hright⟩ := List.forall_mem_append.mp hf
    rw [Formula.holds_apply, Formula.holds_apply]
    exact k.joins_congr (ihf hleft) (ihg hright)
  | quantifier universal x f ih =>
    rw [Formula.symbols_quantify] at hf
    rw [Formula.holds_quantify, Formula.holds_quantify]
    exact Formula.quantifies_congr universal fun d => ih hf

/-- The symbols of an instance are those of the term and of what is put in. -/
theorem Term.forall_symbols_bind {σ : String → Term} {t : Term} (ht : ∀ a ∈ t.symbols, S a)
    (hσ : ∀ x ∈ t.vars, ∀ a ∈ (σ x).symbols, S a) : ∀ a ∈ (t.bind σ).symbols, S a := by
  induction t using Term.induction with
  | var x => exact hσ x (by simp [vars])
  | const b => exact ht
  | app f args ih =>
    rw [symbols, symbolsList_eq_flatMap] at ht
    rw [vars, varsList_eq_flatMap] at hσ
    obtain ⟨hf, hargs⟩ := List.forall_mem_cons.mp ht
    rw [bind, bindList_eq_map, symbols, symbolsList_eq_flatMap, List.flatMap_map]
    refine List.forall_mem_cons.mpr ⟨hf, fun a ha => ?_⟩
    obtain ⟨t, ht, ha⟩ := List.mem_flatMap.mp ha
    refine ih t ht (fun b hb => hargs b (List.mem_flatMap.mpr ⟨t, ht, hb⟩)) (fun x hx => ?_) a ha
    exact hσ x (List.mem_flatMap.mpr ⟨t, ht, hx⟩)

/-- The symbols of an instance are those of the relation and of what is put in. -/
theorem Relation.forall_symbols_bind {σ : String → Term} {r : Relation}
    (hr : ∀ a ∈ r.symbols, S a) (hσ : ∀ x ∈ r.vars, ∀ a ∈ (σ x).symbols, S a) :
    ∀ a ∈ (r.bind σ).symbols, S a := by
  rw [symbols, Term.symbolsList_eq_flatMap] at hr
  rw [vars, Term.varsList_eq_flatMap] at hσ
  rw [symbols, bind, Term.bindList_eq_map, Term.symbolsList_eq_flatMap, List.flatMap_map]
  intro a ha
  obtain ⟨t, ht, ha⟩ := List.mem_flatMap.mp ha
  refine Term.forall_symbols_bind (fun b hb => hr b (List.mem_flatMap.mpr ⟨t, ht, hb⟩))
    (fun x hx => ?_) a ha
  exact hσ x (List.mem_flatMap.mpr ⟨t, ht, hx⟩)

/-- The interpretation in which one symbol has another meaning. As a constant it stands for the
value at no arguments. -/
def Interpretation.withSymbol (M : Interpretation D) (name : String) (F : List D → D) :
    Interpretation D where
  const := Function.update M.const name (F [])
  func := Function.update M.func name F
  rel := M.rel

variable {name : String} {F : List D → D}

theorem Interpretation.sameOn_withSymbol (M : Interpretation D) (name : String)
    (F : List D → D) : SameOn (· ≠ name) M (M.withSymbol name F) where
  const _ ha := Function.update_of_ne ha _ _
  func _ ha := Function.update_of_ne ha _ _
  rel := rfl

namespace Term

/-- The term of a symbol over some variables, a constant if there are none. -/
def skolem (symbol : String) (xs : List String) : Term :=
  if xs.isEmpty then .const symbol else .app symbol (xs.map .var)

theorem mem_vars_skolem {symbol y : String} {xs : List String} :
    y ∈ (skolem symbol xs).vars ↔ y ∈ xs := by
  cases xs with
  | nil => simp [skolem, vars]
  | cons x xs => simp [skolem, vars, varsList_eq_flatMap, List.flatMap_map]

theorem symbols_skolem (symbol : String) (xs : List String) :
    (skolem symbol xs).symbols = [symbol] := by
  cases xs with
  | nil => rfl
  | cons x xs => simp [skolem, symbols, symbolsList_eq_flatMap, List.flatMap_map]

/-- A new symbol over variables has the value that its meaning gives, also where there are none
and it stands as a constant. -/
theorem value_skolem (xs : List String) :
    (skolem name xs).value (M.withSymbol name F) v = F (xs.map v) := by
  cases xs with
  | nil => exact Function.update_self name (F []) M.const
  | cons x xs =>
    simp only [skolem, List.isEmpty_cons, Bool.false_eq_true, if_false, value, valueList_eq_map,
      List.map_map, Interpretation.withSymbol, Function.update_self]
    exact congrArg F (List.map_congr_left fun y _ => rfl)

end Term

namespace Formula

/-- A formula without a symbol holds whatever the symbol means. -/
theorem holds_withSymbol {f : Formula} (h : name ∉ f.symbols) :
    f.Holds (M.withSymbol name F) v ↔ f.Holds M v :=
  (M.sameOn_withSymbol name F).holds_iff fun _ ha hname => h (hname ▸ ha)

/-- Elements that exist depending on the values of some variables are the values of a function of
these. -/
theorem exists_choice [Nonempty D] (xs : List String) {P : (String → D) → D → Prop}
    (h : ∀ v w d, (∀ x ∈ xs, v x = w x) → P v d → P w d) :
    ∃ F : List D → D, ∀ v, (∃ d, P v d) → P v (F (xs.map v)) := by
  let chosen (ds : List D) (d : D) : Prop := ∃ w, xs.map w = ds ∧ P w d
  refine ⟨fun ds => Classical.epsilon (chosen ds), fun v ⟨d, hd⟩ => ?_⟩
  obtain ⟨w, hw, hchosen⟩ := Classical.epsilon_spec (p := chosen _) ⟨d, v, rfl, hd⟩
  -- The chosen element works for another assignment, which agrees on all these variables.
  exact h w v _ (fun x hx => List.map_inj_left.mp hw x hx) hchosen

/-- The values of the free variables determine an element that makes an existential formula true,
if one does. -/
theorem exists_witness [Nonempty D] (M : Interpretation D) (x : String) (body : Formula) :
    ∃ F : List D → D, ∀ v, (ex x body).Holds M v →
      body.Holds M (Function.update v x (F ((ex x body).freeVars.map v))) := by
  refine exists_choice _ (P := fun v d => body.Holds M (Function.update v x d)) fun v w d hvw => ?_
  refine (holds_congr M fun y hy => update_congr d fun hyx => ?_).mp
  exact hvw y (mem_freeVars.mpr ⟨hyx, hy⟩)

end Formula

end Deduction
