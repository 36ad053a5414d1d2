import Deduction.Formula.Skolem
import Deduction.Proofs.Formula.Capture
import Deduction.Proofs.Formula.Symbols
import Deduction.Proofs.Valuation

/-!
# How Skolem forms arise

A Skolem form is built along the negation normal form of the formula in which
equivalences have been written out: connectives stay, a universal quantifier leaves a
variable and an existential one a Skolem term. This is a relation between normal forms,
the forms built from them and the names handed out before and after, and whatever is
said of all Skolem forms is proved by induction over it. The form has no quantifiers,
its atoms are instances of those of the formula, and its symbols are symbols of the
formula or among the numbered ones that have been handed out.
-/

namespace Deduction.Formula

universe u

/-- The formula with its equivalences written out: both parts hold, or neither does. -/
def expandIff : Formula → Formula
  | var name => var name
  | rel r => rel r
  | not f => not f.expandIff
  | and f g => and f.expandIff g.expandIff
  | or f g => or f.expandIff g.expandIff
  | imp f g => imp f.expandIff g.expandIff
  | iff f g => or (and f.expandIff g.expandIff) (and (not f.expandIff) (not g.expandIff))
  | all x f => all x f.expandIff
  | ex x f => ex x f.expandIff

theorem holds_expandIff {D : Type u} (M : Interpretation D) (v : String → D) (f : Formula) :
    f.expandIff.Holds M v ↔ f.Holds M v := by
  induction f generalizing v with
  | var name => rfl
  | rel r => rfl
  | not f ih => exact not_congr (ih v)
  | and f g ihf ihg => exact and_congr (ihf v) (ihg v)
  | or f g ihf ihg => exact or_congr (ihf v) (ihg v)
  | imp f g ihf ihg => exact imp_congr (ihf v) (ihg v)
  | iff f g ihf ihg =>
    simp only [expandIff, Holds, ihf, ihg]
    exact iff_iff_and_or_not_and_not.symm
  | all x f ih => exact forall_congr' fun d => ih _
  | ex x f ih => exact exists_congr fun d => ih _

theorem free_expandIff {x : String} {f : Formula} : f.expandIff.Free x ↔ f.Free x := by
  induction f with
  | var name => rfl
  | rel r => rfl
  | not f ih => exact ih
  | and f g ihf ihg | or f g ihf ihg | imp f g ihf ihg => exact or_congr ihf ihg
  | iff f g ihf ihg => simp only [expandIff, Free, ihf, ihg, or_self]
  | all y f ih | ex y f ih => exact and_congr_right fun _ => ih

theorem mem_binders_expandIff {x : String} {f : Formula} :
    x ∈ f.expandIff.binders ↔ x ∈ f.binders := by
  induction f with
  | var name => rfl
  | rel r => rfl
  | not f ih => exact ih
  | and f g ihf ihg | or f g ihf ihg | imp f g ihf ihg | iff f g ihf ihg =>
    simp only [expandIff, binders, List.mem_append, ihf, ihg, or_self]
  | all y f ih | ex y f ih => simp only [expandIff, binders, List.mem_cons, ih]

theorem mem_atoms_expandIff {a f : Formula} : a ∈ f.expandIff.atoms ↔ a ∈ f.atoms := by
  induction f with
  | var name => rfl
  | rel r => rfl
  | not f ih => exact ih
  | and f g ihf ihg | or f g ihf ihg | imp f g ihf ihg | iff f g ihf ihg =>
    simp only [expandIff, atoms, List.mem_append, ihf, ihg, or_self]
  | all y f ih | ex y f ih => exact ih

theorem mem_atoms_normalize {sign : Bool} {a f : Formula} :
    a ∈ (f.normalize sign).atoms ↔ a ∈ f.atoms := by
  induction f generalizing sign with
  | var name => cases sign <;> rfl
  | rel r => cases sign <;> rfl
  | not f ih => exact ih
  | and f g ihf ihg | or f g ihf ihg | imp f g ihf ihg =>
    cases sign <;> simp [normalize, atoms, ihf, ihg]
  | iff f g ihf ihg => simp only [normalize, atoms, List.mem_append, ihf, ihg, or_self]
  | all y f ih | ex y f ih => cases sign <;> simp [normalize, atoms, ih]

/-- The symbols of a formula are those of its atoms. -/
theorem mem_symbols {s : String} {f : Formula} :
    s ∈ f.symbols ↔ ∃ a ∈ f.atoms, s ∈ a.symbols := by
  induction f using shapeInduction with
  | var name => simp [atoms]
  | rel r => simp [atoms]
  | not f ih => exact ih
  | connective k f g ihf ihg =>
    simp only [symbols_apply, atoms_apply, List.mem_append, ihf, ihg, or_and_right, exists_or]
  | quantifier universal x f ih => rw [symbols_quantify, atoms_quantify, ih]

/-- The negation normal form without equivalences, of which the Skolem form is taken. -/
def writtenOut (f : Formula) : Formula := f.expandIff.normalize true

section WrittenOut

variable {f : Formula}

theorem holds_writtenOut {D : Type u} (M : Interpretation D) (v : String → D) (f : Formula) :
    f.writtenOut.Holds M v ↔ f.Holds M v :=
  (holds_negationNormal M v f.expandIff).trans (holds_expandIff M v f)

theorem free_writtenOut {x : String} : f.writtenOut.Free x ↔ f.Free x :=
  free_normalize.trans free_expandIff

theorem mem_binders_writtenOut {x : String} : x ∈ f.writtenOut.binders ↔ x ∈ f.binders :=
  mem_binders_normalize.trans mem_binders_expandIff

theorem mem_atoms_writtenOut {a : Formula} : a ∈ f.writtenOut.atoms ↔ a ∈ f.atoms :=
  mem_atoms_normalize.trans mem_atoms_expandIff

theorem mem_symbols_writtenOut {s : String} : s ∈ f.writtenOut.symbols ↔ s ∈ f.symbols := by
  rw [mem_symbols, mem_symbols (f := f)]
  exact exists_congr fun a => and_congr_left fun _ => mem_atoms_writtenOut

end WrittenOut

/-- The Skolem symbol with a number. -/
def skolemSymbol (n : Nat) : String := "sk" ++ Decimal.render n

/-- The number of existential quantifiers in a formula. -/
def exCount : Formula → Nat
  | var _ => 0
  | rel _ => 0
  | not f => f.exCount
  | and f g => f.exCount + g.exCount
  | or f g => f.exCount + g.exCount
  | imp f g => f.exCount + g.exCount
  | iff f g => f.exCount + g.exCount
  | all _ f => f.exCount
  | ex _ f => f.exCount + 1

/-- The Skolem symbols of a formula, one for each quantifier that is existential at its place when
equivalences have been written out. -/
def skolemSymbols (f : Formula) : List String :=
  (List.range' 1 f.writtenOut.exCount).map skolemSymbol

theorem mem_skolemSymbols {f : Formula} {a : String} :
    a ∈ f.skolemSymbols ↔ ∃ k, 0 < k ∧ k ≤ f.writtenOut.exCount ∧ a = skolemSymbol k := by
  simp only [skolemSymbols, List.mem_map, List.mem_range'_1]
  constructor
  · rintro ⟨k, ⟨hpos, hlt⟩, rfl⟩
    exact ⟨k, hpos, by omega, rfl⟩
  · rintro ⟨k, hpos, hle, rfl⟩
    exact ⟨k, ⟨hpos, by omega⟩, rfl⟩

/-- The name of a universal variable after a number of earlier quantifiers over it. -/
def universalName (x : String) : Nat → String
  | 0 => x
  | n + 1 => x ++ "_" ++ Decimal.render (n + 1)

/-- The names handed out after one more universal quantifier. -/
def SkolemNames.bindUniversal (names : SkolemNames) (x : String) : SkolemNames :=
  { names with universal := x :: names.universal }

/-- The names handed out after one more existential quantifier. -/
def SkolemNames.bindSymbol (names : SkolemNames) : SkolemNames :=
  { names with symbolCount := names.symbolCount + 1 }

private theorem run_nameUniversal (x : String) (names : SkolemNames) :
    (nameUniversal x).run names =
      (universalName x (names.universal.count x), names.bindUniversal x) := by
  cases hcount : names.universal.count x <;>
    simp only [nameUniversal, universalName, hcount, StateT.run_bind, StateT.run_get,
      StateT.run_set, pure_bind] <;>
    rfl

private theorem run_skolemTerm (scope : List String) (names : SkolemNames) :
    (skolemTerm scope).run names =
      (.skolem (skolemSymbol (names.symbolCount + 1)) scope, names.bindSymbol) := by
  cases scope <;> rfl

/-- Whether the Skolem form of a formula in negation normal form without equivalences is taken,
under the universal variables `scope` and the replacements `env` of the quantifiers around it, with
the names handed out before and after. -/
inductive Skolemizes :
    List String → (String → Term) → SkolemNames → Formula → Formula → SkolemNames → Prop
  | var {scope env names} (sign : Bool) (name : String) :
      Skolemizes scope env names (signed sign (.var name)) (signed sign (.var name)) names
  | rel {scope env names} (sign : Bool) (r : Relation) :
      Skolemizes scope env names (signed sign (.rel r)) (signed sign (.rel (r.bind env))) names
  | and {scope env names names₁ names₂ f g p q} (hf : Skolemizes scope env names f p names₁)
      (hg : Skolemizes scope env names₁ g q names₂) :
      Skolemizes scope env names (.and f g) (.and p q) names₂
  | or {scope env names names₁ names₂ f g p q} (hf : Skolemizes scope env names f p names₁)
      (hg : Skolemizes scope env names₁ g q names₂) :
      Skolemizes scope env names (.or f g) (.or p q) names₂
  | all {scope env names names' f p} (x : String)
      (hf : Skolemizes (scope ++ [universalName x (names.universal.count x)])
        (extendEnv env x (.var (universalName x (names.universal.count x))))
        (names.bindUniversal x) f p names') :
      Skolemizes scope env names (.all x f) p names'
  | ex {scope env names names' f p} (x : String)
      (hf : Skolemizes scope
        (extendEnv env x (.skolem (skolemSymbol (names.symbolCount + 1)) scope)) names.bindSymbol
        f p names') :
      Skolemizes scope env names (.ex x f) p names'

/-- Whether a computation takes Skolem forms of a formula, whatever names have been handed out. -/
def Takes (c : StateM SkolemNames Formula) (scope : List String) (env : String → Term)
    (f : Formula) : Prop :=
  ∀ names, Skolemizes scope env names f (c.run names).1 (c.run names).2

section Takes

variable {scope : List String} {env : String → Term} {f g : Formula} {sign : Bool}

/-- A quantifier that is universal at its place leaves a variable. -/
theorem Takes.universal (h : ∀ scope env, Takes (f.skolemWith sign scope env) scope env g)
    (x : String) :
    Takes (do
      let name ← nameUniversal x
      f.skolemWith sign (scope ++ [name]) (extendEnv env x (.var name))) scope env (.all x g) := by
  intro names
  rw [StateT.run_bind, run_nameUniversal]
  exact .all x (h _ _ _)

/-- A quantifier that is existential at its place leaves a Skolem term. -/
theorem Takes.existential (h : ∀ scope env, Takes (f.skolemWith sign scope env) scope env g)
    (x : String) :
    Takes (do
      let t ← skolemTerm scope
      f.skolemWith sign scope (extendEnv env x t)) scope env (.ex x g) := by
  intro names
  rw [StateT.run_bind, run_skolemTerm]
  exact .ex x (h _ _ _)

end Takes

/-- Skolem forms are taken of the normal form without equivalences. -/
theorem takes_skolemWith (sign : Bool) (f : Formula) (scope : List String)
    (env : String → Term) :
    Takes (f.skolemWith sign scope env) scope env (f.expandIff.normalize sign) := by
  induction f generalizing sign scope env with
  | var name => exact fun _ => .var sign name
  | rel r => exact fun _ => .rel sign r
  | not f ih => exact ih (!sign) scope env
  | and f g ihf ihg =>
    cases sign with
    | true => exact fun _ => .and (ihf true scope env _) (ihg true scope env _)
    | false => exact fun _ => .or (ihf false scope env _) (ihg false scope env _)
  | or f g ihf ihg =>
    cases sign with
    | true => exact fun _ => .or (ihf true scope env _) (ihg true scope env _)
    | false => exact fun _ => .and (ihf false scope env _) (ihg false scope env _)
  | imp f g ihf ihg =>
    cases sign with
    | true => exact fun _ => .or (ihf false scope env _) (ihg true scope env _)
    | false => exact fun _ => .and (ihf true scope env _) (ihg false scope env _)
  | iff f g ihf ihg =>
    cases sign with
    | true =>
      exact fun _ => .or (.and (ihf true scope env _) (ihg true scope env _))
        (.and (ihf false scope env _) (ihg false scope env _))
    | false =>
      exact fun _ => .and (.or (ihf false scope env _) (ihg false scope env _))
        (.or (ihf true scope env _) (ihg true scope env _))
  | all x f ih =>
    cases sign with
    | true => exact .universal (ih true) x
    | false => exact .existential (ih false) x
  | ex x f ih =>
    cases sign with
    | true => exact .existential (ih true) x
    | false => exact .universal (ih false) x

/-- The Skolem form of a whole formula. -/
theorem exists_skolemizes (f : Formula) :
    ∃ names, Skolemizes [] .var ⟨[], 0⟩ f.writtenOut f.skolemForm names :=
  ⟨_, takes_skolemWith true f [] .var ⟨[], 0⟩⟩

/-- Whether all that is put in for the free variables of a formula has a property. -/
def PutsIn (Q : Term → Prop) (env : String → Term) (f : Formula) : Prop :=
  ∀ x, f.Free x → Q (env x)

theorem extendEnv_self (env : String → Term) (x : String) (t : Term) : extendEnv env x t x = t :=
  if_pos rfl

theorem extendEnv_of_ne {x y : String} (h : y ≠ x) (env : String → Term) (t : Term) :
    extendEnv env x t y = env y :=
  if_neg h

/-- Under a quantifier one more term is put in. -/
theorem PutsIn.extendEnv {Q : Term → Prop} {env : String → Term} {x : String} {t : Term}
    {f : Formula} (h : ∀ y, y ≠ x ∧ f.Free y → Q (env y)) (ht : Q t) :
    PutsIn Q (extendEnv env x t) f := by
  intro y hy
  by_cases hyx : y = x
  · rw [hyx, extendEnv_self]
    exact ht
  · rw [extendEnv_of_ne hyx]
    exact h y ⟨hyx, hy⟩

/-- The values of what is put in under a quantifier. -/
theorem value_extendEnv {D : Type u} (M : Interpretation D) (w : String → D) (env : String → Term)
    (x : String) (t : Term) :
    (fun y => (extendEnv env x t y).value M w) =
      Function.update (fun y => (env y).value M w) x (t.value M w) := by
  funext y
  by_cases hyx : y = x
  · rw [hyx, extendEnv_self, Function.update_self]
  · rw [extendEnv_of_ne hyx, Function.update_of_ne hyx]

namespace Skolemizes

variable {scope : List String} {env : String → Term} {names names' : SkolemNames} {f p : Formula}

/-- One Skolem symbol is handed out for each existential quantifier. -/
theorem symbolCount_eq (h : Skolemizes scope env names f p names') :
    names'.symbolCount = names.symbolCount + f.exCount := by
  induction h with
  | var sign _ | rel sign _ => cases sign <;> rfl
  | and _ _ ihf ihg | or _ _ ihf ihg => rw [ihg, ihf, exCount, Nat.add_assoc]
  | all _ _ ih => exact ih
  | ex _ _ ih =>
    simp only [SkolemNames.bindSymbol] at ih
    rw [ih, exCount]
    omega

/-- Skolem symbols are only ever added. -/
theorem symbolCount_le (h : Skolemizes scope env names f p names') :
    names.symbolCount ≤ names'.symbolCount :=
  h.symbolCount_eq ▸ Nat.le_add_right _ _

/-- Universal variables are only ever added. -/
theorem universal_suffix (h : Skolemizes scope env names f p names') :
    names.universal <:+ names'.universal := by
  induction h with
  | var _ _ | rel _ _ => exact List.suffix_rfl
  | and _ _ ihf ihg | or _ _ ihf ihg => exact ihf.trans ihg
  | all x _ ih => exact (List.suffix_cons x _).trans ih
  | ex _ _ ih => exact ih

/-- The universal variables that are added are bound in the formula. -/
theorem mem_universal (h : Skolemizes scope env names f p names') {x : String}
    (hx : x ∈ names'.universal) : x ∈ names.universal ∨ x ∈ f.binders := by
  induction h with
  | var _ _ | rel _ _ => exact Or.inl hx
  | and _ _ ihf ihg | or _ _ ihf ihg =>
    simp only [binders, List.mem_append]
    rcases ihg hx with hx | hx
    · exact (ihf hx).imp_right Or.inl
    · exact Or.inr (Or.inr hx)
  | all y _ ih =>
    simp only [SkolemNames.bindUniversal, List.mem_cons] at ih
    simp only [binders, List.mem_cons]
    rcases ih hx with (hx | hx) | hx
    · exact Or.inr (Or.inl hx)
    · exact Or.inl hx
    · exact Or.inr (Or.inr hx)
  | ex y _ ih => exact (ih hx).imp_right (List.mem_cons_of_mem y)

/-- The Skolem form has no quantifiers, and its atoms are relations if those of the formula are. -/
theorem composed (h : Skolemizes scope env names f p names')
    (hatoms : ∀ a ∈ f.atoms, IsRelation a) : p.Composed IsRelation := by
  induction h with
  | var sign name => cases sign <;> exact ⟨rfl, hatoms⟩
  | rel sign r => cases sign <;> exact composed_rel.mpr ⟨_, rfl⟩
  | and _ _ ihf ihg =>
    obtain ⟨hf, hg⟩ := List.forall_mem_append.mp hatoms
    exact (composed_apply (k := .and)).mpr ⟨ihf hf, ihg hg⟩
  | or _ _ ihf ihg =>
    obtain ⟨hf, hg⟩ := List.forall_mem_append.mp hatoms
    exact (composed_apply (k := .or)).mpr ⟨ihf hf, ihg hg⟩
  | all _ _ ih | ex _ _ ih => exact ih hatoms

/-- The symbols of the Skolem form are those of the formula, of what is put in and the new ones. -/
theorem forall_symbols {S : String → Prop} (h : Skolemizes scope env names f p names')
    (hf : ∀ a ∈ f.symbols, S a) (henv : PutsIn (fun t => ∀ a ∈ t.symbols, S a) env f)
    (hnew : ∀ k, names.symbolCount < k → k ≤ names'.symbolCount → S (skolemSymbol k)) :
    ∀ a ∈ p.symbols, S a := by
  induction h with
  | var sign name => exact hf
  | rel sign r => cases sign <;> exact Relation.forall_symbols_bind hf henv
  | and hf' hg' ihf ihg | or hf' hg' ihf ihg =>
    obtain ⟨hsf, hsg⟩ := List.forall_mem_append.mp hf
    refine List.forall_mem_append.mpr ⟨ihf hsf (fun x hx => henv x (Or.inl hx)) ?_,
      ihg hsg (fun x hx => henv x (Or.inr hx)) ?_⟩
    · exact fun k hk hk' => hnew k hk (Nat.le_trans hk' hg'.symbolCount_le)
    · exact fun k hk => hnew k (Nat.lt_of_le_of_lt hf'.symbolCount_le hk)
  | all x _ ih => exact ih hf (.extendEnv henv (by simp [Term.symbols])) hnew
  | ex x hf' ih =>
    refine ih hf (.extendEnv henv ?_) fun k hk => hnew k (Nat.lt_of_succ_lt hk)
    rw [Term.symbols_skolem]
    exact List.forall_mem_singleton.mpr (hnew _ (Nat.lt_succ_self _) hf'.symbolCount_le)

end Skolemizes

/-- The Skolem form of a first-order formula has no quantifiers and no atoms but relations. -/
theorem composed_skolemForm {f : Formula} (hatoms : ∀ a ∈ f.atoms, IsRelation a) :
    f.skolemForm.Composed IsRelation := by
  obtain ⟨names, h⟩ := exists_skolemizes f
  exact h.composed fun a ha => hatoms a (mem_atoms_writtenOut.mp ha)

/-- The symbols of the Skolem form are those of the formula and its Skolem symbols. -/
theorem symbols_skolemForm (f : Formula) :
    ∀ a ∈ f.skolemForm.symbols, a ∈ f.symbols ∨ a ∈ f.skolemSymbols := by
  obtain ⟨names, h⟩ := exists_skolemizes f
  refine h.forall_symbols (fun a ha => Or.inl (mem_symbols_writtenOut.mp ha)) ?_ ?_
  · intro x _ a ha
    cases ha
  · intro k hk hle
    rw [h.symbolCount_eq, Nat.zero_add] at hle
    exact Or.inr (mem_skolemSymbols.mpr ⟨k, hk, hle, rfl⟩)

end Deduction.Formula
