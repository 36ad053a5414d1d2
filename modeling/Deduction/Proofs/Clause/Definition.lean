import Deduction.Clause.Definition
import Deduction.Proofs.Legible
import Deduction.Proofs.Outcome
import Deduction.Proofs.Valuation
import Mathlib.Data.List.Nodup

/-!
# Defined names stand for the subformulas they name

The clauses of a definition are true under a valuation exactly if the name of every
subformula has the value of the subformula, where a variable of the formula has the
value of its own name. No two different subformulas share a name, so every valuation
of the variables extends to the names, and it does so in one way only. The models of
the clauses are therefore those of the formula.
-/

namespace Deduction

namespace Formula

/-- The number of positions in a formula. -/
def extent : Formula → Nat
  | var _ => 1
  | not f => f.extent + 1
  | and f g => f.extent + g.extent + 1
  | or f g => f.extent + g.extent + 1
  | imp f g => f.extent + g.extent + 1
  | iff f g => f.extent + g.extent + 1
  | rel _ => 1
  | all _ f => f.extent + 1
  | ex _ f => f.extent + 1

/-- The subformulas with their positions, which are numbered from `i` on with a formula before
its parts and the left part before the right. -/
def parts (i : Nat) : Formula → List (Nat × Formula)
  | var name => [(i, var name)]
  | not f => (i, not f) :: f.parts (i + 1)
  | and f g => (i, and f g) :: (f.parts (i + 1) ++ g.parts (i + 1 + f.extent))
  | or f g => (i, or f g) :: (f.parts (i + 1) ++ g.parts (i + 1 + f.extent))
  | imp f g => (i, imp f g) :: (f.parts (i + 1) ++ g.parts (i + 1 + f.extent))
  | iff f g => (i, iff f g) :: (f.parts (i + 1) ++ g.parts (i + 1 + f.extent))
  | rel r => [(i, rel r)]
  | all x f => (i, all x f) :: f.parts (i + 1)
  | ex x f => (i, ex x f) :: f.parts (i + 1)

theorem extent_apply (k : Connective) (f g : Formula) :
    (k.apply f g).extent = f.extent + g.extent + 1 := by
  cases k <;> rfl

theorem parts_apply (i : Nat) (k : Connective) (f g : Formula) :
    (k.apply f g).parts i =
      (i, k.apply f g) :: (f.parts (i + 1) ++ g.parts (i + 1 + f.extent)) := by
  cases k <;> rfl

theorem extent_quantify (universal : Bool) (x : String) (f : Formula) :
    (quantify universal x f).extent = f.extent + 1 := by
  cases universal <;> rfl

theorem parts_quantify (i : Nat) (universal : Bool) (x : String) (f : Formula) :
    (quantify universal x f).parts i = (i, quantify universal x f) :: f.parts (i + 1) := by
  cases universal <;> rfl

/-- A formula is its own first part. -/
theorem mem_parts_self (i : Nat) (f : Formula) : (i, f) ∈ f.parts i := by
  cases f <;> simp [parts]

/-- The positions in a formula are consecutive numbers, each of which is taken once. -/
theorem map_fst_parts (i : Nat) (f : Formula) :
    (f.parts i).map Prod.fst = List.range' i f.extent := by
  induction f using shapeInduction generalizing i with
  | var name => rfl
  | rel r => rfl
  | not f ih => rw [parts, extent, List.map_cons, ih, List.range'_succ]
  | connective k f g ihf ihg =>
    rw [parts_apply, extent_apply, List.map_cons, List.map_append, ihf, ihg, List.range'_succ,
      List.range'_append_1]
  | quantifier universal x f ih =>
    rw [parts_quantify, extent_quantify, List.map_cons, ih, List.range'_succ]

/-- One subformula stands at each position. -/
theorem eq_of_mem_parts {i : Nat} {f : Formula} {p q : Nat × Formula} (hp : p ∈ f.parts i)
    (hq : q ∈ f.parts i) (h : p.1 = q.1) : p = q := by
  have hnodup : ((f.parts i).map Prod.fst).Nodup := by
    rw [map_fst_parts]
    exact List.nodup_range'
  exact List.inj_on_of_nodup_map hnodup hp hq h

/-- The parts of a propositional formula are propositional. -/
theorem Composed.of_mem_parts {isAtom : Formula → Prop} {i : Nat} {f : Formula}
    {p : Nat × Formula} (hf : f.Composed isAtom) (hp : p ∈ f.parts i) : p.2.Composed isAtom := by
  induction f using shapeInduction generalizing i with
  | var name =>
    rw [List.mem_singleton.mp hp]
    exact hf
  | rel r =>
    rw [List.mem_singleton.mp hp]
    exact hf
  | not f ih =>
    rcases List.mem_cons.mp hp with rfl | hp
    · exact hf
    · exact ih (composed_not.mp hf) hp
  | connective k f g ihf ihg =>
    rw [parts_apply] at hp
    rcases List.mem_cons.mp hp with rfl | hp
    · exact hf
    · obtain ⟨hf, hg⟩ := composed_apply.mp hf
      rcases List.mem_append.mp hp with hp | hp
      · exact ihf hf hp
      · exact ihg hg hp
  | quantifier universal x f ih =>
    cases universal with
    | true => exact absurd hf not_composed_all
    | false => exact absurd hf not_composed_ex

/-- The atoms of a part are atoms of the formula. -/
theorem atoms_subset_of_mem_parts {i : Nat} {f : Formula} {p : Nat × Formula}
    (h : p ∈ f.parts i) : p.2.atoms ⊆ f.atoms := by
  induction f using shapeInduction generalizing i with
  | var name => simp [List.mem_singleton.mp h]
  | rel r => simp [List.mem_singleton.mp h]
  | not f ih =>
    rcases List.mem_cons.mp h with rfl | h
    · exact List.Subset.refl _
    · exact ih h
  | connective k f g ihf ihg =>
    rw [parts_apply, List.mem_cons, List.mem_append] at h
    rw [atoms_apply]
    rcases h with rfl | h | h
    · rw [atoms_apply]
      exact List.Subset.refl _
    · exact List.subset_append_of_subset_left _ (ihf h)
    · exact List.subset_append_of_subset_right _ (ihg h)
  | quantifier universal x f ih =>
    rw [parts_quantify, List.mem_cons] at h
    rw [atoms_quantify]
    rcases h with rfl | h
    · rw [atoms_quantify]
      exact List.Subset.refl _
    · exact ih h

/-- The variables of a propositional formula are among its parts. -/
theorem exists_mem_parts {f : Formula} {x : String} (i : Nat) (h : var x ∈ f.atoms) :
    ∃ j, (j, var x) ∈ f.parts i := by
  induction f using shapeInduction generalizing i with
  | var name => exact ⟨i, by simpa [parts, atoms] using h⟩
  | rel r => simp [atoms] at h
  | not f ih =>
    obtain ⟨j, hj⟩ := ih (i + 1) h
    exact ⟨j, List.mem_cons_of_mem _ hj⟩
  | connective k f g ihf ihg =>
    rw [atoms_apply, List.mem_append] at h
    rw [parts_apply]
    rcases h with h | h
    · obtain ⟨j, hj⟩ := ihf (i + 1) h
      exact ⟨j, List.mem_cons_of_mem _ (List.mem_append_left _ hj)⟩
    · obtain ⟨j, hj⟩ := ihg (i + 1 + f.extent) h
      exact ⟨j, List.mem_cons_of_mem _ (List.mem_append_right _ hj)⟩
  | quantifier universal x f ih =>
    rw [atoms_quantify] at h
    rw [parts_quantify]
    obtain ⟨j, hj⟩ := ih (i + 1) h
    exact ⟨j, List.mem_cons_of_mem _ hj⟩

end Formula

namespace ClauseSet

open Formula

/-- The initial letter of the names of all formulas of a shape. -/
def initial : Formula → Option Char
  | .var _ => some 'v'
  | .not _ => some 'n'
  | .and _ _ => some 'a'
  | .or _ _ => some 'o'
  | .imp _ _ => some 'i'
  | .iff _ _ => some 'e'
  | _ => none

theorem head?_label (i : Nat) (f : Formula) : (label i f).toList.head? = initial f := by
  cases f <;> simp [label, initial]

/-- Two propositional subformulas have the same name only at the same position, or if they are
the same variable. -/
theorem label_inj {i j : Nat} {f g : Formula} (hf : f.Composed IsVariable)
    (hg : g.Composed IsVariable) (h : label i f = label j g) : i = j ∨ f = g ∧ f.IsVariable := by
  have hinitial : initial f = initial g := by
    rw [← head?_label i f, ← head?_label j g, h]
  cases f <;> cases g <;> simp_all [initial, label, IsVariable, Decimal.render_inj]

/-- The clauses that define a name by a connective between two others. -/
def connectiveClauses : Connective → String → String → String → List (Clause String)
  | .and => defineAnd
  | .or => defineOr
  | .imp => defineImp
  | .iff => defineIff

theorem define_apply (i : Nat) (k : Connective) (f g : Formula) :
    define i (k.apply f g) = (do
      let (cs, j) ← define (i + 1) f
      let (ds, m) ← define j g
      return (cs ++ ds ++
        connectiveClauses k (label i (k.apply f g)) (label (i + 1) f) (label j g), m)) := by
  cases k <;> rfl

/-- The clauses of a connective are true if the name has the value of the connective. -/
theorem eval_connectiveClauses (val : String → Bool) (k : Connective) (s l r : String) :
    (∀ c ∈ connectiveClauses k s l r, c.eval val = true) ↔ val s = k.truth (val l) (val r) := by
  cases k <;> cases hs : val s <;> cases hl : val l <;> cases hr : val r <;>
    simp [connectiveClauses, defineAnd, defineOr, defineImp, defineIff, ofNames, Clause.eval,
      Atom.eval, Connective.truth, hs, hl, hr]

/-- The clauses of a negation are true if the name has the opposite value. -/
theorem eval_defineNot (val : String → Bool) (s c : String) :
    (∀ d ∈ defineNot s c, d.eval val = true) ↔ val s = !val c := by
  cases hs : val s <;> cases hc : val c <;>
    simp [defineNot, ofNames, Clause.eval, Atom.eval, hs, hc]

/-- Only the name that is defined and those by which it is defined occur. -/
theorem lit_of_mem_connectiveClauses {k : Connective} {s l r : String} {c : Clause String}
    {a : Atom String} (hc : c ∈ connectiveClauses k s l r) (ha : a ∈ c.atoms) :
    a.lit = s ∨ a.lit = l ∨ a.lit = r := by
  have hall : ∀ c ∈ connectiveClauses k s l r, ∀ a ∈ c.atoms,
      a.lit = s ∨ a.lit = l ∨ a.lit = r := by
    cases k <;>
      simp [connectiveClauses, defineAnd, defineOr, defineImp, defineIff, ofNames]
  exact hall c hc a ha

private theorem lit_of_mem_defineNot {s d : String} {c : Clause String} {a : Atom String}
    (hc : c ∈ defineNot s d) (ha : a ∈ c.atoms) : a.lit = s ∨ a.lit = d := by
  have hall : ∀ c ∈ defineNot s d, ∀ a ∈ c.atoms, a.lit = s ∨ a.lit = d := by
    simp [defineNot, ofNames]
  exact hall c hc a ha

/-- The names of all given parts have the values of the parts, where the variables of the formula
have the values of their own names. -/
def Faithful (val : String → Bool) (ps : List (Nat × Formula)) : Prop :=
  ∀ p ∈ ps, val (label p.1 p.2) = p.2.eval fun x => val ("var" ++ x)

/-- Clauses that say of all given parts what their names stand for, and nothing else. -/
structure Defines (ps : List (Nat × Formula)) (cs : List (Clause String)) : Prop where
  /-- The clauses are true if the names are faithful. -/
  eval_iff : ∀ val : String → Bool, (∀ c ∈ cs, c.eval val = true) ↔ Faithful val ps
  /-- Only names of parts occur. -/
  named : ∀ c ∈ cs, ∀ a ∈ c.atoms, ∃ p ∈ ps, a.lit = label p.1 p.2

namespace Defines

variable {ps qs : List (Nat × Formula)} {cs ds : List (Clause String)}

theorem append (hps : Defines ps cs) (hqs : Defines qs ds) : Defines (ps ++ qs) (cs ++ ds) where
  eval_iff val := by
    simp only [Faithful, List.forall_mem_append] at *
    exact and_congr (hps.eval_iff val) (hqs.eval_iff val)
  named c hc a ha := by
    rcases List.mem_append.mp hc with hc | hc
    · obtain ⟨p, hp, hlit⟩ := hps.named c hc a ha
      exact ⟨p, List.mem_append_left _ hp, hlit⟩
    · obtain ⟨p, hp, hlit⟩ := hqs.named c hc a ha
      exact ⟨p, List.mem_append_right _ hp, hlit⟩

/-- One more part is defined by clauses that are true, once the other names are faithful, if its
own name is. -/
theorem cons {i : Nat} {f : Formula} (hps : Defines ps cs)
    (heval : ∀ val : String → Bool, Faithful val ps →
      ((∀ c ∈ ds, c.eval val = true) ↔ val (label i f) = f.eval fun x => val ("var" ++ x)))
    (hnamed : ∀ c ∈ ds, ∀ a ∈ c.atoms, ∃ p ∈ (i, f) :: ps, a.lit = label p.1 p.2) :
    Defines ((i, f) :: ps) (cs ++ ds) where
  eval_iff val := by
    have hcons : Faithful val ((i, f) :: ps) ↔
        Faithful val ps ∧ val (label i f) = f.eval fun x => val ("var" ++ x) :=
      List.forall_mem_cons.trans and_comm
    rw [List.forall_mem_append, hps.eval_iff, hcons]
    exact and_congr_right (heval val)
  named c hc a ha := by
    rcases List.mem_append.mp hc with hc | hc
    · obtain ⟨p, hp, hlit⟩ := hps.named c hc a ha
      exact ⟨p, List.mem_cons_of_mem _ hp, hlit⟩
    · exact hnamed c hc a ha

end Defines

/-- A propositional formula has a definition, by which its positions are used up. -/
theorem exists_define {f : Formula} (hf : f.Composed IsVariable) (i : Nat) :
    ∃ cs, define i f = .ok (cs, i + f.extent) ∧ Defines (f.parts i) cs := by
  induction f using shapeInduction generalizing i with
  | var name =>
    refine ⟨[], rfl, ⟨fun val => ?_, fun c hc => by cases hc⟩⟩
    simp [Faithful, parts, label]
  | rel r =>
    obtain ⟨x, hx⟩ := composed_rel.mp hf
    cases hx
  | not f ih =>
    obtain ⟨cs, hcs, hdef⟩ := ih (composed_not.mp hf) (i + 1)
    refine ⟨cs ++ defineNot (label i (.not f)) (label (i + 1) f), ?_, ?_⟩
    · have hnext : i + 1 + f.extent = i + (f.extent + 1) := by omega
      rw [define, hcs, extent, hnext]
      rfl
    · refine hdef.cons (fun val hval => ?_) fun c hc a ha => ?_
      · rw [eval_defineNot, hval _ (mem_parts_self (i + 1) f)]
        rfl
      · rcases lit_of_mem_defineNot hc ha with h | h
        · exact ⟨_, List.mem_cons_self, h⟩
        · exact ⟨_, List.mem_cons_of_mem _ (mem_parts_self (i + 1) f), h⟩
  | connective k f g ihf ihg =>
    obtain ⟨hf, hg⟩ := composed_apply.mp hf
    obtain ⟨cs, hcs, hdef⟩ := ihf hf (i + 1)
    obtain ⟨ds, hds, hdefs⟩ := ihg hg (i + 1 + f.extent)
    refine ⟨cs ++ ds ++ connectiveClauses k (label i (k.apply f g)) (label (i + 1) f)
      (label (i + 1 + f.extent) g), ?_, ?_⟩
    · have hnext : i + 1 + f.extent + g.extent = i + (f.extent + g.extent + 1) := by omega
      rw [define_apply, hcs, extent_apply, ← hnext]
      simp only [Outcome.bind_eq_ok, Outcome.pure_eq_ok]
      exact ⟨_, rfl, _, hds, rfl⟩
    · have hleft := List.mem_append_left (g.parts (i + 1 + f.extent)) (mem_parts_self (i + 1) f)
      have hright := List.mem_append_right (f.parts (i + 1)) (mem_parts_self (i + 1 + f.extent) g)
      rw [parts_apply]
      refine (hdef.append hdefs).cons (fun val hval => ?_) fun c hc a ha => ?_
      · rw [eval_connectiveClauses, hval _ hleft, hval _ hright, eval_apply]
      · rcases lit_of_mem_connectiveClauses hc ha with h | h | h
        · exact ⟨_, List.mem_cons_self, h⟩
        · exact ⟨_, List.mem_cons_of_mem _ hleft, h⟩
        · exact ⟨_, List.mem_cons_of_mem _ hright, h⟩
  | quantifier universal x f =>
    cases universal with
    | true => exact absurd hf not_composed_all
    | false => exact absurd hf not_composed_ex

/-- The valuation of names that a valuation of the variables of a formula gives: a name has the
value of the subformula that it names. -/
def extension (w : String → Bool) (f : Formula) (name : String) : Bool :=
  (f.parts 0).any fun p => label p.1 p.2 == name && p.2.eval w

/-- No name stands for two parts of different value. -/
theorem extension_label {f : Formula} (hf : f.Composed IsVariable) (w : String → Bool)
    {p : Nat × Formula} (hp : p ∈ f.parts 0) : extension w f (label p.1 p.2) = p.2.eval w := by
  rw [Bool.eq_iff_iff, extension, List.any_eq_true]
  constructor
  · rintro ⟨q, hq, h⟩
    simp only [Bool.and_eq_true, beq_iff_eq] at h
    rcases label_inj (hf.of_mem_parts hq) (hf.of_mem_parts hp) h.1 with hposition | ⟨hsame, -⟩
    · rw [← eq_of_mem_parts hq hp hposition]
      exact h.2
    · rw [← hsame]
      exact h.2
  · intro h
    exact ⟨p, hp, by simp [h]⟩

/-- The extension of a valuation keeps the values of the variables. -/
theorem extension_var {f : Formula} (hf : f.Composed IsVariable) (w : String → Bool) {x : String}
    (hx : .var x ∈ f.atoms) : extension w f ("var" ++ x) = w x := by
  obtain ⟨j, hj⟩ := exists_mem_parts 0 hx
  exact extension_label hf w hj

/-- The extension of a valuation is faithful. -/
theorem faithful_extension {f : Formula} (hf : f.Composed IsVariable) (w : String → Bool) :
    Faithful (extension w f) (f.parts 0) := by
  intro p hp
  rw [extension_label hf w hp]
  exact eval_congr fun x hx => (extension_var hf w (atoms_subset_of_mem_parts hp hx)).symm

/-- Faithful names have the values that the variables determine. -/
theorem Faithful.label_eq {f : Formula} {v w : String → Bool} (h : Faithful v (f.parts 0))
    (hw : ∀ x, .var x ∈ f.atoms → v ("var" ++ x) = w x) {p : Nat × Formula}
    (hp : p ∈ f.parts 0) : v (label p.1 p.2) = p.2.eval w := by
  rw [h p hp]
  exact eval_congr fun x hx => hw x (atoms_subset_of_mem_parts hp hx)

/-- The defining clauses with the assertion of the whole formula are true if the names are
faithful and the formula is true. -/
theorem eval_asserted {f : Formula} {cs : List (Clause String)} (h : Defines (f.parts 0) cs)
    (v : String → Bool) :
    eval v ⟨ofNames [(label 0 f, true)] :: cs⟩ = true ↔
      Faithful v (f.parts 0) ∧ f.eval (fun x => v ("var" ++ x)) = true := by
  have hfirst : (ofNames [(label 0 f, true)]).eval v = v (label 0 f) := by
    simp [Clause.eval, ofNames, Atom.eval]
  rw [eval, List.all_cons, Bool.and_eq_true, List.all_eq_true, h.eval_iff, hfirst, and_comm]
  refine and_congr_right fun hfaithful => ?_
  rw [hfaithful _ (mem_parts_self 0 f)]

/-- The models of the clauses are those of the formula: a model of the clauses is a model of the
formula on the names of its variables, and a model of the formula extends to one of the clauses
in exactly one way. -/
structure SameModels (f : Formula) (s : ClauseSet String) : Prop where
  /-- Models of the clauses are models of the formula. -/
  restrict : ∀ v, s.eval v = true → f.eval (fun x => v ("var" ++ x)) = true
  /-- Models of the formula extend to models of the clauses. -/
  extend : ∀ w : String → Bool, f.eval w = true →
    ∃ v, s.eval v = true ∧ ∀ x, .var x ∈ f.atoms → v ("var" ++ x) = w x
  /-- Two such extensions agree on all names that occur. -/
  unique : ∀ w : String → Bool, f.eval w = true → ∀ v v',
    s.eval v = true → (∀ x, .var x ∈ f.atoms → v ("var" ++ x) = w x) →
    s.eval v' = true → (∀ x, .var x ∈ f.atoms → v' ("var" ++ x) = w x) →
    ∀ c ∈ s.clauses, ∀ a ∈ c.atoms, v a.lit = v' a.lit
  /-- The clauses are satisfiable if and only if the formula is. -/
  satisfiable_iff : (∃ v, s.eval v = true) ↔ ∃ w : String → Bool, f.eval w = true

/-- Every propositional formula has a clause set by definition, with the models of the formula. -/
theorem defined_sameModels (f : Formula) (hf : f.Composed IsVariable) :
    ∃ s, defined f = .ok s ∧ SameModels f s := by
  obtain ⟨cs, hcs, hdef⟩ := exists_define hf 0
  have hrestrict : ∀ v, eval v ⟨ofNames [(label 0 f, true)] :: cs⟩ = true →
      f.eval (fun x => v ("var" ++ x)) = true := fun v hv => ((eval_asserted hdef v).mp hv).2
  have hextend : ∀ w : String → Bool, f.eval w = true →
      eval (extension w f) ⟨ofNames [(label 0 f, true)] :: cs⟩ = true := by
    intro w hw
    refine (eval_asserted hdef _).mpr ⟨faithful_extension hf w, ?_⟩
    rw [eval_congr fun x hx => extension_var hf w hx, hw]
  refine ⟨⟨ofNames [(label 0 f, true)] :: cs⟩, ?_, hrestrict, fun w hw =>
    ⟨extension w f, hextend w hw, fun x => extension_var hf w⟩, ?_, ?_⟩
  · rw [defined, hcs]
    rfl
  · intro w _ v v' hv hvw hv' hvw' c hc a ha
    obtain ⟨p, hp, hlit⟩ : ∃ p ∈ f.parts 0, a.lit = label p.1 p.2 := by
      rcases List.mem_cons.mp hc with rfl | hc
      · exact ⟨_, mem_parts_self 0 f, by rw [List.mem_singleton.mp ha]⟩
      · exact hdef.named c hc a ha
    rw [hlit, ((eval_asserted hdef v).mp hv).1.label_eq hvw hp,
      ((eval_asserted hdef v').mp hv').1.label_eq hvw' hp]
  · exact ⟨fun ⟨v, hv⟩ => ⟨_, hrestrict v hv⟩, fun ⟨w, hw⟩ => ⟨_, hextend w hw⟩⟩

/-- A formula whose variables are spelled like names of subformulas. -/
def misleading : Formula := .iff (.not (.var "not1")) (.or (.var "not1") (.var ""))

theorem defined_misleading_sameModels :
    misleading.Composed IsVariable ∧ ∃ s, defined misleading = .ok s ∧ SameModels misleading s := by
  have h : misleading.Composed IsVariable := by
    simp [misleading, Composed, quantifierFree, atoms, IsVariable]
  exact ⟨h, defined_sameModels misleading h⟩

end ClauseSet

end Deduction
