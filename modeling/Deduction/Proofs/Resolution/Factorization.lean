import Deduction.Proofs.Resolution.Rules
import Deduction.Proofs.Unification

/-!
# Merging the atoms of a clause

Chosen atoms are made equal one pair at a time, and the whole clause is instantiated
after each pair. The substitutions of all pairs, one after the other, are one
substitution that makes all the chosen atoms equal at once, and it is most general: each
one of them loses no solution that is left. So no order of the atoms leads to a failure
where another one does not, and a merge is accepted exactly if the chosen atoms are
there, none is chosen twice in a row, their signs agree and some substitution makes all
their literals equal.
-/

namespace Deduction

/-- Nothing is found under a key that is not listed. -/
theorem KeyMap.get?_eq_none_of_notMem {κ α : Type} [Ord κ] [DecidableEq κ] {m : KeyMap κ α} {x : κ}
    (h : x ∉ m.entries.map Prod.fst) : m.get? x = none := by
  rw [get?, Option.map_eq_none_iff, List.find?_eq_none]
  rintro e he hx
  rw [decide_eq_true_eq] at hx
  exact h (hx ▸ List.mem_map_of_mem he)

/-- Whether a function has the same value at all members of a list. -/
def Uniform {α β : Type} (f : α → β) (as : List α) : Prop := ∀ a ∈ as, ∀ b ∈ as, f a = f b

theorem uniform_cons_cons {α β : Type} {f : α → β} {a b : α} {as : List α} :
    Uniform f (a :: b :: as) ↔ f a = f b ∧ Uniform f (b :: as) := by
  constructor
  · intro h
    refine ⟨h a (by simp) b (by simp), fun c hc d hd => ?_⟩
    exact h c (List.mem_cons_of_mem a hc) d (List.mem_cons_of_mem a hd)
  · rintro ⟨hab, h⟩
    have hall : ∀ c ∈ a :: b :: as, f c = f b :=
      List.forall_mem_cons.mpr ⟨hab, fun c hc => h c hc b List.mem_cons_self⟩
    exact fun c hc d hd => (hall c hc).trans (hall d hd).symm

namespace Substitution

/-- One substitution after another, as a single one. -/
def andThen (s t : Substitution) : Substitution :=
  .ofList (((s.entries ++ t.entries).map Prod.fst).map fun x => (x, (s.apply x).instantiate t))

theorem apply_andThen (s t : Substitution) (x : String) :
    (s.andThen t).apply x = (s.apply x).instantiate t := by
  rw [apply, andThen, KeyMap.get?_ofList_map]
  split
  · rfl
  next hx =>
    rw [List.map_append, List.mem_append, not_or] at hx
    rw [apply_of_get?_eq_none (KeyMap.get?_eq_none_of_notMem hx.1)]
    exact (apply_of_get?_eq_none (KeyMap.get?_eq_none_of_notMem hx.2)).symm

/-- All substitutions of a list one after the other, as a single one. -/
def composed : List Substitution → Substitution
  | [] => .empty
  | s :: ss => s.andThen (composed ss)

/-- Whether a substitution makes the literals of all atoms equal. -/
def MakesEqual (as : List (Atom Relation)) (s : Substitution) : Prop :=
  Uniform (fun a => a.lit.instantiate s) as

end Substitution

theorem Term.instantiate_andThen (t : Term) (s s' : Substitution) :
    t.instantiate (s.andThen s') = (t.instantiate s).instantiate s' := by
  rw [instantiate, instantiate, instantiate, bind_bind, funext (s.apply_andThen s')]
  rfl

theorem Relation.instantiate_andThen (r : Relation) (s s' : Substitution) :
    r.instantiate (s.andThen s') = (r.instantiate s).instantiate s' := by
  rw [instantiate, instantiate, instantiate, bind_bind, funext (s.apply_andThen s')]
  rfl

namespace Substitution

variable {s t : Substitution} {as : List (Atom Relation)}

private theorem makesEqual_andThen :
    (s.andThen t).MakesEqual as ↔ t.MakesEqual (as.map (·.instantiate s)) := by
  simp only [MakesEqual, Uniform, List.forall_mem_map, Relation.instantiate_andThen,
    Atom.instantiate]

/-- A solution of a problem makes atoms equal exactly if it does so with their instances under the
most general one. -/
theorem MostGeneralSolution.makesEqual_map {solves : Substitution → Prop} {xs : List String}
    (h : s.MostGeneralSolution solves xs) (ht : solves t) :
    t.MakesEqual (as.map (·.instantiate s)) ↔ t.MakesEqual as := by
  simp only [MakesEqual, Uniform, List.forall_mem_map, Atom.instantiate, h.general_relation ht]

end Substitution

namespace Clause

variable {c : Clause Relation} {s t : Substitution}

theorem instantiate_andThen (c : Clause Relation) (s t : Substitution) :
    c.instantiate (s.andThen t) = (c.instantiate s).instantiate t := by
  simp only [instantiate, List.map_map]
  refine congrArg mk (List.map_congr_left fun a _ => ?_)
  rw [Atom.instantiate, Relation.instantiate_andThen]
  rfl

/-- The atoms at chosen positions. -/
def selected (c : Clause Relation) (positions : List Nat) : List (Atom Relation) :=
  positions.filterMap fun i => c.atoms[i]?

/-- The clause without the atoms at some positions. -/
def dropAt (c : Clause Relation) (positions : List Nat) : Clause Relation :=
  ⟨(c.atoms.zipIdx.filter fun a => a.2 ∉ positions).map Prod.fst⟩

theorem mem_selected {positions : List Nat} {a : Atom Relation} :
    a ∈ c.selected positions ↔ ∃ i ∈ positions, c.atoms[i]? = some a :=
  List.mem_filterMap

theorem selected_cons {positions : List Nat} {i : Nat} {a : Atom Relation}
    (h : c.atoms[i]? = some a) : c.selected (i :: positions) = a :: c.selected positions :=
  List.filterMap_cons_some h

/-- At one position there is at most one atom. -/
theorem uniform_selected_singleton {β : Type} (f : Atom Relation → β) (i : Nat) :
    Uniform f (c.selected [i]) := by
  intro a ha b hb
  obtain ⟨k, hk, ha⟩ := mem_selected.mp ha
  obtain ⟨k', hk', hb⟩ := mem_selected.mp hb
  rw [List.mem_singleton.mp hk] at ha
  rw [List.mem_singleton.mp hk', ha] at hb
  rw [Option.some.inj hb]

theorem selected_instantiate (positions : List Nat) :
    (c.instantiate s).selected positions = (c.selected positions).map (·.instantiate s) := by
  simp only [selected, List.map_filterMap, instantiate, List.getElem?_map]

end Clause

namespace Resolution.FirstOrder

open Substitution

variable {s s' : State Relation} {c c' : Clause Relation} {atoms : List Nat}

/-- The substitutions that make the chosen atoms of a clause equal one pair at a time, each one for
the clause as the ones before have left it. -/
inductive StepUnifiers : Clause Relation → List Nat → List Substitution → Prop
  | last (c : Clause Relation) (i : Nat) : StepUnifiers c [i] []
  | merge {c : Clause Relation} {i j : Nat} {rest : List Nat} {first second : Atom Relation}
      {σ : Substitution} {σs : List Substitution} (hfirst : c.atoms[i]? = some first)
      (hsecond : c.atoms[j]? = some second) (hσ : unify first.lit second.lit = .ok σ)
      (hrest : StepUnifiers (c.instantiate σ) (j :: rest) σs) :
      StepUnifiers c (i :: j :: rest) (σ :: σs)

/-- One after the other they make all chosen atoms equal. -/
theorem StepUnifiers.makesEqual {σs : List Substitution} (h : StepUnifiers c atoms σs) :
    (composed σs).MakesEqual (c.selected atoms) := by
  induction h with
  | last c i => exact Clause.uniform_selected_singleton _ i
  | @merge c i j rest first second σ σs hfirst hsecond hσ hrest ih =>
    have hpair := (unify_mostGeneralSolution hσ).solution
    rw [Clause.selected_instantiate, ← makesEqual_andThen, Clause.selected_cons hsecond] at ih
    rw [Clause.selected_cons hfirst, Clause.selected_cons hsecond]
    refine uniform_cons_cons.mpr ⟨?_, ih⟩
    rw [composed, Relation.instantiate_andThen, hpair, ← Relation.instantiate_andThen]

/-- A substitution that makes all chosen atoms equal sees no difference between a term and its
instance. -/
theorem StepUnifiers.general {σs : List Substitution} (h : StepUnifiers c atoms σs)
    {t : Substitution} (ht : t.MakesEqual (c.selected atoms)) (u : Term) :
    (u.instantiate (composed σs)).instantiate t = u.instantiate t := by
  induction h generalizing u with
  | last c i =>
    have hempty : u.instantiate (composed []) = u := u.bind_var
    rw [hempty]
  | @merge c i j rest first second σ σs hfirst hsecond hσ hrest ih =>
    have hmost := unify_mostGeneralSolution hσ
    rw [Clause.selected_cons hfirst, Clause.selected_cons hsecond] at ht
    obtain ⟨hpair, hothers⟩ := uniform_cons_cons.mp ht
    -- The first pair loses nothing: what makes the others equal still does so afterwards.
    have hleft : t.MakesEqual ((c.instantiate σ).selected (j :: rest)) := by
      rw [Clause.selected_instantiate, Clause.selected_cons hsecond]
      exact (hmost.makesEqual_map hpair).mpr hothers
    rw [composed, Term.instantiate_andThen, ih hleft]
    exact hmost.general t hpair u

theorem unifier_eq_ok {l r : Relation} {σ : Substitution} :
    unifier l r = .ok σ ↔ unify l r = .ok σ := by
  rw [unifier]
  cases unify l r <;> simp [refuse]

/-- What it takes to make the first of the chosen atoms equal to the second and to go on from
there. -/
theorem mergeAtoms_cons_cons {i j : Nat} {rest : List Nat} :
    mergeAtoms c (i :: j :: rest) = .ok c' ↔
      i ≠ j ∧ ∃ first, c.atoms[i]? = some first ∧ ∃ second, c.atoms[j]? = some second ∧
        first.negated = second.negated ∧ ∃ σ, unify first.lit second.lit = .ok σ ∧
          mergeAtoms (c.instantiate σ) (j :: rest) = .ok c' := by
  simp only [mergeAtoms, refuse, ↓Outcome.guard_eq_ok, Outcome.bind_eq_ok, State.atomOf_eq_ok,
    unifier_eq_ok, ne_eq, not_not]

/-- An accepted merge of pairs has step unifiers, and together they give its result. -/
theorem exists_stepUnifiers_of_mergeAtoms {i : Nat} {rest : List Nat}
    (h : mergeAtoms c (i :: rest) = .ok c') :
    ∃ σs, StepUnifiers c (i :: rest) σs ∧ c.instantiate (composed σs) = c' := by
  induction rest generalizing c i with
  | nil =>
    cases h
    exact ⟨[], .last _ i, Clause.instantiate_empty _⟩
  | cons j rest ih =>
    obtain ⟨-, first, hfirst, second, hsecond, -, σ, hσ, h⟩ := mergeAtoms_cons_cons.mp h
    obtain ⟨σs, hσs, hc'⟩ := ih h
    exact ⟨σ :: σs, .merge hfirst hsecond hσ hσs, by rw [composed, c.instantiate_andThen, hc']⟩

/-- Atoms that have been made equal pair by pair have the same sign. -/
theorem uniform_negated_of_mergeAtoms {i : Nat} {rest : List Nat}
    (h : mergeAtoms c (i :: rest) = .ok c') : Uniform Atom.negated (c.selected (i :: rest)) := by
  induction rest generalizing c i with
  | nil => exact Clause.uniform_selected_singleton _ i
  | cons j rest ih =>
    obtain ⟨-, first, hfirst, second, hsecond, hsign, σ, -, h⟩ := mergeAtoms_cons_cons.mp h
    have hothers := ih h
    rw [Clause.selected_instantiate, Clause.selected_cons hsecond, Uniform] at hothers
    simp only [List.forall_mem_map] at hothers
    rw [Clause.selected_cons hfirst, Clause.selected_cons hsecond]
    exact uniform_cons_cons.mpr ⟨hsign, hothers⟩

/-- What is asked of atoms, chosen by their positions, that are to be merged. -/
structure Factorizable (c : Clause Relation) (atoms : List Nat) : Prop where
  /-- There are at least two of them. -/
  several : 2 ≤ atoms.length
  /-- All of them are there. -/
  inRange : ∀ i ∈ atoms, i < c.atoms.length
  /-- None is chosen twice in a row. -/
  noRepeat : atoms.IsChain (· ≠ ·)
  /-- Their signs agree. -/
  sameSign : Uniform Atom.negated (c.selected atoms)
  /-- Their literals have a common unifier. -/
  unifiable : ∃ t : Substitution, t.MakesEqual (c.selected atoms)

/-- Atoms with a common unifier are made equal pair by pair, in whatever order they stand. -/
theorem exists_mergeAtoms_eq_ok {i : Nat} {rest : List Nat} {t : Substitution}
    (hrange : ∀ k ∈ i :: rest, k < c.atoms.length) (hchain : (i :: rest).IsChain (· ≠ ·))
    (hsign : Uniform Atom.negated (c.selected (i :: rest)))
    (ht : t.MakesEqual (c.selected (i :: rest))) : ∃ c', mergeAtoms c (i :: rest) = .ok c' := by
  induction rest generalizing c i with
  | nil => exact ⟨c, rfl⟩
  | cons j rest ih =>
    obtain ⟨hi, hothers⟩ := List.forall_mem_cons.mp hrange
    obtain ⟨hne, hchain⟩ := List.isChain_cons_cons.mp hchain
    obtain ⟨first, hfirst⟩ : ∃ a, c.atoms[i]? = some a := ⟨_, List.getElem?_eq_getElem hi⟩
    obtain ⟨second, hsecond⟩ : ∃ a, c.atoms[j]? = some a :=
      ⟨_, List.getElem?_eq_getElem (hothers j List.mem_cons_self)⟩
    rw [Clause.selected_cons hfirst, Clause.selected_cons hsecond] at hsign ht
    obtain ⟨hsame, hsign⟩ := uniform_cons_cons.mp hsign
    obtain ⟨hpair, hequal⟩ := uniform_cons_cons.mp ht
    cases hσ : unify first.lit second.lit with
    | error e => exact absurd hpair (not_unifies_of_unify_error hσ t)
    | ok σ =>
      have hselected : (c.instantiate σ).selected (j :: rest) =
          (second :: c.selected rest).map (·.instantiate σ) := by
        rw [Clause.selected_instantiate, Clause.selected_cons hsecond]
      obtain ⟨c', hc'⟩ : ∃ c', mergeAtoms (c.instantiate σ) (j :: rest) = .ok c' := by
        refine ih ?_ hchain ?_ ?_
        · simpa only [Clause.instantiate, List.length_map] using hothers
        · rw [hselected, Uniform]
          simp only [List.forall_mem_map]
          exact hsign
        · rw [hselected]
          exact ((unify_mostGeneralSolution hσ).makesEqual_map hpair).mpr hequal
      exact ⟨c', mergeAtoms_cons_cons.mpr ⟨hne, first, hfirst, second, hsecond, hsame, σ, hσ, hc'⟩⟩

/-- What is left of a clause whose chosen atoms have been made equal: those that are chosen behind
the first one and are equal to it go. -/
def keepFirst (merged : Clause Relation) (atoms : List Nat) : Clause Relation :=
  ⟨(merged.atoms.zipIdx.filter fun (a, i) =>
    !(atoms.tail.contains i && (atoms.head?.bind fun i => merged.atoms[i]?) = some a)).map Prod.fst⟩

/-- If all chosen atoms are equal, all that are chosen behind the first one go. -/
theorem keepFirst_eq_dropAt {merged : Clause Relation} {a : Atom Relation} (hne : atoms ≠ [])
    (h : ∀ i ∈ atoms, merged.atoms[i]? = some a) :
    keepFirst merged atoms = merged.dropAt atoms.tail := by
  obtain ⟨i, rest, rfl⟩ := List.exists_cons_of_ne_nil hne
  refine congrArg (fun as => Clause.mk (List.map Prod.fst as)) (List.filter_congr ?_)
  rintro ⟨b, k⟩ hb
  rw [List.mk_mem_zipIdx_iff_getElem?] at hb
  by_cases hk : k ∈ rest
  · have hkept : some a = some b := (h k (List.mem_cons_of_mem i hk)).symm.trans hb
    simp [hk, h i List.mem_cons_self, hkept]
  · simp [hk]

/-- The chosen atoms are looked up without a failure exactly if all of them are there. -/
theorem exists_mapM_atomOf :
    (∃ as, atoms.mapM (State.atomOf c) = .ok as) ↔ ∀ i ∈ atoms, i < c.atoms.length := by
  constructor
  · rintro ⟨as, has⟩ i hi
    obtain ⟨a, ha⟩ := Outcome.exists_of_mapM_eq_ok has hi
    exact (List.getElem?_eq_some_iff.mp (State.atomOf_eq_ok.mp ha)).1
  · intro h
    exact Outcome.exists_mapM_eq_ok fun i hi =>
      ⟨_, State.atomOf_eq_ok.mpr (List.getElem?_eq_getElem (h i hi))⟩

/-- What it takes to merge chosen atoms, and what becomes of the clauses. -/
theorem factorize_eq_ok {c1 : Nat} :
    factorize s c1 atoms = .ok s' ↔
      2 ≤ atoms.length ∧ ∃ c, s.clauses.get? c1 = some c ∧ (∀ i ∈ atoms, i < c.atoms.length) ∧
        ∃ merged, mergeAtoms c atoms = .ok merged ∧
          s.replace c1 c ((keepFirst merged atoms).withSuffix (Decimal.render c1)) = s' := by
  simp only [factorize, refuse, ↓Outcome.guard_eq_ok, Outcome.bind_eq_ok, Outcome.pure_eq_ok,
    State.clause_eq_ok, ← exists_mapM_atomOf, not_lt, exists_and_right, ClauseSet.get?, keepFirst]

/-- Merging is accepted exactly if the atoms of the clause with the given number can be merged. -/
theorem exists_factorize_eq_ok_iff {c1 : Nat} :
    (∃ s', factorize s c1 atoms = .ok s') ↔
      ∃ c, s.clauses.get? c1 = some c ∧ Factorizable c atoms := by
  simp only [factorize_eq_ok]
  constructor
  · rintro ⟨_, hlength, c, hc, hrange, merged, hmerged, -⟩
    obtain ⟨i, rest, rfl⟩ := List.exists_cons_of_length_pos (Nat.zero_lt_of_lt hlength)
    obtain ⟨σs, hσs, -⟩ := exists_stepUnifiers_of_mergeAtoms hmerged
    exact ⟨c, hc, hlength, hrange, isChain_of_mergeAtoms_eq_ok hmerged,
      uniform_negated_of_mergeAtoms hmerged, _, hσs.makesEqual⟩
  · rintro ⟨c, hc, h⟩
    obtain ⟨i, rest, rfl⟩ := List.exists_cons_of_length_pos (Nat.zero_lt_of_lt h.several)
    obtain ⟨t, ht⟩ := h.unifiable
    obtain ⟨merged, hmerged⟩ := exists_mergeAtoms_eq_ok h.inRange h.noRepeat h.sameSign ht
    exact ⟨_, h.several, c, hc, h.inRange, merged, hmerged, rfl⟩

/-- A merge of chosen atoms is accepted exactly if they can be merged. Then the substitutions for
the single pairs, one after the other, are a most general substitution that makes all their
literals equal. Under it one and the same atom stands at all chosen positions, and the atoms that
are chosen behind the first one are dropped. -/
theorem factorization_exact (s : State Relation) (c1 : Nat) (atoms : List Nat) :
    ((∃ s', step s (.factorize c1 atoms) = .ok s') ↔
      ∃ c, s.clauses.get? c1 = some c ∧ Factorizable c atoms) ∧
    ∀ s', step s (.factorize c1 atoms) = .ok s' →
      ∃ c σs a, s.clauses.get? c1 = some c ∧ StepUnifiers c atoms σs ∧
        (composed σs).MakesEqual (c.selected atoms) ∧
        (∀ t : Substitution, t.MakesEqual (c.selected atoms) →
          ∀ u : Term, (u.instantiate (composed σs)).instantiate t = u.instantiate t) ∧
        (∀ i ∈ atoms, (c.instantiate (composed σs)).atoms[i]? = some a) ∧
        s'.clauses = ⟨s.clauses.clauses.set c1
          (((c.instantiate (composed σs)).dropAt atoms.tail).withSuffix (Decimal.render c1))⟩ ∧
        s'.hidden = s.hidden.add c := by
  refine ⟨exists_factorize_eq_ok_iff, fun s' h => ?_⟩
  obtain ⟨hlength, c, hc, hrange, merged, hmerged, rfl⟩ := factorize_eq_ok.mp h
  obtain ⟨i, rest, rfl⟩ := List.exists_cons_of_length_pos (Nat.zero_lt_of_lt hlength)
  obtain ⟨σs, hσs, rfl⟩ := exists_stepUnifiers_of_mergeAtoms hmerged
  obtain ⟨a, ha⟩ : ∃ a, c.atoms[i]? = some a :=
    ⟨_, List.getElem?_eq_getElem (hrange i List.mem_cons_self)⟩
  have hone : ∀ k ∈ i :: rest,
      (c.instantiate (composed σs)).atoms[k]? = some (a.instantiate (composed σs)) := by
    intro k hk
    obtain ⟨b, hb⟩ : ∃ b, c.atoms[k]? = some b := ⟨_, List.getElem?_eq_getElem (hrange k hk)⟩
    have hmema : a ∈ c.selected (i :: rest) := Clause.mem_selected.mpr ⟨i, List.mem_cons_self, ha⟩
    have hmemb : b ∈ c.selected (i :: rest) := Clause.mem_selected.mpr ⟨k, hk, hb⟩
    have hlit : b.lit.instantiate (composed σs) = a.lit.instantiate (composed σs) :=
      hσs.makesEqual b hmemb a hmema
    have hsign : b.negated = a.negated := uniform_negated_of_mergeAtoms hmerged b hmemb a hmema
    rw [Clause.instantiate, List.getElem?_map, hb, Option.map_some, Atom.instantiate,
      Atom.instantiate, hlit, hsign]
  refine ⟨c, σs, _, hc, hσs, hσs.makesEqual, fun t ht => hσs.general ht, hone, ?_, rfl⟩
  rw [State.replace, keepFirst_eq_dropAt (by simp) hone]

/-- The clause `{R(X), R(f(Y)), Q(X), R(f(c))}`. -/
def threeOfFour : Clause Relation :=
  ⟨[⟨⟨"R", [.var "X"]⟩, false⟩, ⟨⟨"R", [.app "f" [.var "Y"]]⟩, false⟩, ⟨⟨"Q", [.var "X"]⟩, false⟩,
    ⟨⟨"R", [.app "f" [.const "c"]]⟩, false⟩]⟩

/-- The first two atoms of the clause and its last one are merged: first `X` becomes `f(Y)`, then
`Y` becomes `c`, and `{R(f(c)), Q(f(c))}` is left. -/
theorem threeOfFour_factorized :
    Factorizable threeOfFour [0, 1, 3] ∧
      ∃ s', step (.initial ⟨[threeOfFour]⟩ false) (.factorize 0 [0, 1, 3]) = .ok s' ∧
        s'.clauses = ⟨[⟨[⟨⟨"R", [.app "f" [.const "c"]]⟩, false⟩,
          ⟨⟨"Q", [.app "f" [.const "c"]]⟩, false⟩]⟩]⟩ ∧
        ∃ σs a, StepUnifiers threeOfFour [0, 1, 3] σs ∧
          (∀ i ∈ [0, 1, 3], (threeOfFour.instantiate (composed σs)).atoms[i]? = some a) ∧
          ∀ t : Substitution, t.MakesEqual (threeOfFour.selected [0, 1, 3]) →
            ∀ u : Term, (u.instantiate (composed σs)).instantiate t = u.instantiate t := by
  have hstep : step (.initial ⟨[threeOfFour]⟩ false) (.factorize 0 [0, 1, 3]) =
      .ok ⟨⟨[⟨[⟨⟨"R", [.app "f" [.const "c"]]⟩, false⟩,
        ⟨⟨"Q", [.app "f" [.const "c"]]⟩, false⟩]⟩]⟩, ⟨[threeOfFour]⟩, false, some 0, none⟩ := by cbv
  obtain ⟨haccepted, hresult⟩ :=
    factorization_exact (.initial ⟨[threeOfFour]⟩ false) 0 [0, 1, 3]
  obtain ⟨c, hc, hfactorizable⟩ := haccepted.mp ⟨_, hstep⟩
  obtain ⟨d, σs, a, hd, hσs, -, hgeneral, hone, -, -⟩ := hresult _ hstep
  cases hc
  cases hd
  exact ⟨hfactorizable, _, hstep, rfl, σs, a, hσs, hone, hgeneral⟩

end Resolution.FirstOrder

end Deduction
