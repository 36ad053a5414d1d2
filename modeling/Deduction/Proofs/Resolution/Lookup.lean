import Deduction.Proofs.Resolution.Clauses
import Deduction.Resolution.FirstOrder
import Deduction.Resolution.Propositional

/-!
# Looking clauses and atoms up again

A move names clauses and atoms by number. Once it is known that they are there, they can
be looked up again without a check, also in the instances that are formed on the way:
an instance has its atoms at the same places. Here each step of a move looks up what it
needs by number, and a number that leads nowhere is an error of its own. No move ends in
it, for such steps do the same as those that carry the atoms along.
-/

namespace Deduction

/-- Computations on a list that succeed where others do can be made after all of those. -/
theorem Outcome.mapM_bind {α β γ : Type} {f : α → Outcome β} {g : β → Outcome γ} {xs : List α}
    (h : ∀ x ∈ xs, ∀ y, f x = .ok y → ∃ z, g y = .ok z) :
    (xs.mapM fun x => f x >>= g) = xs.mapM f >>= fun ys => ys.mapM g := by
  induction xs with
  | nil => rfl
  | cons x xs ih =>
    have ih := ih fun x' hx' => h x' (List.mem_cons_of_mem x hx')
    rw [List.mapM_cons, List.mapM_cons, ih]
    cases hx : f x with
    | error e => rfl
    | ok y =>
      obtain ⟨z, hz⟩ := h x List.mem_cons_self y hx
      cases hxs : xs.mapM f with
      | error e =>
        simp only [Outcome.ok_bind, hz]
        rfl
      | ok ys =>
        simp only [Outcome.ok_bind, hz, pure_bind, List.mapM_cons]

namespace Resolution

variable {L : Type}

/-- The atom with a number in a clause in which it must be. -/
def atomAt (c : Clause L) (i : Nat) : Outcome (Atom L) := .ofReference c.atoms[i]?

theorem atomAt_eq_atomOf [Literal L] {c : Clause L} {i : Nat} (h : i < c.atoms.length) :
    atomAt c i = State.atomOf c i := by
  rw [atomAt, State.atomOf, List.getElem?_eq_getElem h]
  rfl

/-- Put a clause in the place of the one with a number, which must be there. -/
def State.replaceAt (s : State L) (id : Nat) (new : Clause L) : Outcome (State L) := do
  let old ← Outcome.ofReference (s.clauses.get? id)
  return s.replace id old new

theorem replaceAt_eq {s : State L} {id : Nat} {c : Clause L} (h : s.clause id = .ok c)
    (new : Clause L) : s.replaceAt id new = .ok (s.replace id c new) := by
  have hget : s.clauses.get? id = some c := State.clause_eq_ok.mp h
  rw [State.replaceAt, hget]
  rfl

/-- A side premiss and the numbers of the atoms of the main premiss and of the side premiss. -/
structure Choice (L : Type) where
  /-- The number of the atom in the main premiss. -/
  index : Nat
  /-- The side premiss. -/
  clause : Clause L
  /-- The number of the atom in the side premiss. -/
  sideIndex : Nat

/-- The side premiss with the chosen atoms, which must be there. -/
def Choice.premiss (main : Clause L) (side : Choice L) : Outcome (Premiss L) := do
  let mainAtom ← atomAt main side.index
  let sideAtom ← atomAt side.clause side.sideIndex
  return ⟨side.index, mainAtom, side.clause, sideAtom⟩

/-- Choose a side premiss for an atom of the main premiss. Both atoms are checked but not kept. -/
def choose [Literal L] (s : State L) (main : Clause L) (entry : Nat × Nat × Nat) :
    Outcome (Choice L) := do
  let (index, side, sideIndex) := entry
  let _ ← State.atomOf main index
  let _ ← s.atom side sideIndex
  return ⟨index, ← s.clause side, sideIndex⟩

/-- The main premiss of a hyper resolution and the choices of its side premisses. -/
def choices [Literal L] (s : State L) (main : Nat) (atoms : KeyMap Nat (Nat × Nat)) :
    Outcome (Clause L × List (Choice L)) := do
  if atoms.entries.isEmpty then refuse .noSidePremisses
  let mainClause ← s.clause main
  return (mainClause, ← atoms.entries.mapM (choose s mainClause))

section Premisses

variable [Literal L] {s : State L} {main : Clause L} {entry : Nat × Nat × Nat}

/-- Atoms that have been checked are there. -/
theorem premiss_eq_of_atomOf {c : Clause L} {i j : Nat} {a b : Atom L}
    (ha : State.atomOf main i = .ok a) (hb : State.atomOf c j = .ok b) :
    Choice.premiss main ⟨i, c, j⟩ = .ok ⟨i, a, c, b⟩ := by
  rw [Choice.premiss, atomAt, atomAt, State.atomOf_eq_ok.mp ha,
    State.atomOf_eq_ok.mp hb]
  rfl

private theorem exists_premiss_of_choose {side : Choice L} (h : choose s main entry = .ok side) :
    ∃ p, side.premiss main = .ok p := by
  simp only [choose, State.atom, Outcome.bind_eq_ok, Outcome.pure_eq_ok] at h
  obtain ⟨a, ha, b, ⟨c, hc, hb⟩, c', hc', rfl⟩ := h
  cases hc.symm.trans hc'
  exact ⟨_, premiss_eq_of_atomOf ha hb⟩

/-- Choosing a side premiss and looking its atoms up is the same as keeping them. -/
theorem choose_bind_premiss (s : State L) (main : Clause L) (entry : Nat × Nat × Nat) :
    (choose s main entry >>= Choice.premiss main) = do
      let a ← State.atomOf main entry.1
      let c ← s.clause entry.2.1
      let b ← State.atomOf c entry.2.2
      return ⟨entry.1, a, c, b⟩ := by
  rw [choose, State.atom]
  cases ha : State.atomOf main entry.1 with
  | error e => rfl
  | ok a =>
    cases hc : s.clause entry.2.1 with
    | error e => rfl
    | ok c =>
      simp only [Outcome.ok_bind]
      cases hb : State.atomOf c entry.2.2 with
      | error e => rfl
      | ok b => exact premiss_eq_of_atomOf ha hb

theorem premisses_eq_choices (s : State L) (main : Nat) (atoms : KeyMap Nat (Nat × Nat)) :
    premisses s main atoms = choices s main atoms >>= fun (c, sides) => do
      return (c, ← sides.mapM (Choice.premiss c)) := by
  rw [premisses, choices]
  split
  · rfl
  · cases s.clause main with
    | error e => rfl
    | ok c =>
      have hsides : (atoms.entries.mapM fun entry => choose s c entry >>= Choice.premiss c) = _ :=
        Outcome.mapM_bind fun _ _ _ => exists_premiss_of_choose
      simp only [choose_bind_premiss] at hsides
      simp only [Outcome.ok_bind, bind_assoc, pure_bind]
      rw [hsides, bind_assoc]

end Premisses

/-- The resolvent of a main premiss with side premisses whose atoms are looked up. -/
def hyperResolventAt [DecidableEq L] [Literal L] (main : Clause L) (sides : List (Choice L)) :
    Outcome (Clause L) := do
  hyperResolvent main (← sides.mapM (Choice.premiss main))

namespace Propositional

/-- Resolve a main premiss with side premisses, looking their atoms up. -/
def hyperAt (s : State String) (main : Nat) (atoms : KeyMap Nat (Nat × Nat)) :
    Outcome (State String) := do
  let (mainClause, sides) ← choices s main atoms
  return s.push (← hyperResolventAt mainClause sides)

/-- Merge the repeated atoms of a clause, looking it up twice. -/
def factorizeAt (s : State String) (c1 : Nat) : Outcome (State String) := do
  let c ← s.clause c1
  if !c.isFactorizable then refuse .nothingToFactorize
  s.replaceAt c1 c.factorized

/-- Make a move, looking clauses and atoms up where they are needed. -/
def stepAt (state : State String) (m : Move) : Outcome (State String) :=
  let s := { state with status := none }
  match m with
  | .hyper main atoms => hyperAt s main atoms
  | .factorize c1 _ => factorizeAt s c1
  | m => step state m

theorem hyperAt_eq (s : State String) (main : Nat) (atoms : KeyMap Nat (Nat × Nat)) :
    hyperAt s main atoms = hyper s main atoms := by
  rw [hyper, hyperAt, premisses_eq_choices]
  simp only [hyperResolventAt, bind_assoc, pure_bind]

theorem factorizeAt_eq (s : State String) (c1 : Nat) : factorizeAt s c1 = factorize s c1 := by
  rw [factorizeAt, factorize]
  cases hc : s.clause c1 with
  | error e => rfl
  | ok c =>
    simp only [Outcome.ok_bind, replaceAt_eq hc]
    rfl

theorem stepAt_eq (state : State String) (m : Move) : stepAt state m = step state m := by
  cases m with
  | hyper main atoms => exact hyperAt_eq _ main atoms
  | factorize c1 atoms => exact factorizeAt_eq _ c1
  | resolve | resolveUnify | resolveCustom | instantiate | hide | reveal => rfl

end Propositional

namespace FirstOrder

/-- The instance of a choice of a side premiss: the numbers of the atoms stay. -/
def instantiateChoice (σ : Substitution) (side : Choice Relation) : Choice Relation :=
  { side with clause := side.clause.instantiate σ }

/-- Resolve a main premiss with side premisses under one substitution, looking their atoms up
before and after instantiating. -/
def hyperAt (s : State Relation) (main : Nat) (atoms : KeyMap Nat (Nat × Nat)) :
    Outcome (State Relation) := do
  let (mainClause, sides) ← choices s main atoms
  let premisses ← sides.mapM (Choice.premiss mainClause)
  match unifyAll (premisses.map fun side => (side.mainAtom.lit, side.sideAtom.lit)) with
  | .error e => refuse (.premissesNotUnifiable mainClause.render e)
  | .ok σ =>
    let c ← hyperResolventAt (mainClause.instantiate σ) (sides.map (instantiateChoice σ))
    return s.push (c.withSuffix (Decimal.render s.clauses.size))

/-- Make the chosen atoms of a clause equal, looking each two up in the instance reached so far. -/
def mergeAt (c : Clause Relation) : List Nat → Outcome (Clause Relation)
  | i :: j :: rest => do
    if i = j then refuse .repeatedAtom
    let first ← atomAt c i
    let second ← atomAt c j
    if first.negated ≠ second.negated then refuse (.differentSigns first.render second.render)
    let σ ← unifier first.lit second.lit
    mergeAt (c.instantiate σ) (j :: rest)
  | _ => .ok c

/-- Make chosen atoms of a clause equal and keep only the first of them, looking it up in the
instance and the clause once more in the proof. -/
def factorizeAt (s : State Relation) (c1 : Nat) (atoms : List Nat) :
    Outcome (State Relation) := do
  if atoms.length < 2 then refuse .tooFewAtoms
  let c ← s.clause c1
  let _ ← atoms.mapM (State.atomOf c)
  let merged ← mergeAt c atoms
  let kept ← atomAt merged (← Outcome.ofReference atoms.head?)
  let remaining := merged.atoms.zipIdx.filter fun (a, i) =>
    !(atoms.tail.contains i && kept = a)
  let result : Clause Relation := ⟨remaining.map Prod.fst⟩
  s.replaceAt c1 (result.withSuffix (Decimal.render c1))

/-- Make a move, looking clauses and atoms up where they are needed. -/
def stepAt (state : State Relation) (m : Move) : Outcome (State Relation) :=
  let s := { state with status := none }
  match m with
  | .hyper main atoms => hyperAt s main atoms
  | .factorize c1 atoms => factorizeAt s c1 atoms
  | m => step state m

/-- An instance has its atoms at the same places. -/
theorem premiss_instantiate {main : Clause Relation} {side : Choice Relation} {p : Premiss Relation}
    (h : side.premiss main = .ok p) (σ : Substitution) :
    (instantiateChoice σ side).premiss (main.instantiate σ) = .ok (instantiatePremiss σ p) := by
  simp only [Choice.premiss, atomAt, Outcome.bind_eq_ok, Outcome.ofReference_eq_ok,
    Outcome.pure_eq_ok] at h
  obtain ⟨a, ha, b, hb, rfl⟩ := h
  simp only [Choice.premiss, instantiateChoice, atomAt, Clause.instantiate, List.getElem?_map, ha,
    hb]
  rfl

private theorem mapM_premiss_instantiate {main : Clause Relation} {sides : List (Choice Relation)}
    {ps : List (Premiss Relation)} (h : sides.mapM (Choice.premiss main) = .ok ps)
    (σ : Substitution) :
    (sides.map (instantiateChoice σ)).mapM (Choice.premiss (main.instantiate σ)) =
      .ok (ps.map (instantiatePremiss σ)) := by
  induction sides generalizing ps with
  | nil =>
    cases h
    rfl
  | cons side sides ih =>
    simp only [List.mapM_cons, Outcome.bind_eq_ok, Outcome.pure_eq_ok] at h
    obtain ⟨p, hp, ps, hps, rfl⟩ := h
    rw [List.map_cons, List.mapM_cons, premiss_instantiate hp σ, ih hps]
    rfl

theorem hyperAt_eq (s : State Relation) (main : Nat) (atoms : KeyMap Nat (Nat × Nat)) :
    hyperAt s main atoms = hyper s main atoms := by
  rw [hyper, hyperAt, premisses_eq_choices]
  cases choices s main atoms with
  | error e => rfl
  | ok found =>
    obtain ⟨c, sides⟩ := found
    simp only [Outcome.ok_bind, bind_assoc, pure_bind]
    cases hps : sides.mapM (Choice.premiss c) with
    | error e => rfl
    | ok ps =>
      simp only [Outcome.ok_bind]
      cases unifyAll (ps.map fun side => (side.mainAtom.lit, side.sideAtom.lit)) with
      | error e => rfl
      | ok σ =>
        simp only [hyperResolventAt, mapM_premiss_instantiate hps σ]
        rfl

/-- Atoms that have been checked are there. -/
theorem lt_of_mapM_atomOf {c : Clause Relation} {atoms : List Nat} {found : List (Atom Relation)}
    (h : atoms.mapM (State.atomOf c) = .ok found) {i : Nat} (hi : i ∈ atoms) :
    i < c.atoms.length := by
  obtain ⟨a, ha⟩ := Outcome.exists_of_mapM_eq_ok h hi
  exact (List.getElem?_eq_some_iff.mp (State.atomOf_eq_ok.mp ha)).1

/-- Making atoms equal adds none and drops none. -/
theorem length_of_mergeAtoms {c c' : Clause Relation} {atoms : List Nat}
    (h : mergeAtoms c atoms = .ok c') : c'.atoms.length = c.atoms.length := by
  induction atoms generalizing c with
  | nil =>
    cases h
    rfl
  | cons i rest ih =>
    cases rest with
    | nil =>
      cases h
      rfl
    | cons j rest =>
      simp only [mergeAtoms, refuse, ↓Outcome.guard_eq_ok, Outcome.bind_eq_ok] at h
      obtain ⟨-, first, -, second, -, -, σ, -, h⟩ := h
      exact (ih h).trans (List.length_map _)

theorem mergeAt_eq {c : Clause Relation} {atoms : List Nat}
    (h : ∀ i ∈ atoms, i < c.atoms.length) : mergeAt c atoms = mergeAtoms c atoms := by
  induction atoms generalizing c with
  | nil => rfl
  | cons i rest ih =>
    cases rest with
    | nil => rfl
    | cons j rest =>
      obtain ⟨hi, hrest⟩ := List.forall_mem_cons.mp h
      have hj := hrest j List.mem_cons_self
      have ih (σ : Substitution) : mergeAt (c.instantiate σ) (j :: rest) = _ :=
        ih fun k hk => Nat.lt_of_lt_of_eq (hrest k hk) (List.length_map _).symm
      simp only [mergeAt, mergeAtoms, atomAt_eq_atomOf hi, atomAt_eq_atomOf hj, ih]

theorem factorizeAt_eq (s : State Relation) (c1 : Nat) (atoms : List Nat) :
    factorizeAt s c1 atoms = factorize s c1 atoms := by
  rw [factorizeAt, factorize]
  split
  · rfl
  next hlength =>
    cases hc : s.clause c1 with
    | error e => rfl
    | ok c =>
      simp only [Outcome.ok_bind]
      cases hchecked : atoms.mapM (State.atomOf c) with
      | error e => rfl
      | ok found =>
        have hin : ∀ i ∈ atoms, i < c.atoms.length := fun i hi => lt_of_mapM_atomOf hchecked hi
        simp only [Outcome.ok_bind, mergeAt_eq hin]
        cases hmerged : mergeAtoms c atoms with
        | error e => rfl
        | ok merged =>
          cases atoms with
          | nil => exact absurd Nat.two_pos hlength
          | cons first rest =>
            have hfirst : first < merged.atoms.length :=
              Nat.lt_of_lt_of_eq (hin first List.mem_cons_self) (length_of_mergeAtoms hmerged).symm
            simp only [Outcome.ok_bind, List.head?_cons, Outcome.ofReference, atomAt,
              List.getElem?_eq_getElem hfirst, Option.bind_some, Option.some.injEq,
              replaceAt_eq hc]
            rfl

theorem stepAt_eq (state : State Relation) (m : Move) : stepAt state m = step state m := by
  cases m with
  | hyper main atoms => exact hyperAt_eq _ main atoms
  | factorize c1 atoms => exact factorizeAt_eq _ c1 atoms
  | resolve | resolveUnify | resolveCustom | instantiate | hide | reveal => rfl

end FirstOrder

end Resolution

end Deduction
