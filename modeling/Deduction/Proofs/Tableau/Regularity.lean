import Deduction.Proofs.Grammar.Readable
import Deduction.Proofs.Tableau.Expansion

/-!
# Regular tableaux

A tableau is regular if no branch has the same atom at two of its nodes. A clause that is
added keeps it so exactly if its atoms are new to the branch. Closing a leaf changes no atom
in propositional logic. In first-order logic it replaces variables everywhere, and a tableau
stops being regular exactly if this makes different atoms of a branch the same.
-/

namespace Deduction.Tableau

open Deduction.Tree

variable {L : Type} {t t' : Tree (Label L)} {s s' : State L} {leaf partner : Nat}
  {n : Node (Label L)}

/-- Whether no branch has the same atom at two of its nodes. -/
def Regular (t : Tree (Label L)) : Prop :=
  ∀ k i j a, Above t i k → Above t j k → atomAt t i = some a → atomAt t j = some a → i = j

/-- There is no atom before the first clause is added. -/
theorem not_onBranch_single (ref : Option Nat) (i : Nat) (a : Atom L) :
    ¬ OnBranch (single (⟨none, ref⟩ : Label L)) i a := by
  rintro ⟨j, -, ha⟩
  obtain ⟨n, hn, ha⟩ := Option.bind_eq_some_iff.mp ha
  rw [(eq_of_get?_single hn).2] at ha
  cases ha

theorem regular_single (ref : Option Nat) : Regular (single (⟨none, ref⟩ : Label L)) := by
  intro k i j a hik _ hi _
  exact absurd ⟨i, hik, hi⟩ (not_onBranch_single ref k a)

/-- Only the atoms and the shape of a tree matter. -/
theorem Regular.of_sameShape (h : Regular t) (hshape : SameShape t t')
    (hatom : ∀ i, atomAt t' i = atomAt t i) : Regular t' := by
  intro k i j a hik hjk hi hj
  rw [hatom] at hi hj
  exact h k i j a (hik.of_sameShape hshape.symm) (hjk.of_sameShape hshape.symm) hi hj

section Grown

variable {atoms : List (Atom L)} {a : Atom L} {i k : Nat}

/-- Every atom of a clause that is added stands at a new node below the leaf. -/
theorem exists_new_node (hlt : leaf < t.size) (ha : a ∈ atoms) :
    ∃ k ∈ List.range' t.size atoms.length,
      (growAll t leaf (atoms.map fun a => ⟨some a, none⟩)).get? k =
        some ⟨some leaf, ⟨some a, none⟩, false, []⟩ := by
  obtain ⟨j, hj⟩ := List.getElem?_of_mem ha
  have hlength := (List.getElem?_eq_some_iff.mp hj).1
  refine ⟨t.size + j, List.mem_range'_1.mpr (by omega), get?_growAll_new hlt ?_⟩
  rw [List.getElem?_map, hj, Option.map_some]

/-- The atom at a new node is one of the clause that is added. -/
theorem mem_of_atomAt_new (hlt : leaf < t.size) (hk : t.size ≤ k)
    (ha : atomAt (growAll t leaf (atoms.map fun a => ⟨some a, none⟩)) k = some a) :
    a ∈ atoms := by
  obtain ⟨m, hm, hma⟩ := Option.bind_eq_some_iff.mp ha
  rcases of_get?_growAll hlt hm with ⟨m', hm', -⟩ | ⟨label, hlabel, -, rfl⟩
  · exact absurd (Arena.lt_size_of_get? hm') (Nat.not_lt.mpr hk)
  · obtain ⟨b, hb, rfl⟩ := List.mem_map.mp hlabel
    cases hma
    exact hb

/-- A node above a new one is the new one itself or above the leaf where it was added. -/
theorem above_growAll_new {labels : List (Label L)} (ht : Rooted t) (hlt : leaf < t.size)
    (hk : t.size ≤ k) (hik : Above (growAll t leaf labels) i k) : i = k ∨ Above t i leaf := by
  cases hik with
  | here => exact Or.inl rfl
  | up hm hp hi =>
    rcases of_get?_growAll hlt hm with ⟨m, hm, -⟩ | ⟨label, -, -, rfl⟩
    · exact absurd (Arena.lt_size_of_get? hm) (Nat.not_lt.mpr hk)
    · cases hp
      exact Or.inr (hi.before ht (extends_growAll labels hlt).keepsParents hlt)

/-- A tree stays regular when a clause is added exactly if the atoms of the clause are new to the
branch. -/
theorem regular_growAll_iff (ht : Rooted t) (hn : t.get? leaf = some n)
    (hleaf : n.isLeaf = true) :
    Regular (growAll t leaf (atoms.map fun a => ⟨some a, none⟩)) ↔
      Regular t ∧ ∀ a ∈ atoms, ¬ OnBranch t leaf a := by
  have hlt := Arena.lt_size_of_get? hn
  have hext := extends_growAll (atoms.map fun a => (⟨some a, none⟩ : Label L)) hlt
  have hgoes := goesOn_growAll hn hleaf (atoms.map fun a => (⟨some a, none⟩ : Label L))
  have hold {i k : Nat} (hi : Above t i k) (hk : k < t.size) :=
    hgoes.atomAt_eq (Nat.lt_of_le_of_lt (hi.le ht) hk)
  constructor
  · intro h
    refine ⟨fun k i j a hik hjk hi hj => ?_, ?_⟩
    · exact h k i j a (hik.mono hext) (hjk.mono hext) (atomAt_mono hext hi) (atomAt_mono hext hj)
    · rintro a ha ⟨j, hj, hja⟩
      obtain ⟨k, hk, hnew⟩ := exists_new_node hlt ha
      have hkj : k = j := h k k j a .here (.up hnew rfl (hj.mono hext)) (atomAt_of_get? hnew)
        (atomAt_mono hext hja)
      have hle := hj.le ht
      have hge := (List.mem_range'_1.mp hk).1
      omega
  · rintro ⟨h, hnew⟩ k i j a hik hjk hi hj
    by_cases hk : k < t.size
    · have hik := hik.before ht hext.keepsParents hk
      have hjk := hjk.before ht hext.keepsParents hk
      exact h k i j a hik hjk ((hold hik hk).symm.trans hi) ((hold hjk hk).symm.trans hj)
    · -- The branch is the one to the leaf with a new node at its end.
      have hk := Nat.not_lt.mp hk
      rcases above_growAll_new ht hlt hk hik with rfl | hi' <;>
        rcases above_growAll_new ht hlt hk hjk with rfl | hj'
      · rfl
      · have hon : OnBranch t leaf a := ⟨j, hj', (hold hj' hlt).symm.trans hj⟩
        exact absurd hon (hnew a (mem_of_atomAt_new hlt hk hi))
      · have hon : OnBranch t leaf a := ⟨i, hi', (hold hi' hlt).symm.trans hi⟩
        exact absurd hon (hnew a (mem_of_atomAt_new hlt hk hj))
      · exact h leaf i j a hi' hj' ((hold hi' hlt).symm.trans hi) ((hold hj' hlt).symm.trans hj)

end Grown

theorem Expands.regular_iff {c : Clause L} (h : Expands s s' leaf c) (ht : Rooted s.tree) :
    Regular s'.tree ↔ Regular s.tree ∧ ∀ a ∈ c.atoms, ¬ OnBranch s.tree leaf a := by
  obtain ⟨n, hn, hleaf, -⟩ := h.isOpen
  rw [h.eq]
  exact regular_growAll_iff ht hn hleaf

/-- Clauses that are added keep a tableau regular that must be. -/
theorem regular_iff_of_expand [DecidableEq L] [Connectable L] {c : Clause L} (ht : Rooted s.tree)
    (hregular : s.regular = true) (hn : s.node leaf = .ok n)
    (h : s.expand n leaf c = .ok s') : Regular s'.tree ↔ Regular s.tree := by
  have hnew := ((checkRegular_eq_ok ht (node_eq_ok.mp hn).2).mp ((checks_of_expand h).1 hregular)).2
  rw [(expands_of_expand hn h).regular_iff ht]
  exact and_iff_left hnew

theorem Closes.regular_iff (h : Closes s s' leaf partner) (ht : Rooted s.tree) :
    Regular s'.tree ↔ Regular s.tree := by
  obtain ⟨ids, -, hget⟩ := h.exists_get?_eq ht
  have hshape : SameShape s.tree s'.tree := sameShape_of_map hget fun _ _ => ⟨rfl, rfl⟩
  have hatom := h.atomAt_eq ht
  exact ⟨fun h => h.of_sameShape hshape.symm fun i => (hatom i).symm,
    fun h => h.of_sameShape hshape hatom⟩

/-- Whether a replacement of literals makes different atoms of a branch the same. -/
def Identifies (g : L → L) (t : Tree (Label L)) : Prop :=
  ∃ k a b, OnBranch t k a ∧ OnBranch t k b ∧ a ≠ b ∧ a.map g = b.map g

/-- A tableau stays regular when its literals are replaced exactly if no different atoms of a branch
become the same. -/
theorem regular_map_iff (g : L → L) (s : State L) :
    Regular (s.map g).tree ↔ Regular s.tree ∧ ¬ Identifies g s.tree := by
  have hshape : SameShape s.tree (s.map g).tree :=
    sameShape_of_map (get?_map g s) fun _ _ => ⟨rfl, rfl⟩
  have hatom {i : Nat} {a : Atom L} (ha : atomAt s.tree i = some a) :
      atomAt (s.map g).tree i = some (a.map g) := by rw [atomAt_map, ha, Option.map_some]
  constructor
  · intro h
    constructor
    · intro k i j a hik hjk hi hj
      exact h k i j _ (hik.of_sameShape hshape) (hjk.of_sameShape hshape) (hatom hi) (hatom hj)
    · rintro ⟨k, a, b, ⟨i, hik, hi⟩, ⟨j, hjk, hj⟩, hne, heq⟩
      have hij := h k i j _ (hik.of_sameShape hshape) (hjk.of_sameShape hshape) (hatom hi)
        (heq ▸ hatom hj)
      rw [hij, hj] at hi
      exact hne (Option.some.inj hi).symm
  · rintro ⟨h, happart⟩ k i j c hik hjk hi hj
    have hik := hik.of_sameShape hshape.symm
    have hjk := hjk.of_sameShape hshape.symm
    rw [atomAt_map] at hi hj
    obtain ⟨a, ha, hac⟩ := Option.map_eq_some_iff.mp hi
    obtain ⟨b, hb, hbc⟩ := Option.map_eq_some_iff.mp hj
    by_cases hab : a = b
    · exact h k i j a hik hjk ha (hab ▸ hb)
    · exact (happart ⟨k, a, b, ⟨i, hik, ha⟩, ⟨j, hjk, hb⟩, hab, hac.trans hbc.symm⟩).elim

namespace Propositional

variable {s s' : State String} {clauses : ClauseSet String} {kind : Connectedness}
  {regular backtracking manual : Bool} {moves : List Move} {m : Move}

/-- What is asked of clauses stays the same along a run. -/
theorem kind_regular_eq_of_run
    (h : moves.foldlM step (.initial clauses kind regular backtracking manual) = .ok s) :
    s.kind = kind ∧ s.regular = regular :=
  kind_regular_eq_of_fresh_eq
    (fresh_eq_of_run (fun _ _ _ hstep => (advances_of_advance hstep).fresh_eq) h)

/-- A move keeps a tableau regular that must be. -/
theorem regular_advance (hs : Sound clauses s) (hstep : advance s m = .ok s')
    (h : s.regular = true → Regular s.tree) (hregular : s'.regular = true) : Regular s'.tree := by
  rw [(kind_regular_eq_of_fresh_eq (advances_of_advance hstep).fresh_eq).2] at hregular
  cases m with
  | expand id clause =>
    simp only [advance, Outcome.bind_eq_ok, Outcome.pure_eq_ok] at hstep
    obtain ⟨n, hn, c, -, s₁, hs₁, rfl⟩ := hstep
    rw [tree_record, regular_iff_of_expand hs.rooted hregular hn hs₁]
    exact h hregular
  | close leaf partner assignment =>
    simp only [advance, Outcome.bind_eq_ok, Outcome.pure_eq_ok] at hstep
    obtain ⟨s₁, hs₁, rfl⟩ := hstep
    rw [tree_record, (closes_of_close hs₁).regular_iff hs.rooted]
    exact h hregular
  | undo => cases hstep

/-- After every run a tableau that must be regular is. -/
theorem regular_of_run
    (h : moves.foldlM step (.initial clauses kind regular backtracking manual) = .ok s)
    (hregular : s.regular = true) : Regular s.tree := by
  have hrun := sound_and_of_run (fun _ _ _ => advances_of_advance)
    (P := fun s => s.regular = true → Regular s.tree) (fun _ _ _ => regular_single none)
    (fun _ _ _ hstep hs => regular_advance hs hstep) h fun _ => regular_single none
  exact hrun.2 hregular

theorem step_expand_eq {leaf id : Nat} {n : Node (Label String)} {c : Clause String}
    (hnamed : leaf < UInt32.size) (hn : s.tree.get? leaf = some n)
    (hc : s.clauses.get? id = some c) :
    step s (.expand leaf id) =
      (s.expand n leaf c >>= fun s' => pure (s'.record (.expand leaf id))) := by
  rw [step_of_ne (by simp), advance, node_eq_ok.mpr ⟨hnamed, hn⟩, Outcome.ok_bind,
    clause_eq_ok.mpr hc, Outcome.ok_bind]

/-- In a tableau that must be regular, a clause with atoms is refused as irregular at an open leaf
with an id exactly if one of its atoms stands on the branch to the leaf or it has an atom twice.
Only in the first case would the tableau not be regular with the clause. -/
theorem irregular_refusal_iff {leaf id : Nat} {n : Node (Label String)} {c : Clause String}
    (hrun : moves.foldlM step (.initial clauses kind true backtracking manual) = .ok s)
    (hn : s.tree.get? leaf = some n) (hleaf : n.isLeaf = true) (hopen : n.isClosed = false)
    (hc : clauses.get? id = some c) (hne : c.atoms ≠ []) :
    (leaf < UInt32.size → ((∃ atom, step s (.expand leaf id) = refuse (.irregular atom)) ↔
      (∃ a ∈ c.atoms, OnBranch s.tree leaf a) ∨ ¬ c.atoms.Nodup)) ∧
    (Regular (growAll s.tree leaf (c.atoms.map fun a => ⟨some a, none⟩)) ↔
      ∀ a ∈ c.atoms, ¬ OnBranch s.tree leaf a) := by
  have hsound := sound_of_run hrun
  have hregular : s.regular = true := (kind_regular_eq_of_run hrun).2
  constructor
  · intro hnamed
    rw [← expand_eq_irregular_iff hsound.rooted hn hleaf hopen hne hregular,
      step_expand_eq hnamed hn (hsound.kept ▸ hc)]
    cases s.expand n leaf c with
    | error e => rfl
    | ok s' => simp [refuse]
  · rw [regular_growAll_iff hsound.rooted hn hleaf]
    exact and_iff_right (regular_of_run hrun hregular)

/-- The clauses `{a, b}` and `{a}`. -/
def pairAndUnit : ClauseSet String :=
  ⟨[⟨[⟨"a", false⟩, ⟨"b", false⟩]⟩, ⟨[⟨"a", false⟩]⟩]⟩

/-- The tableau for `{a, b}` and `{a}` in which the first clause has been added. -/
def openedPair : State String :=
  { State.initial pairAndUnit .unconnected true false false with
    tree := ⟨[⟨none, ⟨none, none⟩, false, [1, 2]⟩, ⟨some 0, ⟨some ⟨"a", false⟩, none⟩, false, []⟩,
      ⟨some 0, ⟨some ⟨"b", false⟩, none⟩, false, []⟩]⟩
    expansions := 1 }

/-- The second clause is refused below `a`, and is not refused as irregular below `b`. -/
theorem openedPair_refusals :
    [.expand 0 0].foldlM step (.initial pairAndUnit .unconnected true false false) =
      .ok openedPair ∧
    (∃ atom, step openedPair (.expand 1 1) = refuse (.irregular atom)) ∧
    ¬ ∃ atom, step openedPair (.expand 2 1) = refuse (.irregular atom) := by
  have hrun : [.expand 0 0].foldlM step (.initial pairAndUnit .unconnected true false false) =
      .ok openedPair := by cbv
  have hunit : pairAndUnit.get? 1 = some ⟨[⟨"a", false⟩]⟩ := rfl
  have hnode₁ : openedPair.tree.get? 1 = some ⟨some 0, ⟨some ⟨"a", false⟩, none⟩, false, []⟩ := rfl
  have hnode₂ : openedPair.tree.get? 2 = some ⟨some 0, ⟨some ⟨"b", false⟩, none⟩, false, []⟩ := rfl
  have hbelow_a := (irregular_refusal_iff hrun hnode₁ rfl rfl hunit (by simp)).1 (by decide)
  have hbelow_b := (irregular_refusal_iff hrun hnode₂ rfl rfl hunit (by simp)).1 (by decide)
  refine ⟨hrun, hbelow_a.mpr (Or.inl ⟨⟨"a", false⟩, by simp, 1, .here, rfl⟩), fun hrefused => ?_⟩
  rcases hbelow_b.mp hrefused with ⟨a, ha, j, hj, hja⟩ | hrepeated
  · obtain rfl := List.mem_singleton.mp ha
    -- Above `b` there is the root only, which has no atom.
    cases hj with
    | here => simp [atomAt, hnode₂] at hja
    | up hn hp hj =>
      cases hnode₂.symm.trans hn
      cases hp
      cases hj with
      | here => cases hja
      | up hn hp _ =>
        cases hn
        cases hp
  · exact hrepeated (List.nodup_singleton _)

/-- The clauses `{a, a}` and `{¬a, ¬a}`. -/
def doubledUnits : ClauseSet String :=
  ⟨[⟨[⟨"a", false⟩, ⟨"a", false⟩]⟩, ⟨[⟨"a", true⟩, ⟨"a", true⟩]⟩]⟩

/-- No branch would repeat an atom if `{a, a}` or `{¬a, ¬a}` were added at the root, but both are
refused as irregular. So no move at all can be made, although the clauses contradict each other. -/
theorem doubledUnits_refused :
    ∃ s, start { regular := true } "a, a; !a, !a" = .ok s ∧ s.clauses = doubledUnits ∧
      (∀ val, doubledUnits.eval val = false) ∧
      (∀ c ∈ doubledUnits.clauses, (∀ a ∈ c.atoms, ¬ OnBranch s.tree root a) ∧
        Regular (growAll s.tree root (c.atoms.map fun a => ⟨some a, none⟩))) ∧
      step s (.expand root 0) = refuse (.irregular "a") ∧
      step s (.expand root 1) = refuse (.irregular "!a") ∧
      ∀ m s', step s m ≠ .ok s' := by
  have hdoubled : ∀ c ∈ doubledUnits.clauses, ¬ c.atoms.Nodup := by decide
  refine ⟨.initial doubledUnits .unconnected true false false, by decide +kernel, rfl,
    fun val => ?_, fun c _ => ?_, by cbv, by cbv, fun m s' hstep => ?_⟩
  · cases ha : val "a" <;> simp [doubledUnits, ClauseSet.eval, Clause.eval, Atom.eval, ha]
  · have hnew : ∀ a ∈ c.atoms, ¬ OnBranch (single (⟨none, none⟩ : Label String)) root a :=
      fun a _ => not_onBranch_single none root a
    exact ⟨hnew,
      (regular_growAll_iff (linked_single _).toRooted rfl rfl).mpr ⟨regular_single none, hnew⟩⟩
  · cases m with
    | expand id clause =>
      rw [step_of_ne (by simp)] at hstep
      simp only [advance, Outcome.bind_eq_ok] at hstep
      obtain ⟨n, hn, c, hc, s₁, hs₁, -⟩ := hstep
      have hcheck := (checks_of_expand hs₁).1 rfl
      rw [checkRegular_eq_ok (linked_single _).toRooted (node_eq_ok.mp hn).2] at hcheck
      exact hdoubled c (mem_of_clause_eq_ok hc) hcheck.1
    | close leaf partner assignment =>
      rw [step_of_ne (by simp)] at hstep
      simp only [advance, Outcome.bind_eq_ok] at hstep
      obtain ⟨s₁, hs₁, -⟩ := hstep
      obtain ⟨n, m, a, hn, -, -, -, ha, -⟩ := (closes_of_close hs₁).pair
      exact not_onBranch_single none leaf a ⟨leaf, .here, (atomAt_of_get? hn).trans ha⟩
    | undo => cases hstep

end Propositional

namespace FirstOrder

variable {s s' s₀ : State Relation} {clauses : ClauseSet Relation} {kind : Connectedness}
  {backtracking manual : Bool} {moves : List Move} {m : Move}

/-- Whether a move closes a leaf under a substitution that makes different atoms of a branch the
same. -/
def Merges (s : State Relation) : Move → Prop
  | .close leaf partner assignment => ∃ a b σ, s.closePair leaf partner = .ok (a, b) ∧
      closingSubstitution s a b assignment = .ok σ ∧ Identifies (fun r => r.instantiate σ) s.tree
  | _ => False

/-- A move keeps a tableau regular that must be exactly if it merges no atoms. -/
theorem regular_advance_iff (hs : Sound clauses s) (hregular : s.regular = true)
    (hstep : advance s m = .ok s') : Regular s'.tree ↔ Regular s.tree ∧ ¬ Merges s m := by
  cases m with
  | expand id clause =>
    simp only [advance, Outcome.bind_eq_ok, Outcome.pure_eq_ok] at hstep
    obtain ⟨n, hn, c, -, count, -, s₁, hs₁, rfl⟩ := hstep
    rw [tree_record, regular_iff_of_expand hs.rooted hregular hn hs₁]
    exact (and_iff_left not_false).symm
  | close leaf partner assignment =>
    obtain ⟨a, b, σ, s₁, hpair, hσ, hs₁, rfl⟩ := close_eq_ok.mp hstep
    have hmerges : Merges s (.close leaf partner assignment) ↔
        Identifies (fun r => r.instantiate σ) s.tree := by
      constructor
      · rintro ⟨a', b', σ', hpair', hσ', h⟩
        cases hpair.symm.trans hpair'
        cases hσ.symm.trans hσ'
        exact h
      · exact fun h => ⟨a, b, σ, hpair, hσ, h⟩
    have hrooted := (hs.map (replaces_bind σ.apply)).rooted
    rw [tree_record, (closes_of_close hs₁).regular_iff hrooted, regular_map_iff, hmerges]
  | undo => cases hstep

/-- After moves that take none back, a tableau that must be regular is exactly if no move has merged
atoms. -/
theorem regular_direct_run_iff (hs : Sound clauses s₀) (hregular : s₀.regular = true)
    (hdirect : ∀ m ∈ moves, m ≠ .undo) (hrun : moves.foldlM step s₀ = .ok s) :
    Regular s.tree ↔ Regular s₀.tree ∧ ∀ earlier m later t, moves = earlier ++ m :: later →
      earlier.foldlM step s₀ = .ok t → ¬ Merges t m := by
  induction moves generalizing s₀ with
  | nil =>
    cases hrun
    simp
  | cons m moves ih =>
    rw [List.foldlM_cons, Outcome.bind_eq_ok] at hrun
    obtain ⟨s₁, hs₁, hrun⟩ := hrun
    obtain ⟨hm, hdirect⟩ := List.forall_mem_cons.mp hdirect
    have hadvance := (step_of_ne hm).symm.trans hs₁
    have hadvances := advances_of_advance hadvance
    have hkept := (kind_regular_eq_of_fresh_eq hadvances.fresh_eq).2
    rw [Outcome.forall_steps_cons hs₁,
      ih (hs.advance hadvances) (hkept.trans hregular) hdirect hrun,
      regular_advance_iff hs hregular hadvance, and_assoc]

/-- Every atom of a tableau is an atom of a clause with its variables replaced. -/
theorem exists_clause_atom (h : Sound clauses s) {i : Nat} {a : Atom Relation}
    (ha : atomAt s.tree i = some a) :
    ∃ c ∈ clauses.clauses, ∃ b ∈ c.atoms, ∃ σ, a = b.map (Relation.bind σ) := by
  obtain ⟨n, hn, -⟩ := Option.bind_eq_some_iff.mp ha
  have hi : i ≠ root := by
    rintro rfl
    rw [h.bare] at ha
    cases ha
  obtain ⟨p, m, hp, -, hm, hmem⟩ := h.rooted.parent hn hi
  obtain ⟨c, hc, g, ⟨σ, rfl⟩, hatoms⟩ := h.instances p m hm (isLeaf_eq_false_of_mem hmem)
  have hchild : some a ∈ childAtoms s.tree p :=
    List.mem_map.mpr ⟨i, mem_childrenOf.mpr ⟨n, hn, hp⟩, ha⟩
  rw [hatoms, Clause.map, List.map_map] at hchild
  obtain ⟨b, hb, hba⟩ := List.mem_map.mp hchild
  exact ⟨c, hc, b, hb, σ, (Option.some.inj hba).symm⟩

/-- Where the clauses have no variables, a substitution leaves every atom as it is. -/
theorem not_identifies_of_ground (h : Sound clauses s)
    (hground : ∀ c ∈ clauses.clauses, ∀ a ∈ c.atoms, a.lit.vars = []) (τ : String → Term) :
    ¬ Identifies (Relation.bind τ) s.tree := by
  have hfixed {i : Nat} {a : Atom Relation} (ha : atomAt s.tree i = some a) :
      a.map (Relation.bind τ) = a := by
    obtain ⟨c, hc, b, hb, σ, rfl⟩ := exists_clause_atom h ha
    have hbind (σ : String → Term) : b.lit.bind σ = b.lit := by
      rw [Relation.bind_congr (τ := .var), Relation.bind_var]
      simp [hground c hc b hb]
    simp only [Atom.map, hbind]
  rintro ⟨k, a, b, ⟨i, -, hi⟩, ⟨j, -, hj⟩, hne, heq⟩
  rw [hfixed hi, hfixed hj] at heq
  exact hne heq

/-- Where the clauses have no variables, no move merges atoms. -/
theorem not_merges_of_ground (h : Sound clauses s)
    (hground : ∀ c ∈ clauses.clauses, ∀ a ∈ c.atoms, a.lit.vars = []) : ¬ Merges s m := by
  cases m with
  | close leaf partner assignment =>
    rintro ⟨a, b, σ, -, -, hsame⟩
    exact not_identifies_of_ground h hground σ.apply hsame
  | expand id clause => exact not_false
  | undo => exact not_false

/-- A tableau that must be regular can also be reached by a run that takes no move back, and it is
regular exactly if no move of that run closes a leaf under a substitution that makes different atoms
of a branch the same. Where the clauses have no variables, it always is. -/
theorem regular_iff_not_merged (clauses : ClauseSet Relation) (kind : Connectedness)
    (backtracking manual : Bool) :
    (∀ (moves : List Move) s,
      moves.foldlM step (.initial clauses kind true backtracking manual) = .ok s →
      ∃ made : List Move, (∀ m ∈ made, m ≠ .undo) ∧
        made.foldlM step (.initial clauses kind true backtracking manual) = .ok s) ∧
    (∀ (made : List Move) s, (∀ m ∈ made, m ≠ .undo) →
      made.foldlM step (.initial clauses kind true backtracking manual) = .ok s →
      (Regular s.tree ↔ ∀ earlier m later t, made = earlier ++ m :: later →
        earlier.foldlM step (.initial clauses kind true backtracking manual) = .ok t →
        ¬ Merges t m)) ∧
    ((∀ c ∈ clauses.clauses, ∀ a ∈ c.atoms, a.lit.vars = []) →
      ∀ (moves : List Move) s,
        moves.foldlM step (.initial clauses kind true backtracking manual) = .ok s →
        Regular s.tree) := by
  have hdirect (moves : List Move) (s : State Relation)
      (hrun : moves.foldlM step (.initial clauses kind true backtracking manual) = .ok s) :=
    exists_direct_run (fun s s' (h : advance s .undo = .ok s') => by cases h)
      (fun _ _ _ hstep => (advances_of_advance hstep).fresh_eq) rfl hrun
  have hiff (made : List Move) (s : State Relation) (hmade : ∀ m ∈ made, m ≠ .undo)
      (hrun : made.foldlM step (.initial clauses kind true backtracking manual) = .ok s) :=
    (regular_direct_run_iff (sound_initial ..) rfl hmade hrun).trans
      (and_iff_right (regular_single none))
  refine ⟨hdirect, hiff, fun hground moves s hrun => ?_⟩
  obtain ⟨made, hmade, hrun⟩ := hdirect moves s hrun
  refine (hiff made s hmade hrun).mpr fun earlier m later t _ hearlier => ?_
  exact not_merges_of_ground (sound_of_run hearlier) hground

/-- The formula `R(c) ∧ ∀X R(X) ∧ ¬R(c)`. -/
def unitAndGeneral : Formula :=
  .and (.and (.rel ⟨"R", [.const "c"]⟩) (.all "X" (.rel ⟨"R", [.var "X"]⟩)))
    (.not (.rel ⟨"R", [.const "c"]⟩))

/-- Its clauses `{R(c)}`, `{R(X)}` and `{¬R(c)}`. -/
def unitAndInstance : ClauseSet Relation :=
  ⟨[⟨[⟨⟨"R", [.const "c"]⟩, false⟩]⟩, ⟨[⟨⟨"R", [.var "X"]⟩, false⟩]⟩,
    ⟨[⟨⟨"R", [.const "c"]⟩, true⟩]⟩]⟩

/-- The clauses are added below each other, and `¬R(c)` is closed against `R(X)`. -/
def mergingMoves : List Move := [.expand 0 0, .expand 1 1, .expand 2 2, .close 3 2 none]

/-- The tableau after these moves, in which `R(X)` has become `R(c)`. -/
def mergedTableau : State Relation :=
  { State.initial unitAndInstance .unconnected true false false with
    tree := ⟨[⟨none, ⟨none, none⟩, true, [1]⟩,
      ⟨some 0, ⟨some ⟨⟨"R", [.const "c"]⟩, false⟩, none⟩, true, [2]⟩,
      ⟨some 1, ⟨some ⟨⟨"R", [.const "c"]⟩, false⟩, none⟩, true, [3]⟩,
      ⟨some 2, ⟨some ⟨⟨"R", [.const "c"]⟩, true⟩, some 2⟩, true, []⟩]⟩
    expansions := 3 }

theorem mergingMoves_run :
    mergingMoves.foldlM step (.initial unitAndInstance .unconnected true false false) =
      .ok mergedTableau := by
  cbv

theorem not_regular_mergedTableau : ¬ Regular mergedTableau.tree := by
  intro h
  have hsame : 1 = 2 := h 2 1 2 ⟨⟨"R", [.const "c"]⟩, false⟩ (.up rfl rfl .here) .here rfl rfl
  cases hsame

/-- The clauses `{R(c)}` and `{¬R(c)}`. -/
def groundUnits : ClauseSet Relation :=
  ⟨[⟨[⟨⟨"R", [.const "c"]⟩, false⟩]⟩, ⟨[⟨⟨"R", [.const "c"]⟩, true⟩]⟩]⟩

/-- A refutation of them in which a move is taken back. -/
def groundRefutation : List Move := [.expand 0 0, .undo, .expand 0 0, .expand 1 1, .close 2 1 none]

private theorem groundRefutation_closed :
    (groundRefutation.foldlM step (.initial groundUnits .strong true true false) >>=
      State.verdict).toOption.map Verdict.closed = some true := by
  cbv

/-- One of the merging moves merges atoms. The refutation of the clauses without variables ends in
a regular tableau, which can be reached without taking a move back. -/
theorem merging_and_ground_runs :
    (∃ earlier m later t, mergingMoves = earlier ++ m :: later ∧
      earlier.foldlM step (.initial unitAndInstance .unconnected true false false) = .ok t ∧
      Merges t m) ∧
    ∃ s, groundRefutation.foldlM step (.initial groundUnits .strong true true false) = .ok s ∧
      Regular s.tree ∧ ∃ made : List Move, (∀ m ∈ made, m ≠ .undo) ∧
        made.foldlM step (.initial groundUnits .strong true true false) = .ok s := by
  constructor
  · have hiff := (regular_iff_not_merged unitAndInstance .unconnected false false).2.1 mergingMoves
      mergedTableau (by decide) mergingMoves_run
    by_contra hnone
    push Not at hnone
    exact not_regular_mergedTableau (hiff.mpr hnone)
  · obtain ⟨s, v, hs, -, -⟩ := Outcome.exists_of_toOption groundRefutation_closed
    obtain ⟨hdirect, -, hground⟩ := regular_iff_not_merged groundUnits .strong true false
    exact ⟨s, hs, hground (by decide) _ s hs, hdirect _ s hs⟩

/-- A tableau that must be regular and has the same atom at two nodes of a branch is found to be
closed and valid in regular tableaux. -/
theorem irregular_tableau_valid :
    ∃ s₀ s, start { regular := true } "R(c) & \\all X: R(X) & !R(c)" = .ok s₀ ∧
      mergingMoves.foldlM step s₀ = .ok s ∧ s.regular = true ∧ ¬ Regular s.tree ∧
      s.verdict = .ok ⟨true,
        "The proof tree is closed and valid in regular unconnected tableaux " ++
          "without backtracking"⟩ := by
  have hchars : "R(c) & \\all X: R(X) & !R(c)".toList = ['R', '(', 'c', ')', ' ', '&', ' ', '\\',
      'a', 'l', 'l', ' ', 'X', ':', ' ', 'R', '(', 'X', ')', ' ', '&', ' ', '!', 'R', '(', 'c',
      ')'] := by
    rfl
  have hparse : Formula.parse .firstOrder "R(c) & \\all X: R(X) & !R(c)" = .ok unitAndGeneral := by
    rw [Formula.parse_eq_ok, hchars]
    exact ⟨⟨[], by cbv, rfl⟩, by decide⟩
  have hclauses : ClauseSet.ofFirstOrder unitAndGeneral = .ok unitAndInstance := by cbv
  refine ⟨.initial unitAndInstance .unconnected true false false, mergedTableau, ?_,
    mergingMoves_run, rfl, not_regular_mergedTableau, by cbv⟩
  rw [start, ClauseSet.ofFirstOrderText, hparse, Outcome.ofText, Outcome.ok_bind, hclauses]
  rfl

end FirstOrder

end Deduction.Tableau
