import Deduction.NonClausal.Basic
import Deduction.Proofs.Formula.Symbols
import Deduction.Proofs.Legible
import Deduction.Proofs.Rules
import Deduction.Proofs.Tree.Closing
import Mathlib.Data.List.Nodup
import Mathlib.Data.List.Perm.Subperm

/-!
# What a move in a non-clausal tableau does

An accepted move extends the open branches through a node by what its formula says,
with a new variable or a new symbol for a quantifier, or it instantiates all formulas
and closes a leaf against a relation above it, or it takes moves back by replaying
those before.
-/

namespace Deduction.NonClausal

open Deduction.Tree

variable {s s' : State}

/-- A number whose name is free is found if there is one in reach. -/
theorem firstFree_notMem {used : List String} {name : Nat → String} {tries n k : Nat}
    (hle : n ≤ k) (hlt : k ≤ n + tries) (hk : name k ∉ used) :
    name (firstFree used name tries n) ∉ used := by
  induction tries generalizing n with
  | zero =>
    obtain rfl : n = k := by omega
    exact hk
  | succ tries ih =>
    rw [firstFree]
    split
    next hused =>
      have hne : n ≠ k := by
        rintro rfl
        exact hk hused
      exact ih (by omega) (by omega)
    next hfree => exact hfree

/-- Among one more names than are in use one is free. -/
theorem firstFree_length_notMem (used : List String) {name : Nat → String}
    (hname : Function.Injective name) (n : Nat) :
    name (firstFree used name used.length n) ∉ used := by
  by_contra hused
  have hall : ((List.range' n (used.length + 1)).map name) ⊆ used := by
    intro x hx
    obtain ⟨k, hk, rfl⟩ := List.mem_map.mp hx
    rw [List.mem_range'_1] at hk
    by_contra hfree
    exact firstFree_notMem hk.1 (by omega) hfree hused
  have hnodup : ((List.range' n (used.length + 1)).map name).Nodup :=
    List.Nodup.map hname List.nodup_range'
  have hlength := (List.subperm_of_subset hnodup hall).length_le
  rw [List.length_map, List.length_range'] at hlength
  omega

/-- How a rule extends a branch. -/
inductive Expansion where
  /-- By two formulas, one below the other. -/
  | chain (f g : Formula)
  /-- By two formulas side by side. -/
  | fork (f g : Formula)
  /-- By one formula. -/
  | one (f : Formula)

namespace Expansion

/-- The tree with one leaf extended. -/
def grow : Expansion → Tree Label → Nat → Tree Label
  | chain f g => State.growChain f g
  | fork f g => State.growFork f g
  | one f => State.growOne f

/-- The formulas that are added. -/
def formulas : Expansion → List Formula
  | chain f g => [f, g]
  | fork f g => [f, g]
  | one f => [f]

/-- Whether all formulas that are added on some side have a property. -/
def SomeSide (P : Formula → Prop) : Expansion → Prop
  | chain f g => P f ∧ P g
  | fork f g => P f ∨ P g
  | one f => P f

end Expansion

/-- The rules: what a formula is decomposed into. A quantifier gets a variable or a symbol that
occurs nowhere in the tableau. -/
inductive Rule (s : State) : Formula → Expansion → Prop
  | alpha (f g : Formula) : Rule s (.and f g) (.chain f g)
  | beta (f g : Formula) : Rule s (.or f g) (.fork f g)
  | gamma (x : String) (body : Formula) (k : Nat)
      (new : ∀ f ∈ s.formulas, x ++ "_" ++ Decimal.render k ∉ f.varNames) :
      Rule s (.all x body) (.one (.instantiateBound x body (.var (x ++ "_" ++ Decimal.render k))))
  | delta (x : String) (body : Formula) (k : Nat)
      (new : ∀ f ∈ s.formulas, "sk" ++ Decimal.render k ∉ f.symbols) :
      Rule s (.ex x body) (.one (.instantiateBound x body
        (.skolem ("sk" ++ Decimal.render k) (Formula.ex x body).freeVars)))

/-- A move that decomposes a formula on all open branches through its node. -/
structure Expands (s s' : State) (f : Formula) (e : Expansion) : Prop where
  /-- The formula is decomposed by a rule. -/
  rule : Rule s f e
  /-- The open leaves under the node of the formula are extended. -/
  tree : ∃ id n leaves, s.tree.get? id = some n ∧ n.label.formula = f ∧
    openLeaves s.tree id = some leaves ∧ s'.tree = leaves.foldl e.grow s.tree
  /-- The formula to refute stays. -/
  formula : s'.formula = s.formula
  /-- Moves are kept or not, as before. -/
  backtracking : s'.backtracking = s.backtracking
  /-- The moves made so far stay. -/
  history : s'.history = s.history

theorem node_eq_ok {id : Nat} {n : Node Label} :
    s.node id = .ok n ↔ id < UInt32.size ∧ s.tree.get? id = some n := by
  rw [State.node, Outcome.ofLookup_eq_ok, Arena.named?_eq_some]

private theorem openLeaves_of_targets {id : Nat} {f : Formula} {leaves : List Nat}
    (h : s.targets id f = .ok leaves) : openLeaves s.tree id = some leaves := by
  simp only [State.targets, refuse, Outcome.bind_eq_ok, Outcome.ofReference_eq_ok] at h
  obtain ⟨ids, hids, h⟩ := h
  split at h <;> cases h
  exact hids

/-- A rule that is applied to a node decomposes its formula. -/
theorem Expands.intro {id : Nat} {n : Node Label} {f : Formula} {e : Expansion}
    {leaves : List Nat} (hrule : Rule s f e) (hn : s.node id = .ok n) (hf : n.label.formula = f)
    (hleaves : s.targets id n.label.formula = .ok leaves) (variableCount symbolCount : Nat) :
    Expands s { s with tree := leaves.foldl e.grow s.tree, variableCount, symbolCount } f e :=
  ⟨hrule, ⟨id, n, leaves, (node_eq_ok.mp hn).2, hf, openLeaves_of_targets hleaves, rfl⟩,
    rfl, rfl, rfl⟩

theorem expands_of_alpha {id : Nat} (h : s.alpha id = .ok s') :
    ∃ f e, Expands s s' f e := by
  obtain ⟨n, hn, h⟩ := Outcome.bind_eq_ok.mp h
  split at h
  next f g hf =>
    obtain ⟨leaves, hleaves, h⟩ := Outcome.bind_eq_ok.mp h
    cases h
    exact ⟨_, _, .intro (.alpha f g) hn hf hleaves _ _⟩
  · cases h

theorem expands_of_beta {id : Nat} (h : s.beta id = .ok s') :
    ∃ f e, Expands s s' f e := by
  obtain ⟨n, hn, h⟩ := Outcome.bind_eq_ok.mp h
  split at h
  next f g hf =>
    obtain ⟨leaves, hleaves, h⟩ := Outcome.bind_eq_ok.mp h
    cases h
    exact ⟨_, _, .intro (.beta f g) hn hf hleaves _ _⟩
  · cases h

theorem expands_of_gamma {id : Nat} (h : s.gamma id = .ok s') :
    ∃ f e, Expands s s' f e := by
  obtain ⟨n, hn, h⟩ := Outcome.bind_eq_ok.mp h
  split at h
  next x body hf =>
    obtain ⟨leaves, hleaves, h⟩ := Outcome.bind_eq_ok.mp h
    obtain ⟨k, hk, h⟩ := Outcome.bind_eq_ok.mp h
    cases h
    refine ⟨_, _, .intro (.gamma x body k fun f hf hmem => ?_) hn hf hleaves _ _⟩
    have hnew := firstFree_length_notMem (s.formulas.flatMap Formula.varNames)
      (Decimal.numbered_injective (x ++ "_")) (s.variableCount + 1)
    rw [Outcome.eq_of_ofCount hk] at hnew
    exact hnew (List.mem_flatMap.mpr ⟨f, hf, hmem⟩)
  · cases h

theorem expands_of_delta {id : Nat} (h : s.delta id = .ok s') :
    ∃ f e, Expands s s' f e := by
  obtain ⟨n, hn, h⟩ := Outcome.bind_eq_ok.mp h
  split at h
  next x body hf =>
    obtain ⟨leaves, hleaves, h⟩ := Outcome.bind_eq_ok.mp h
    obtain ⟨k, hk, h⟩ := Outcome.bind_eq_ok.mp h
    cases h
    refine ⟨_, _, .intro (.delta x body k fun f hf hmem => ?_) hn hf hleaves _ _⟩
    have hnew := firstFree_length_notMem (s.formulas.flatMap Formula.symbols)
      (Decimal.numbered_injective "sk") (s.symbolCount + 1)
    rw [Outcome.eq_of_ofCount hk] at hnew
    exact hnew (List.mem_flatMap.mpr ⟨f, hf, hmem⟩)
  · cases h

section Record

variable (s : State) (m : Move)

@[simp] theorem tree_record : (s.record m).tree = s.tree := rfl

@[simp] theorem formula_record : (s.record m).formula = s.formula := rfl

@[simp] theorem backtracking_record : (s.record m).backtracking = s.backtracking := rfl

@[simp] theorem formulas_record : (s.record m).formulas = s.formulas := rfl

end Record

/-- One formula is a relation and the other one a negated relation. -/
def Opposed (l r : Relation) (f g : Formula) : Prop :=
  f = .not (.rel l) ∧ g = .rel r ∨ f = .rel l ∧ g = .not (.rel r)

theorem complementary_eq_ok {l r : Relation} {f g : Formula} :
    complementary f g = .ok (l, r) ↔ Opposed l r f g := by
  constructor
  · intro h
    rw [complementary.eq_def] at h
    split at h <;> cases h
    · exact Or.inl ⟨rfl, rfl⟩
    · exact Or.inr ⟨rfl, rfl⟩
  · rintro (⟨rfl, rfl⟩ | ⟨rfl, rfl⟩) <;> rfl

/-- Opposed formulas stay opposed when they are instantiated. -/
theorem Opposed.instantiate {l r : Relation} {f g : Formula} (h : Opposed l r f g)
    (σ : Substitution) :
    Opposed (l.instantiate σ) (r.instantiate σ) (f.instantiate σ) (g.instantiate σ) := by
  rcases h with ⟨rfl, rfl⟩ | ⟨rfl, rfl⟩
  · exact Or.inl ⟨rfl, rfl⟩
  · exact Or.inr ⟨rfl, rfl⟩

theorem Opposed.unique {l r l' r' : Relation} {f g : Formula} (h : Opposed l r f g)
    (h' : Opposed l' r' f g) : l = l' ∧ r = r' := by
  rcases h with ⟨rfl, rfl⟩ | ⟨rfl, rfl⟩ <;> rcases h' with ⟨hf, hg⟩ | ⟨hf, hg⟩ <;> cases hf <;>
    cases hg <;> exact ⟨rfl, rfl⟩

/-- A move that closes a leaf against a node above it, under a substitution. -/
structure Closes (s s' : State) (leaf partner : Nat)
    (assignment : Option (KeyMap String String)) (σ : Substitution) : Prop where
  /-- The leaf is named by an id. -/
  named : leaf < UInt32.size
  /-- An open leaf and a node are opposed, and the substitution, which is the given one or else a
  unifier, makes their relations equal. -/
  relations : ∃ n m l r, s.tree.get? leaf = some n ∧ n.isLeaf = true ∧ n.isClosed = false ∧
    s.tree.get? partner = some m ∧ Opposed l r n.label.formula m.label.formula ∧
    State.closingSubstitution l r assignment = .ok σ ∧ l.instantiate σ = r.instantiate σ
  /-- The node stands above the leaf. -/
  above : Above s.tree partner leaf
  /-- All formulas are instantiated, and the leaf is closed. -/
  tree : closeLeaf ((s.instantiate σ).tree.modify leaf fun n =>
    { n with label := { n.label with closeRef := some partner } }) leaf = some s'.tree
  /-- The formula to refute stays. -/
  formula : s'.formula = s.formula
  /-- Moves are kept or not, as before. -/
  backtracking : s'.backtracking = s.backtracking
  /-- The move is kept with the substitution written out. -/
  history : s'.history =
    keepMove s.backtracking s.history (.close leaf partner (some σ.texts))

theorem exists_closes {leaf partner : Nat} {assignment : Option (KeyMap String String)}
    (h : s.close leaf partner assignment = .ok s') :
    ∃ σ, Closes s s' leaf partner assignment σ := by
  simp only [State.close, refuse, Outcome.bind_eq_ok, Outcome.guard_eq_ok,
    Outcome.ofReference_eq_ok, Outcome.pure_eq_ok, node_eq_ok] at h
  obtain ⟨n, ⟨hnamed, hn⟩, m, ⟨-, hm⟩, hleaf, hopen, found, hfound, habove, ⟨l, r⟩, hopposed,
    σ, hσ, ⟨l', r'⟩, hopposed', hequal, tree, htree, rfl⟩ := h
  have hopposed := complementary_eq_ok.mp hopposed
  obtain ⟨rfl, rfl⟩ := (complementary_eq_ok.mp hopposed').unique (hopposed.instantiate σ)
  obtain rfl : found = true := by simpa using habove
  exact ⟨σ, hnamed, ⟨n, m, l, r, hn, by simpa using hleaf, by simpa using hopen, hm, hopposed, hσ,
    by simpa using hequal⟩, above_of_any_ancestors hfound, htree, rfl, rfl, rfl⟩

theorem Closes.mem_history {leaf partner : Nat} {assignment : Option (KeyMap String String)}
    {σ : Substitution} (h : Closes s s' leaf partner assignment σ) {m : Move}
    (hm : m ∈ s'.history) : m ∈ s.history ∨ m = .close leaf partner (some σ.texts) := by
  rw [h.history] at hm
  exact mem_keepMove hm

theorem step_of_ne {m : Move} (hm : m ≠ .undo) : step s m = advance s m :=
  Rules.stepWithin_of_ne hm _ s

theorem step_close (s : State) (leaf partner : Nat) (assignment : Option (KeyMap String String)) :
    step s (.close leaf partner assignment) = s.close leaf partner assignment :=
  step_of_ne (by simp)

/-- Whether a move decomposes a formula. -/
def Move.Decomposes : Move → Prop
  | .alpha _ | .beta _ | .gamma _ | .delta _ => True
  | .close .. | .undo => False

/-- What an accepted move does unless it takes one back: it decomposes a formula or closes a
leaf. -/
theorem advance_cases {m : Move} (h : advance s m = .ok s') :
    (∃ f e s₁, m.Decomposes ∧ Expands s s₁ f e ∧ s' = s₁.record m) ∨
      ∃ leaf partner assignment σ, m = .close leaf partner assignment ∧
        Closes s s' leaf partner assignment σ := by
  have decompose {next : Outcome State} (hm : m.Decomposes)
      (hnext : ∀ s₁, next = .ok s₁ → ∃ f e, Expands s s₁ f e)
      (h : (do return (← next).record m) = Except.ok s') :
      ∃ f e s₁, m.Decomposes ∧ Expands s s₁ f e ∧ s' = s₁.record m := by
    obtain ⟨s₁, hs₁, hs'⟩ := Outcome.bind_eq_ok.mp h
    obtain ⟨f, e, he⟩ := hnext s₁ hs₁
    exact ⟨f, e, s₁, hm, he, (Outcome.pure_eq_ok.mp hs').symm⟩
  cases m with
  | alpha id => exact Or.inl (decompose trivial (fun _ => expands_of_alpha) h)
  | beta id => exact Or.inl (decompose trivial (fun _ => expands_of_beta) h)
  | gamma id => exact Or.inl (decompose trivial (fun _ => expands_of_gamma) h)
  | delta id => exact Or.inl (decompose trivial (fun _ => expands_of_delta) h)
  | close leaf partner assignment =>
    obtain ⟨σ, hσ⟩ := exists_closes h
    exact Or.inr ⟨leaf, partner, assignment, σ, rfl, hσ⟩
  | undo => cases h

/-- Where to start in order to take a move back: from the tableau itself if no moves have been kept,
and otherwise from the one before the first move. -/
theorem earlier_eq_ok {start : State × List Move} :
    s.earlier = .ok start ↔ s.backtracking = true ∧ start =
      if s.history = [] then (s, []) else (.initial s.formula true, s.history.dropLast) := by
  simp only [State.earlier, refuse, Outcome.guard_eq_ok, Bool.not_eq_true', Bool.not_eq_false,
    List.isEmpty_iff]
  refine and_congr_right fun hback => ?_
  rw [hback]
  split <;> rw [Outcome.pure_eq_ok, eq_comm]

/-- A property of the tableaux for a formula that is kept by the allowed moves. The moves that are
kept in the tableau are allowed as well, since taking one back makes the others again. -/
structure Invariant (f : Formula) (Allowed : Move → Prop) (P : State → Prop) : Prop where
  /-- The property holds before the first move. -/
  initial : ∀ backtracking, P (.initial f backtracking)
  /-- The formula to refute is the given one. -/
  origin : ∀ s, P s → s.formula = f
  /-- The moves made so far are allowed. -/
  history : ∀ s, P s → ∀ m ∈ s.history, Allowed m
  /-- The property is kept when a formula is decomposed. -/
  expand : ∀ s s' g e m, Allowed m → m.Decomposes → Expands s s' g e → P s → P (s'.record m)
  /-- The property is kept when a leaf is closed. -/
  close : ∀ s s' leaf partner assignment σ, Allowed (.close leaf partner assignment) →
    Closes s s' leaf partner assignment σ → P s → P s'

/-- An invariant holds after every run of allowed moves. -/
theorem Invariant.run {f : Formula} {Allowed : Move → Prop} {P : State → Prop}
    (h : Invariant f Allowed P) {moves : List Move} {backtracking : Bool}
    (hmoves : ∀ m ∈ moves, Allowed m)
    (hrun : moves.foldlM step (.initial f backtracking) = .ok s) : P s := by
  refine Rules.run_allowed (fun s s₀ moves hstart hs => ?_) (fun s s' m hm hstep hs => ?_) hmoves
    hrun (h.initial backtracking)
  · obtain ⟨-, heq⟩ := earlier_eq_ok.mp hstart
    split at heq
    · cases heq
      exact ⟨hs, fun _ hm => absurd hm List.not_mem_nil⟩
    · cases heq
      refine ⟨?_, fun m hm => h.history s hs m (List.dropLast_subset _ hm)⟩
      rw [h.origin s hs]
      exact h.initial true
  · rcases advance_cases hstep with ⟨g, e, s₁, hdecomposes, he, rfl⟩ |
      ⟨leaf, partner, assignment, σ, rfl, hc⟩
    · exact h.expand s s₁ g e m hm hdecomposes he hs
    · exact h.close s s' leaf partner assignment σ hm hc hs

end Deduction.NonClausal
