import Deduction.Proofs.Rules
import Deduction.Proofs.Substitution
import Deduction.Proofs.Tree.Growth
import Deduction.Tableau.FirstOrder
import Deduction.Tableau.Propositional

/-!
# What a move in a clausal tableau does

An accepted move adds an instance of a clause below an open leaf, or it replaces the
literals of the whole tableau and closes a leaf against its complement above it, or it
takes a move back by making those before it again. In first-order logic a literal is
replaced by an instance of it, in propositional logic by itself.
-/

namespace Deduction

variable {L : Type}

/-- An atom with its literal replaced. -/
def Atom.map (g : L → L) (a : Atom L) : Atom L := ⟨g a.lit, a.negated⟩

/-- A clause with its literals replaced. -/
def Clause.map (g : L → L) (c : Clause L) : Clause L := ⟨c.atoms.map (Atom.map g)⟩

@[simp] theorem Atom.map_id (a : Atom L) : a.map id = a := rfl

theorem Atom.map_complement (g : L → L) (a : Atom L) :
    a.complement.map g = (a.map g).complement := rfl

@[simp] theorem Atom.complement_complement (a : Atom L) : a.complement.complement = a := by
  simp [complement]

theorem Atom.complement_ne (a : Atom L) : a.complement ≠ a := by
  intro h
  have hsign : (!a.negated) = a.negated := congrArg Atom.negated h
  simp at hsign

@[simp] theorem Clause.map_id (c : Clause L) : c.map id = c := by
  simp [map, funext Atom.map_id]

namespace Tableau

open Deduction.Tree

/-- A logic with a notion of instance: the ways in which all literals may be replaced at once. -/
class Replaceable (L : Type) where
  /-- Whether literals may be replaced in this way. -/
  Replaces : (L → L) → Prop
  /-- Literals may be left as they are. -/
  id : Replaces id
  /-- They may be replaced again. -/
  comp : ∀ {f g : L → L}, Replaces f → Replaces g → Replaces (g ∘ f)

/-- A propositional variable has no instance but itself. -/
instance : Replaceable String where
  Replaces g := g = id
  id := rfl
  comp := by
    rintro _ _ rfl rfl
    rfl

/-- A relation is replaced by an instance of it. -/
instance : Replaceable Relation where
  Replaces g := ∃ σ, g = Relation.bind σ
  id := ⟨.var, funext fun r => r.bind_var.symm⟩
  comp := by
    rintro _ _ ⟨σ, rfl⟩ ⟨τ, rfl⟩
    refine ⟨fun x => (σ x).bind τ, funext fun r => ?_⟩
    simp only [Function.comp, Relation.bind, Term.bindList_eq_map, List.map_map]
    exact congrArg _ (List.map_congr_left fun t _ => t.bind_bind)

theorem replaces_bind (σ : String → Term) : Replaceable.Replaces (Relation.bind σ) := ⟨σ, rfl⟩

/-- A label with the literal of its atom replaced. -/
def Label.map (g : L → L) (l : Label L) : Label L := { l with atom := l.atom.map (Atom.map g) }

/-- A tableau with all its literals replaced. -/
def State.map (g : L → L) (s : State L) : State L :=
  { s with tree := mapLabels s.tree (Label.map g) }

theorem State.map_id (s : State L) : s.map id = s := by
  have hlabel (l : Label L) : l.map id = l := by
    cases l with
    | mk atom closeRef => cases atom <;> rfl
  simp [State.map, mapLabels, Arena.map, hlabel]

variable {s s' : State L}

/-- A move that adds the atoms of a clause below an open leaf. -/
structure Expands (s s' : State L) (leaf : Nat) (c : Clause L) : Prop where
  /-- The leaf is named by an id. -/
  named : leaf < UInt32.size
  /-- The leaf is open. -/
  isOpen : ∃ n, s.tree.get? leaf = some n ∧ n.isLeaf = true ∧ n.isClosed = false
  /-- The clause has atoms. -/
  nonempty : c.atoms ≠ []
  /-- The atoms become children of the leaf, and nothing but the number of expansions changes
  besides. -/
  eq : s' = { s with
    tree := growAll s.tree leaf (c.atoms.map fun a => ⟨some a, none⟩)
    expansions := s.expansions + 1 }

theorem node_eq_ok {id : Nat} {n : Node (Label L)} :
    s.node id = .ok n ↔ id < UInt32.size ∧ s.tree.get? id = some n := by
  rw [State.node, Outcome.ofLookup_eq_ok, Arena.named?_eq_some]

theorem clause_eq_ok {id : Nat} {c : Clause L} :
    s.clause id = .ok c ↔ s.clauses.get? id = some c := by
  rw [State.clause, Outcome.ofLookup_eq_ok]

theorem mem_of_clause_eq_ok {id : Nat} {c : Clause L} (h : s.clause id = .ok c) :
    c ∈ s.clauses.clauses := List.mem_of_getElem? (clause_eq_ok.mp h)

theorem checkOpenLeaf_eq_ok {n : Node (Label L)} {id : Nat} {u : Unit} :
    State.checkOpenLeaf n id = .ok u ↔ n.isLeaf = true ∧ n.isClosed = false := by
  simp [State.checkOpenLeaf, refuse]

theorem expands_of_expand [DecidableEq L] [Connectable L] {n : Node (Label L)} {leaf : Nat}
    {c : Clause L} (hn : s.node leaf = .ok n) (h : s.expand n leaf c = .ok s') :
    Expands s s' leaf c := by
  simp only [State.expand, refuse, Outcome.bind_eq_ok, checkOpenLeaf_eq_ok,
    Outcome.check_eq_ok, Outcome.pure_eq_ok, reduceCtorEq, exists_false, imp_false] at h
  obtain ⟨-, ⟨hleaf, hopen⟩, hempty, -, -, count, hcount, rfl⟩ := h
  have hne : c.atoms ≠ [] := fun hnil => hempty (by rw [Clause.isEmpty, hnil]; rfl)
  obtain ⟨hnamed, hn⟩ := node_eq_ok.mp hn
  refine ⟨hnamed, ⟨n, hn, hleaf, hopen⟩, hne, ?_⟩
  rw [growAll, List.foldl_map, Outcome.eq_of_ofCount hcount]

/-- The tree with a reference put at a leaf to the node against which it is closed. -/
def refer (t : Tree (Label L)) (leaf partner : Nat) : Tree (Label L) :=
  t.modify leaf fun n => { n with label := { n.label with closeRef := some partner } }

/-- A move that closes an open leaf against its complement above it. -/
structure Closes (s s' : State L) (leaf partner : Nat) : Prop where
  /-- The leaf is named by an id. -/
  named : leaf < UInt32.size
  /-- The leaf is open and carries the complement of the other node. -/
  pair : ∃ n m a, s.tree.get? leaf = some n ∧ n.isLeaf = true ∧ n.isClosed = false ∧
    s.tree.get? partner = some m ∧ n.label.atom = some a ∧ m.label.atom = some a.complement
  /-- The node stands above the leaf. -/
  above : Above s.tree partner leaf
  /-- The leaf is closed, and nothing changes besides. -/
  eq : ∃ t, closeLeaf (refer s.tree leaf partner) leaf = some t ∧ s' = { s with tree := t }

theorem closePair_eq_ok [Literal L] {leaf partner : Nat} {a b : Atom L}
    (h : s.closePair leaf partner = .ok (a, b)) :
    leaf < UInt32.size ∧ ∃ n m, s.tree.get? leaf = some n ∧ n.isLeaf = true ∧
      n.isClosed = false ∧ s.tree.get? partner = some m ∧ n.label.atom = some a ∧
      m.label.atom = some b ∧ a.negated ≠ b.negated ∧ Above s.tree partner leaf := by
  simp only [State.closePair, refuse, Outcome.bind_eq_ok, node_eq_ok, checkOpenLeaf_eq_ok,
    Outcome.ofReference_eq_ok, Outcome.guard_eq_ok] at h
  obtain ⟨n, ⟨hnamed, hn⟩, m, ⟨-, hm⟩, -, ⟨hleaf, hopen⟩, found, hfound, habove, h⟩ := h
  obtain rfl : found = true := by simpa using habove
  split at h
  next hna hmb =>
    simp only [Outcome.guard_eq_ok, Outcome.pure_eq_ok, Prod.mk.injEq] at h
    obtain ⟨hsign, rfl, rfl⟩ := h
    exact ⟨hnamed, n, m, hn, hleaf, hopen, hm, hna, hmb, hsign, above_of_any_ancestors hfound⟩
  · cases h

/-- What closing a leaf checks and does. -/
theorem close_eq_ok [DecidableEq L] [Literal L] {leaf partner : Nat} :
    s.close leaf partner = .ok s' ↔ ∃ a b t, s.closePair leaf partner = .ok (a, b) ∧
      a.lit = b.lit ∧ (ancestors s.tree leaf).complete = true ∧
      closeLeaf (refer s.tree leaf partner) leaf = some t ∧ s' = { s with tree := t } := by
  simp only [State.close, refuse, Outcome.bind_eq_ok, Outcome.guard_eq_ok,
    Outcome.ofReference_eq_ok, Outcome.pure_eq_ok, Prod.exists, Bool.not_eq_true',
    Bool.not_eq_false, ne_eq, not_not]
  constructor
  · rintro ⟨a, b, hpair, hlit, hcomplete, t, ht, rfl⟩
    exact ⟨a, b, t, hpair, hlit, hcomplete, ht, rfl⟩
  · rintro ⟨a, b, t, hpair, hlit, hcomplete, ht, rfl⟩
    exact ⟨a, b, hpair, hlit, hcomplete, t, ht, rfl⟩

theorem closes_of_close [DecidableEq L] [Literal L] {leaf partner : Nat}
    (h : s.close leaf partner = .ok s') : Closes s s' leaf partner := by
  obtain ⟨a, b, t, hpair, hlit, -, ht, rfl⟩ := close_eq_ok.mp h
  obtain ⟨hnamed, n, m, hn, hleaf, hopen, hm, hna, hmb, hsign, habove⟩ := closePair_eq_ok hpair
  have hb : b = a.complement := by
    cases a with
    | mk lit negated =>
      cases b with
      | mk lit' negated' =>
        cases negated <;> cases negated' <;> simp_all [Atom.complement]
  exact ⟨hnamed, ⟨n, m, a, hn, hleaf, hopen, hm, hna, hb ▸ hmb⟩, habove, t, ht, rfl⟩

/-- What an accepted move does unless it takes one back. -/
inductive Advances [Replaceable L] (s : State L) : State L → Prop
  /-- An instance of a clause is added below an open leaf. -/
  | expand {leaf : Nat} {c : Clause L} {g : L → L} {s' : State L} (hc : c ∈ s.clauses.clauses)
      (hg : Replaceable.Replaces g) (h : Expands s s' leaf (c.map g)) (m : Move) :
      Advances s (s'.record m)
  /-- All literals are replaced and a leaf is closed. -/
  | close {leaf partner : Nat} {g : L → L} {s' : State L} (hg : Replaceable.Replaces g)
      (h : Closes (s.map g) s' leaf partner) (m : Move) : Advances s (s'.record m)

theorem Propositional.advances_of_advance {s s' : State String} {m : Move}
    (h : advance s m = .ok s') : Advances s s' := by
  cases m with
  | expand id clause =>
    simp only [advance, Outcome.bind_eq_ok, Outcome.pure_eq_ok] at h
    obtain ⟨n, hn, c, hc, s₁, hs₁, rfl⟩ := h
    have hexpands := expands_of_expand hn hs₁
    rw [← c.map_id] at hexpands
    exact .expand (mem_of_clause_eq_ok hc) Replaceable.id hexpands _
  | close leaf partner assignment =>
    simp only [advance, Outcome.bind_eq_ok, Outcome.pure_eq_ok] at h
    obtain ⟨s₁, hs₁, rfl⟩ := h
    have hcloses := closes_of_close hs₁
    rw [← s.map_id] at hcloses
    exact .close Replaceable.id hcloses _
  | undo => cases h

/-- What closing a leaf in first-order logic does: the tableau is instantiated first. -/
theorem FirstOrder.close_eq_ok {s s' : State Relation} {leaf partner : Nat}
    {assignment : Option (KeyMap String String)} :
    close s leaf partner assignment = .ok s' ↔
      ∃ a b σ s₁, s.closePair leaf partner = .ok (a, b) ∧
        closingSubstitution s a b assignment = .ok σ ∧
        (s.map fun r => r.instantiate σ).close leaf partner = .ok s₁ ∧
        s' = s₁.record (.close leaf partner (some σ.texts)) := by
  simp only [close, Outcome.bind_eq_ok, Outcome.pure_eq_ok, Prod.exists]
  constructor
  · rintro ⟨a, b, hpair, σ, hσ, s₁, hs₁, rfl⟩
    exact ⟨a, b, σ, s₁, hpair, hσ, hs₁, rfl⟩
  · rintro ⟨a, b, σ, s₁, hpair, hσ, hs₁, rfl⟩
    exact ⟨a, b, hpair, σ, hσ, s₁, hs₁, rfl⟩

theorem FirstOrder.advances_of_advance {s s' : State Relation} {m : Move}
    (h : advance s m = .ok s') : Advances s s' := by
  cases m with
  | expand id clause =>
    simp only [advance, Outcome.bind_eq_ok, Outcome.pure_eq_ok] at h
    obtain ⟨n, hn, c, hc, count, -, s₁, hs₁, rfl⟩ := h
    have hrenamed := replaces_bind fun x => .var (withSuffix (Decimal.render count) x)
    exact .expand (mem_of_clause_eq_ok hc) hrenamed (expands_of_expand hn hs₁) _
  | close leaf partner assignment =>
    rw [advance] at h
    obtain ⟨a, b, σ, s₁, -, -, hs₁, rfl⟩ := close_eq_ok.mp h
    exact .close (replaces_bind σ.apply) (closes_of_close hs₁) _
  | undo => cases h

theorem Propositional.step_of_ne {s : State String} {m : Move} (hm : m ≠ .undo) :
    step s m = advance s m :=
  Rules.stepWithin_of_ne hm _ s

theorem FirstOrder.step_of_ne {s : State Relation} {m : Move} (hm : m ≠ .undo) :
    step s m = advance s m :=
  Rules.stepWithin_of_ne hm _ s

theorem earlier_eq_ok {start : State L × List Move} :
    s.earlier = .ok start ↔
      s.backtracking = true ∧ s.history ≠ [] ∧ start = (s.fresh, s.history.dropLast) := by
  simp only [State.earlier, refuse, Outcome.guard_eq_ok, Outcome.pure_eq_ok,
    Bool.not_eq_true', Bool.not_eq_false, List.isEmpty_iff]
  rw [@eq_comm _ start]

section Runs

variable {advance : State L → Move → Outcome (State L)} {moves : List Move}

/-- What holds before the first move and is kept by moves that take none back holds after every
run. -/
theorem rules_run {P : State L → Prop} (hfresh : ∀ s, P s → P s.fresh)
    (hadvance : ∀ s s' m, advance s m = .ok s' → P s → P s')
    (hrun : moves.foldlM (rules advance).step s = .ok s') (hs : P s) : P s' := by
  refine Rules.run (fun s s₀ moves hstart hs => ?_) hadvance hrun hs
  obtain ⟨-, -, heq⟩ := earlier_eq_ok.mp hstart
  cases heq
  exact hfresh s hs

/-- A run does not change the parameters of a proof. -/
theorem fresh_eq_of_run (hfresh : ∀ s s' m, advance s m = .ok s' → s'.fresh = s.fresh)
    {s₀ : State L} (hrun : moves.foldlM (rules advance).step s₀ = .ok s) : s.fresh = s₀.fresh :=
  rules_run (P := fun s => s.fresh = s₀.fresh) (fun _ hs => hs)
    (fun s s' m hstep hs => (hfresh s s' m hstep).trans hs) hrun rfl

/-- What is reached by a run is reached by one in which no moves are taken back. -/
theorem exists_direct_run (hnone : ∀ s s', advance s .undo ≠ .ok s')
    (hfresh : ∀ s s' m, advance s m = .ok s' → s'.fresh = s.fresh) {s₀ : State L}
    (hs₀ : s₀.fresh = s₀) (hrun : moves.foldlM (rules advance).step s₀ = .ok s) :
    ∃ made : List Move, (∀ m ∈ made, m ≠ .undo) ∧
      made.foldlM (rules advance).step s₀ = .ok s := by
  refine (rules_run (P := fun s => s.fresh = s₀ ∧ ∃ made : List Move, (∀ m ∈ made, m ≠ .undo) ∧
    made.foldlM (rules advance).step s₀ = .ok s) ?_ ?_ hrun
    ⟨hs₀, [], fun _ hm => absurd hm List.not_mem_nil, rfl⟩).2
  · rintro s ⟨hs, -⟩
    rw [hs]
    exact ⟨hs₀, [], fun _ hm => absurd hm List.not_mem_nil, rfl⟩
  · rintro s s' m hstep ⟨hs, made, hmade, hrun⟩
    have hm : m ≠ .undo := by
      rintro rfl
      exact hnone s s' hstep
    refine ⟨(hfresh s s' m hstep).trans hs, made ++ [m],
      List.forall_mem_append.mpr ⟨hmade, List.forall_mem_singleton.mpr hm⟩, ?_⟩
    rw [List.foldlM_append, hrun, Outcome.ok_bind, List.foldlM_cons, Rules.step,
      Rules.stepWithin_of_ne hm]
    exact Outcome.bind_eq_ok.mpr ⟨s', hstep, rfl⟩

end Runs

@[simp] theorem tree_record (s : State L) (m : Move) : (s.record m).tree = s.tree := rfl

@[simp] theorem clauses_record (s : State L) (m : Move) : (s.record m).clauses = s.clauses := rfl

@[simp] theorem fresh_record (s : State L) (m : Move) : (s.record m).fresh = s.fresh := rfl

theorem history_record (m : Move) (h : s.backtracking = true) :
    (s.record m).history = s.history ++ [m] :=
  if_pos h

/-- The start tells what is asked of clauses. -/
theorem kind_regular_eq_of_fresh_eq (h : s'.fresh = s.fresh) :
    s'.kind = s.kind ∧ s'.regular = s.regular := by
  have hkind := congrArg (fun s : State L => s.kind) h
  have hregular := congrArg (fun s : State L => s.regular) h
  exact ⟨hkind, hregular⟩

/-- Moves do not change the parameters of a proof. -/
theorem Advances.fresh_eq [Replaceable L] (h : Advances s s') : s'.fresh = s.fresh := by
  cases h with
  | expand hc hg hexpand m =>
    rw [fresh_record, hexpand.eq]
    rfl
  | close hg hclose m =>
    obtain ⟨t, -, rfl⟩ := hclose.eq
    rw [fresh_record]
    rfl

end Tableau

end Deduction
