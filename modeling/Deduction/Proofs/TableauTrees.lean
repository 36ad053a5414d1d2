import Deduction.Proofs.NonClausal.Soundness
import Deduction.Proofs.Tableau.Soundness
import Deduction.Proofs.Tree.Reference

/-!
# Trees of tableaux

In the clausal and in the non-clausal tableaux every move keeps the tree intact as long as
there are ids: parents and children refer to each other, nodes are closed as their children
are, and each closed leaf refers to a node above it that says the opposite. Instantiating
all formulas makes nothing else of opposites, so the references of leaves that were closed
before stay justified.
-/

namespace Deduction

open Deduction.Tree

/-- A tree with proper links and references is intact, and the proof is found to be finished
exactly if no leaf is open. -/
theorem Tree.Referenced.exists_verdict {α : Type} {t : Tree α} {ref : α → Option Nat}
    {Clash : α → α → Prop} (h : Referenced ref Clash t) (ht : Linked t) (hs : Settled t)
    (finished unfinished : String) :
    Intact ref Clash t ∧ ∃ v, Verdict.ofRoot t finished unfinished = .ok v ∧
      (v.closed = true ↔ LeavesClosed t) := by
  obtain ⟨r, hr, -⟩ := ht.root
  obtain ⟨v, hv, hclosed⟩ := Verdict.exists_ofRoot_eq hr
  refine ⟨h.intact ht hs, v, hv, ?_⟩
  rw [hclosed]
  exact isClosed_root_iff ht hs hr

namespace Tableau

variable {L : Type} {s s' : State L} {leaf partner : Nat} {c : Clause L}

/-- Whether the atoms at two nodes are complements of each other. -/
def Label.Clashes (l m : Label L) : Prop := ∃ a, l.atom = some a ∧ m.atom = some a.complement

theorem Label.Clashes.map {l m : Label L} (h : l.Clashes m) (g : L → L) :
    (l.map g).Clashes (m.map g) := by
  obtain ⟨a, ha, hcomplement⟩ := h
  exact ⟨a.map g, by rw [Label.map, ha]; rfl, by rw [Label.map, hcomplement]; rfl⟩

theorem Expands.referenced (h : Expands s s' leaf c)
    (hs : Referenced Label.closeRef Label.Clashes s.tree) :
    Referenced Label.closeRef Label.Clashes s'.tree := by
  obtain ⟨-, ⟨n, hn, -, hopen⟩, -, rfl⟩ := h
  refine growAll_induction (Arena.lt_size_of_get? hn) hs fun t' label hlabel hext ht' => ?_
  obtain ⟨ids, hids⟩ := hext.node hn
  obtain ⟨a, -, rfl⟩ := List.mem_map.mp hlabel
  exact ht'.grow hids hopen rfl

theorem Closes.referenced (h : Closes s s' leaf partner) (ht : Rooted s.tree)
    (hs : Referenced Label.closeRef Label.Clashes s.tree) :
    Referenced Label.closeRef Label.Clashes s'.tree := by
  obtain ⟨n, m, a, hn, hleaf, -, hm, hna, hma⟩ := h.pair
  obtain ⟨t, hclose, rfl⟩ := h.eq
  have hirrefl (l : Label L) : ¬ l.Clashes l := by
    rintro ⟨b, hb, hcomplement⟩
    exact b.complement_ne (Option.some.inj (hcomplement.symm.trans hb))
  exact hs.closeLeaf ht (fun l => { l with closeRef := some partner }) (fun _ => rfl) hirrefl
    (fun _ _ hlm => hlm) (fun _ _ hlm => hlm) hn hleaf hm h.above ⟨a, hna, hma⟩ hclose

variable [Replaceable L] {clauses : ClauseSet L}

theorem Advances.referenced (h : Advances s s') (hsound : Sound clauses s)
    (hs : Referenced Label.closeRef Label.Clashes s.tree) :
    Referenced Label.closeRef Label.Clashes s'.tree := by
  cases h with
  | expand hc hg hexpand m =>
    rw [tree_record]
    exact hexpand.referenced hs
  | close hg hclose m =>
    rw [tree_record]
    exact hclose.referenced (hsound.map hg).rooted
      (hs.mapLabels _ (fun _ => rfl) fun _ _ hlm => hlm.map _)

/-- After every run of a clausal tableau its tree is intact as long as there are ids, and the proof
is found to be finished exactly if no leaf is open. -/
theorem intact_of_run {advance : State L → Move → Outcome (State L)}
    (hadvances : ∀ s s' m, advance s m = .ok s' → Advances s s') {kind : Connectedness}
    {regular backtracking manual : Bool} {moves : List Move}
    (hrun : moves.foldlM (rules advance).step
      (.initial clauses kind regular backtracking manual) = .ok s)
    (hfits : s.tree.size ≤ UInt32.size) :
    Intact Label.closeRef Label.Clashes s.tree ∧ ∃ v, s.verdict = .ok v ∧
      (v.closed = true ↔ LeavesClosed s.tree) := by
  obtain ⟨hsound, hreferenced⟩ := sound_and_of_run hadvances
    (P := fun s => Referenced Label.closeRef Label.Clashes s.tree)
    (fun _ _ => referenced_single rfl) (fun s s' m hstep => (hadvances s s' m hstep).referenced)
    hrun (referenced_single rfl)
  exact hreferenced.exists_verdict (hsound.linked hfits) hsound.settled _ _

end Tableau

namespace NonClausal

variable {s s' : State} {f : Formula} {e : Expansion} {leaf partner : Nat}
  {assignment : Option (KeyMap String String)} {σ : Substitution}

/-- Whether of two nodes one says a relation and the other one its negation. -/
def Label.Clashes (l m : Label) : Prop := ∃ r, Opposed r r l.formula m.formula

/-- References stay justified when a formula is decomposed, as long as there are ids. -/
theorem Expands.referenced (h : Expands s s' f e) (ht : Rooted s.tree)
    (hs : s.tree.size ≤ UInt32.size → Referenced Label.closeRef Label.Clashes s.tree) :
    s'.tree.size ≤ UInt32.size → Referenced Label.closeRef Label.Clashes s'.tree := by
  let P (t : Tree Label) : Prop :=
    t.size ≤ UInt32.size → Referenced Label.closeRef Label.Clashes t
  refine h.tree_induction (motive := P) ht hs fun t p _ hrooted hopen _ ht => ?_
  refine e.grow_induction (motive := P) hrooted hopen ht fun t' q g _ _ _ hq_open _ ht' hfits => ?_
  rw [size_grow] at hfits
  obtain ⟨n, hn, hn_open⟩ := hq_open (Nat.le_of_succ_le hfits)
  exact (ht' (Nat.le_of_succ_le hfits)).grow hn hn_open rfl

theorem Closes.referenced (h : Closes s s' leaf partner assignment σ) (ht : Rooted s.tree)
    (hs : Referenced Label.closeRef Label.Clashes s.tree) :
    Referenced Label.closeRef Label.Clashes s'.tree := by
  obtain ⟨n, m, l, r, hn, hleaf, -, hm, hopposed, -, hequal⟩ := h.relations
  have hget (i : Nat) : (s.instantiate σ).tree.get? i = (s.tree.get? i).map _ :=
    Arena.get?_map s.tree _ i
  have hshape := sameShape_of_map hget fun _ _ => ⟨rfl, rfl⟩
  have hinstances : Referenced Label.closeRef Label.Clashes (s.instantiate σ).tree :=
    hs.mapLabels (fun l => { l with formula := l.formula.instantiate σ }) (fun _ => rfl)
      fun _ _ ⟨r, hr⟩ => ⟨r.instantiate σ, hr.instantiate σ⟩
  have hnode := (hget leaf).trans (congrArg _ hn)
  have hpartner := (hget partner).trans (congrArg _ hm)
  have hclash := hopposed.instantiate σ
  rw [hequal] at hclash
  have hirrefl (l : Label) : ¬ l.Clashes l := by
    rintro ⟨r, ⟨hf, hg⟩ | ⟨hf, hg⟩⟩ <;> cases hf.symm.trans hg
  exact hinstances.closeLeaf (ht.of_sameShape hshape)
    (fun l => { l with closeRef := some partner }) (fun _ => rfl) hirrefl (fun _ _ hlm => hlm)
    (fun _ _ hlm => hlm) hnode hleaf hpartner (h.above.of_sameShape hshape) ⟨_, hclash⟩ h.tree

theorem referenced_invariant (f : Formula) : Invariant f (fun _ => True) fun s =>
    Formed f s ∧
      (s.tree.size ≤ UInt32.size → Referenced Label.closeRef Label.Clashes s.tree) where
  initial b := ⟨formed_initial f b, fun _ => referenced_single rfl⟩
  origin _ h := h.1.origin
  history _ _ _ _ := trivial
  expand s s' g e m _ _ he h := by
    refine ⟨(h.1.expand he).record m, ?_⟩
    rw [tree_record]
    exact he.referenced h.1.rooted h.2
  close s s' leaf partner assignment σ _ hc h := by
    refine ⟨h.1.close hc, fun hfits => hc.referenced h.1.rooted (h.2 ?_)⟩
    exact (hc.sameShape h.1.rooted).size_eq ▸ hfits

/-- After every run of a non-clausal tableau its tree is intact as long as there are ids, and the
proof is found to be finished exactly if no leaf is open. -/
theorem intact_of_run {backtracking : Bool} {moves : List Move}
    (hrun : moves.foldlM step (.initial f backtracking) = .ok s)
    (hfits : s.tree.size ≤ UInt32.size) :
    Intact Label.closeRef Label.Clashes s.tree ∧ ∃ v, s.verdict = .ok v ∧
      (v.closed = true ↔ LeavesClosed s.tree) := by
  obtain ⟨hformed, hreferenced⟩ := (referenced_invariant f).run (fun _ _ => trivial) hrun
  exact (hreferenced hfits).exists_verdict (hformed.steady.linked hfits)
    (hformed.steady.settled hfits) _ _

end NonClausal

/-- After every run of a propositional, a first-order or a non-clausal tableau its tree is intact
as long as there are ids for its nodes, and the proof is found to be finished exactly if no leaf is
open. -/
theorem tableau_trees_intact (kind : Tableau.Connectedness)
    (regular backtracking manual : Bool) :
    (∀ (clauses : ClauseSet String) (moves : List Tableau.Move) (s : Tableau.State String),
      moves.foldlM Tableau.Propositional.step
        (.initial clauses kind regular backtracking manual) = .ok s →
      s.tree.size ≤ UInt32.size →
      Intact Tableau.Label.closeRef Tableau.Label.Clashes s.tree ∧ ∃ v, s.verdict = .ok v ∧
        (v.closed = true ↔ LeavesClosed s.tree)) ∧
    (∀ (clauses : ClauseSet Relation) (moves : List Tableau.Move) (s : Tableau.State Relation),
      moves.foldlM Tableau.FirstOrder.step
        (.initial clauses kind regular backtracking manual) = .ok s →
      s.tree.size ≤ UInt32.size →
      Intact Tableau.Label.closeRef Tableau.Label.Clashes s.tree ∧ ∃ v, s.verdict = .ok v ∧
        (v.closed = true ↔ LeavesClosed s.tree)) ∧
    ∀ (f : Formula) (moves : List NonClausal.Move) (s : NonClausal.State),
      moves.foldlM NonClausal.step (.initial f backtracking) = .ok s →
      s.tree.size ≤ UInt32.size →
      Intact NonClausal.Label.closeRef NonClausal.Label.Clashes s.tree ∧ ∃ v, s.verdict = .ok v ∧
        (v.closed = true ↔ LeavesClosed s.tree) :=
  ⟨fun _ _ _ => Tableau.intact_of_run fun _ _ _ => Tableau.Propositional.advances_of_advance,
    fun _ _ _ => Tableau.intact_of_run fun _ _ _ => Tableau.FirstOrder.advances_of_advance,
    fun _ _ _ => NonClausal.intact_of_run⟩

private theorem closed_refutation_contradiction :
    (NonClausal.refutation.foldlM NonClausal.step
      (.initial NonClausal.contradiction.negationNormal true) >>=
        NonClausal.State.verdict).toOption.map Verdict.closed = some true := by
  cbv

/-- Refutations of all three kinds, in which moves are taken back, have intact trees without open
leaves. -/
theorem refutations_intact :
    (∃ s, Tableau.refutation.foldlM Tableau.Propositional.step
        (.initial Tableau.excludedPair .strong true true false) = .ok s ∧
      s.tree.size ≤ UInt32.size ∧
      Intact Tableau.Label.closeRef Tableau.Label.Clashes s.tree ∧ LeavesClosed s.tree) ∧
    (∃ s, Tableau.refutation.foldlM Tableau.FirstOrder.step
        (.initial Tableau.excludedInstance .strong true true false) = .ok s ∧
      s.tree.size ≤ UInt32.size ∧
      Intact Tableau.Label.closeRef Tableau.Label.Clashes s.tree ∧ LeavesClosed s.tree) ∧
    ∃ s, NonClausal.refutation.foldlM NonClausal.step
        (.initial NonClausal.contradiction.negationNormal true) = .ok s ∧
      s.tree.size ≤ UInt32.size ∧
      Intact NonClausal.Label.closeRef NonClausal.Label.Clashes s.tree ∧ LeavesClosed s.tree := by
  obtain ⟨hprop, hfo, hnc⟩ := tableau_trees_intact .strong true true false
  refine ⟨?_, ?_, ?_⟩
  · obtain ⟨s, v, hs, hv, hclosed⟩ := Outcome.exists_of_toOption Tableau.refutation_excludedPair
    obtain ⟨r, hr, hr_closed⟩ := Verdict.exists_closed_root hv hclosed
    have hsound := Tableau.Propositional.sound_of_run hs
    have hfits := fits_of_isClosed_root hsound.rooted hsound.settled hr hr_closed
    obtain ⟨hintact, v', hv', hiff⟩ := hprop _ _ s hs hfits
    cases hv.symm.trans hv'
    exact ⟨s, hs, hfits, hintact, hiff.mp hclosed⟩
  · obtain ⟨s, v, hs, hv, hclosed⟩ := Outcome.exists_of_toOption Tableau.refutation_excludedInstance
    obtain ⟨r, hr, hr_closed⟩ := Verdict.exists_closed_root hv hclosed
    have hsound := Tableau.FirstOrder.sound_of_run hs
    have hfits := fits_of_isClosed_root hsound.rooted hsound.settled hr hr_closed
    obtain ⟨hintact, v', hv', hiff⟩ := hfo _ _ s hs hfits
    cases hv.symm.trans hv'
    exact ⟨s, hs, hfits, hintact, hiff.mp hclosed⟩
  · obtain ⟨s, v, hs, hv, hclosed⟩ := Outcome.exists_of_toOption closed_refutation_contradiction
    obtain ⟨r, hr, hr_closed⟩ := Verdict.exists_closed_root hv hclosed
    have hformed := (NonClausal.Formed.invariant _).run (fun _ _ => trivial) hs
    have hfits := hformed.steady.fits_of_isClosed_root hr hr_closed
    obtain ⟨hintact, v', hv', hiff⟩ := hnc _ _ s hs hfits
    cases hv.symm.trans hv'
    exact ⟨s, hs, hfits, hintact, hiff.mp hclosed⟩

end Deduction
