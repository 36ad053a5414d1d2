import Deduction.Proofs.Tableau.Expansion
import Deduction.Proofs.Tableau.Undo

/-!
# Every move in a clausal tableau is answered

In a tableau with proper links every walk comes to an end, so a move is made or refused.
A move that names a node or a clause is refused for want of it only if it is not there,
also when the tableau has been instantiated in between. The expansions are fewer than
the nodes, so they can be counted as long as the nodes can be numbered.
-/

namespace Deduction.Tableau

open Deduction.Tree Outcome

variable {L : Type} {s s' : State L} {leaf partner : Nat}

/-- Whether a node or a clause that is said not to be there is not. -/
def State.Misses (s : State L) : IllegalMove → Prop
  | .tableau (.noNode id) => s.tree.named? id = none
  | .tableau (.noClause id) => s.clauses.get? id = none
  | _ => True

/-- The errors that a move in a tableau may end in: a counter is full only if there are more nodes
than can be numbered. -/
def State.Allows (s : State L) : Error → Prop := Error.Allowed (UInt32.size ≤ s.tree.size) s.Misses

theorem failsOnly_node (s : State L) (id : Nat) : FailsOnly s.Allows (s.node id) :=
  .ofLookup fun hnone => hnone

theorem failsOnly_clause (s : State L) (id : Nat) : FailsOnly s.Allows (s.clause id) :=
  .ofLookup fun hnone => hnone

theorem failsOnly_checkOpenLeaf (s : State L) (n : Node (Label L)) (id : Nat) :
    FailsOnly s.Allows (State.checkOpenLeaf n id) :=
  .guard trivial fun _ => .ite (fun _ => .error trivial) fun _ => .ok ()

/-- The number of the next expansion fits a counter unless there are too many nodes. -/
theorem failsOnly_count (hcount : s.expansions < s.tree.size) :
    FailsOnly s.Allows (ofCount (s.expansions + 1)) := by
  rw [ofCount]
  refine .ite (fun _ => .ok _) fun hfull => .error ?_
  have hsizes : UInt32.size ≤ UInt64.size := by decide
  show UInt32.size ≤ s.tree.size
  omega

theorem failsOnly_expand [DecidableEq L] [Connectable L] (ht : Rooted s.tree)
    (hcount : s.expansions < s.tree.size) {n : Node (Label L)} (hn : s.tree.get? leaf = some n)
    (c : Clause L) : FailsOnly s.Allows (s.expand n leaf c) := by
  refine failsOnly_expand_of ht hn (failsOnly_checkOpenLeaf s n leaf) trivial (fun _ => ?_) trivial
    (failsOnly_count hcount)
  rcases checkRegular_cases ht hn [] c.atoms with ⟨hok, -⟩ | ⟨a, -, herror, -⟩
  · exact .of_eq_ok ⟨(), hok⟩
  · exact herror ▸ .error trivial

theorem failsOnly_closePair [Literal L] (ht : Rooted s.tree) :
    FailsOnly s.Allows (s.closePair leaf partner) := by
  rw [State.closePair]
  refine .bind (failsOnly_node s leaf) fun n hn => ?_
  refine .bind (failsOnly_node s partner) fun m _ => ?_
  refine .bind (failsOnly_checkOpenLeaf s n leaf) fun _ _ => ?_
  obtain ⟨b, hb⟩ := exists_any_ancestors ht (node_eq_ok.mp hn).2 (· == partner)
  refine .bind_ok (ofReference_eq_ok.mpr hb) (.guard trivial fun _ => ?_)
  split
  · exact .guard trivial fun _ => .ok _
  · exact .error trivial

theorem failsOnly_close [DecidableEq L] [Literal L] (ht : Rooted s.tree) :
    FailsOnly s.Allows (s.close leaf partner) := by
  rw [State.close]
  refine .bind (failsOnly_closePair ht) ?_
  rintro ⟨a, b⟩ hpair
  refine .guard trivial fun _ => ?_
  obtain ⟨-, n, m, hn, -⟩ := closePair_eq_ok hpair
  rw [complete_ancestors ht hn]
  have hrooted := ht.of_sameShape (Closes.sameShape_refer s.tree leaf partner)
  have hrefer := (get?_refer s.tree leaf partner leaf).trans (congrArg _ hn)
  obtain ⟨t, ht'⟩ := exists_closeLeaf hrooted hrefer
  exact .bind_ok (ofReference_eq_ok.mpr ht') (.ok _)

private theorem misses_of_map {g : L → L} {refusal : IllegalMove} (h : (s.map g).Misses refusal) :
    s.Misses refusal := by
  unfold State.Misses
  split
  next id =>
    have hnone : (s.map g).tree.named? id = none := h
    rwa [Arena.named?_eq_none, get?_map, Option.map_eq_none_iff, ← Arena.named?_eq_none] at hnone
  next id => exact h
  · trivial

theorem size_map (g : L → L) (s : State L) : (s.map g).tree.size = s.tree.size :=
  List.length_map _

theorem rooted_map (g : L → L) (ht : Rooted s.tree) : Rooted (s.map g).tree :=
  ht.of_sameShape (sameShape_of_map (get?_map g s) fun _ _ => ⟨rfl, rfl⟩)

/-- The nodes are the same in an instance of a tableau. -/
theorem allows_of_map {g : L → L} {e : Error} (h : (s.map g).Allows e) : s.Allows e :=
  h.mono (fun hfull => size_map g s ▸ hfull) fun _ => misses_of_map

theorem Propositional.failsOnly_advance {s : State String} {m : Move} (ht : Rooted s.tree)
    (hcount : s.expansions < s.tree.size) (hm : m ≠ .undo) :
    FailsOnly s.Allows (advance s m) := by
  cases m with
  | expand id clause =>
    rw [advance]
    refine .bind (failsOnly_node s id) fun n hn => ?_
    refine .bind (failsOnly_clause s clause) fun c _ => ?_
    exact .bind (failsOnly_expand ht hcount (node_eq_ok.mp hn).2 c) fun _ _ => .ok _
  | close leaf partner assignment =>
    rw [advance]
    exact .bind (failsOnly_close ht) fun _ _ => .ok _
  | undo => exact absurd rfl hm

namespace FirstOrder

variable {s : State Relation}

theorem failsOnly_closingSubstitution (s : State Relation) (a b : Atom Relation)
    (assignment : Option (KeyMap String String)) :
    FailsOnly s.Allows (closingSubstitution s a b assignment) := by
  cases assignment with
  | some texts => exact .ofText fun _ => trivial
  | none =>
    refine .ite (fun _ => .error trivial) fun _ => ?_
    split
    · exact .ok _
    · exact .error trivial

/-- The nodes of the pair are looked up once more when the tableau has been instantiated. -/
theorem failsOnly_close_instance (ht : Rooted s.tree)
    (assignment : Option (KeyMap String String)) :
    FailsOnly s.Allows (close s leaf partner assignment) := by
  rw [close]
  refine .bind (failsOnly_closePair ht) ?_
  rintro ⟨a, b⟩ -
  refine .bind (failsOnly_closingSubstitution s a b assignment) fun σ _ => ?_
  have hclose : FailsOnly s.Allows ((s.map fun r => r.instantiate σ).close leaf partner) :=
    (failsOnly_close (rooted_map _ ht)).mono fun _ => allows_of_map
  exact .bind hclose fun _ _ => .ok _

theorem failsOnly_advance {m : Move} (ht : Rooted s.tree)
    (hcount : s.expansions < s.tree.size) (hm : m ≠ .undo) :
    FailsOnly s.Allows (advance s m) := by
  cases m with
  | expand id clause =>
    rw [advance]
    refine .bind (failsOnly_node s id) fun n hn => ?_
    refine .bind (failsOnly_clause s clause) fun c _ => ?_
    refine .bind (failsOnly_count hcount) fun count _ => ?_
    exact .bind (failsOnly_expand ht hcount (node_eq_ok.mp hn).2 _) fun _ _ => .ok _
  | close leaf partner assignment =>
    rw [advance]
    exact failsOnly_close_instance ht assignment
  | undo => exact absurd rfl hm

end FirstOrder

theorem failsOnly_earlier (s : State L) : FailsOnly s.Allows s.earlier :=
  .guard trivial fun _ => .guard trivial fun _ => .ok _

theorem Closes.size_eq (h : Closes s s' leaf partner) (ht : Rooted s.tree) :
    s'.tree.size = s.tree.size :=
  (h.sameShape ht).size_eq

variable [Replaceable L] {clauses : ClauseSet L}

/-- Every expansion adds a node, and no move takes any away. -/
theorem Advances.expansions_lt (h : Advances s s') (ht : Rooted s.tree)
    (hcount : s.expansions < s.tree.size) : s'.expansions < s'.tree.size := by
  cases h with
  | expand hc hg hexpand m =>
    have hnew := List.length_pos_of_ne_nil hexpand.nonempty
    rw [hexpand.eq]
    simp only [State.record, size_growAll, List.length_map]
    omega
  | close hg hclose m =>
    have hsize := (hclose.size_eq (rooted_map _ ht)).trans (size_map _ s)
    obtain ⟨t, -, rfl⟩ := hclose.eq
    rw [tree_record, hsize]
    exact hcount

/-- After every run the links of the tableau are proper as long as there are ids, the verdict is
given, and every move is made or refused as it may be. -/
theorem KeepsUnder.answers_of_run {advance : State L → Move → Outcome (State L)}
    {Q : State L → Prop} (h : KeepsUnder advance Q)
    (hadvances : ∀ s s' m, advance s m = .ok s' → Advances s s')
    (hfails : ∀ s m, Rooted s.tree → s.expansions < s.tree.size → m ≠ .undo →
      FailsOnly s.Allows (advance s m))
    {kind : Connectedness} {regular backtracking manual : Bool}
    (hQ : Q (.initial clauses kind regular backtracking manual)) {moves : List Move}
    (hrun : moves.foldlM (rules advance).step
      (.initial clauses kind regular backtracking manual) = .ok s) :
    (s.tree.size ≤ UInt32.size → Linked s.tree) ∧ (∃ v, s.verdict = .ok v) ∧
      ∀ m, FailsOnly s.Allows ((rules advance).step s m) := by
  obtain ⟨hsound, hcount, hback⟩ := sound_and_of_run hadvances
    (P := fun s => s.expansions < s.tree.size ∧ s.backtracking = backtracking)
    (fun s hs => ⟨Nat.one_pos, hs.2⟩) (fun s s' m hstep hs hkept => by
      have hadvance := hadvances s s' m hstep
      exact ⟨hadvance.expansions_lt hs.rooted hkept.1,
        (backtracking_eq_of_fresh_eq hadvance.fresh_eq).trans hkept.2⟩) hrun ⟨Nat.one_pos, rfl⟩
  refine ⟨hsound.linked, hsound.exists_verdict, fun m => ?_⟩
  by_cases hm : m = .undo
  · subst hm
    cases hearlier : s.earlier with
    | error e =>
      have herror : (rules advance).step s .undo = .error e := Rules.step_undo_of_error hearlier
      exact herror ▸ .error (failsOnly_earlier s e hearlier)
    | ok start =>
      obtain ⟨hkept, hne, -⟩ := earlier_eq_ok.mp hearlier
      have hs := h.undoes.run hrun ⟨hback.symm.trans hkept, hQ⟩ rfl rfl
      exact .of_eq_ok (h.undoes.exists_undo hs hne)
  · rw [Rules.step, Rules.stepWithin_of_ne hm]
    exact hfails s m hsound.rooted hcount hm

end Deduction.Tableau
