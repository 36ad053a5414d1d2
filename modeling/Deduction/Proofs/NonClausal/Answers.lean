import Deduction.Proofs.Failure
import Deduction.Proofs.NonClausal.Undo

/-!
# Every move in a non-clausal tableau is answered

In a tableau with proper links the open leaves below a node can be listed and the way up
from a leaf ends, so a move is made or refused. The search for a new name ends, since
there are more numbers than names in use; it ends beyond what a counter holds only if all
numbers that are left are in use already.
-/

namespace Deduction.NonClausal

open Deduction.Tree Outcome

variable {s s' : State} {m : Move}

/-- Whether a node that is said not to be there is not. -/
def State.Misses (s : State) : IllegalMove → Prop
  | .nonClausal (.noNode id) => s.tree.named? id = none
  | _ => True

/-- Whether no number is left that a counter holds, either for the variable of a quantifier or for
a symbol: all those above the last one handed out are in use. -/
def State.OutOfNumbers (s : State) : Prop :=
  (∃ x body, Formula.all x body ∈ s.formulas ∧ ∀ k, s.variableCount < k → k < UInt64.size →
    ∃ f ∈ s.formulas, x ++ "_" ++ Decimal.render k ∈ f.varNames) ∨
  ∀ k, s.symbolCount < k → k < UInt64.size → ∃ f ∈ s.formulas, "sk" ++ Decimal.render k ∈ f.symbols

/-- The errors that a move in a tableau may end in. -/
def State.Allows (s : State) : Error → Prop := Error.Allowed s.OutOfNumbers s.Misses

/-- The numbers that are passed over in the search for a free one are in use. -/
theorem mem_of_lt_firstFree {used : List String} {name : Nat → String} {tries n k : Nat}
    (hle : n ≤ k) (hlt : k < firstFree used name tries n) : name k ∈ used := by
  induction tries generalizing n with
  | zero =>
    rw [firstFree] at hlt
    omega
  | succ tries ih =>
    rw [firstFree] at hlt
    split at hlt
    next hused =>
      by_cases hk : n = k
      · exact hk ▸ hused
      · exact ih (by omega) hlt
    next => omega

/-- A counter is full only if all numbers that it could still take are in use. -/
theorem failsOnly_firstFree {P : Error → Prop} {used : List String} {name : Nat → String}
    (tries count : Nat)
    (hfull : (∀ k, count < k → k < UInt64.size → name k ∈ used) → P .counterFull) :
    FailsOnly P (ofCount (firstFree used name tries (count + 1))) := by
  rw [ofCount]
  refine .ite (fun _ => .ok _) fun hle => .error (hfull fun k hk hlt => ?_)
  have hpassed : k < firstFree used name tries (count + 1) := by omega
  exact mem_of_lt_firstFree hk hpassed

theorem failsOnly_node (s : State) (id : Nat) : FailsOnly s.Allows (s.node id) :=
  .ofLookup fun hnone => hnone

theorem failsOnly_targets (ht : Linked s.tree) {id : Nat} {n : Node Label}
    (hn : s.tree.get? id = some n) (f : Formula) : FailsOnly s.Allows (s.targets id f) := by
  obtain ⟨ids, hids⟩ := exists_openLeaves ht hn
  rw [State.targets]
  exact .bind_ok (ofReference_eq_ok.mpr hids) (.guard trivial fun _ => .ok _)

theorem failsOnly_alpha (ht : Linked s.tree) (id : Nat) : FailsOnly s.Allows (s.alpha id) := by
  rw [State.alpha]
  refine .bind (failsOnly_node s id) fun n hn => ?_
  split
  · exact .bind (failsOnly_targets ht (node_eq_ok.mp hn).2 _) fun leaves _ => .ok _
  · exact .error trivial

theorem failsOnly_beta (ht : Linked s.tree) (id : Nat) : FailsOnly s.Allows (s.beta id) := by
  rw [State.beta]
  refine .bind (failsOnly_node s id) fun n hn => ?_
  split
  · exact .bind (failsOnly_targets ht (node_eq_ok.mp hn).2 _) fun leaves _ => .ok _
  · exact .error trivial

theorem failsOnly_gamma (ht : Linked s.tree) (id : Nat) : FailsOnly s.Allows (s.gamma id) := by
  rw [State.gamma]
  refine .bind (failsOnly_node s id) fun n hn => ?_
  split
  next x body hf =>
    refine .bind (failsOnly_targets ht (node_eq_ok.mp hn).2 _) fun leaves _ => ?_
    refine .bind (failsOnly_firstFree _ _ fun hused => ?_) fun k _ => .ok _
    refine Or.inl ⟨x, body, hf ▸ formula_mem_formulas (node_eq_ok.mp hn).2, fun k hk hlt => ?_⟩
    exact List.mem_flatMap.mp (hused k hk hlt)
  · exact .error trivial

theorem failsOnly_delta (ht : Linked s.tree) (id : Nat) : FailsOnly s.Allows (s.delta id) := by
  rw [State.delta]
  refine .bind (failsOnly_node s id) fun n hn => ?_
  split
  next x body hf =>
    refine .bind (failsOnly_targets ht (node_eq_ok.mp hn).2 _) fun leaves _ => ?_
    refine .bind (failsOnly_firstFree _ _ fun hused => ?_) fun k _ => .ok _
    exact Or.inr fun k hk hlt => List.mem_flatMap.mp (hused k hk hlt)
  · exact .error trivial

theorem failsOnly_complementary (s : State) (f g : Formula) :
    FailsOnly s.Allows (complementary f g) := by
  unfold complementary
  split
  · exact .ok _
  · exact .error trivial
  · exact .error trivial
  · exact .ok _
  · exact .error trivial
  · exact .error trivial
  · exact .error trivial

theorem failsOnly_closingSubstitution (s : State) (l r : Relation)
    (assignment : Option (KeyMap String String)) :
    FailsOnly s.Allows (State.closingSubstitution l r assignment) := by
  cases assignment with
  | some texts => exact .ofText fun _ => trivial
  | none =>
    rw [State.closingSubstitution]
    split
    · exact .ok _
    · exact .error trivial

theorem failsOnly_close (ht : Rooted s.tree) (leaf partner : Nat)
    (assignment : Option (KeyMap String String)) :
    FailsOnly s.Allows (s.close leaf partner assignment) := by
  rw [State.close]
  refine .bind (failsOnly_node s leaf) fun n hn => ?_
  refine .bind (failsOnly_node s partner) fun other _ => ?_
  refine .guard trivial fun _ => .guard trivial fun _ => ?_
  have hn := (node_eq_ok.mp hn).2
  obtain ⟨b, hb⟩ := exists_any_ancestors ht hn (· == partner)
  refine .bind_ok (ofReference_eq_ok.mpr hb) (.guard trivial fun _ => ?_)
  refine .bind (failsOnly_complementary s _ _) ?_
  rintro ⟨l, r⟩ -
  refine .bind (failsOnly_closingSubstitution s l r assignment) fun σ _ => ?_
  refine .bind (failsOnly_complementary s _ _) ?_
  rintro ⟨l', r'⟩ -
  refine .guard trivial fun _ => ?_
  have hshape := sameShape_of_map (Closes.get?_relabelled s σ leaf partner) fun _ _ => ⟨rfl, rfl⟩
  have hleaf := (Closes.get?_relabelled s σ leaf partner leaf).trans (congrArg _ hn)
  obtain ⟨t, ht'⟩ := exists_closeLeaf (ht.of_sameShape hshape) hleaf
  exact .bind_ok (ofReference_eq_ok.mpr ht') (.ok _)

theorem failsOnly_advance (ht : Linked s.tree) (hm : m ≠ .undo) :
    FailsOnly s.Allows (advance s m) := by
  cases m with
  | alpha id => exact .bind (failsOnly_alpha ht id) fun _ _ => .ok _
  | beta id => exact .bind (failsOnly_beta ht id) fun _ _ => .ok _
  | gamma id => exact .bind (failsOnly_gamma ht id) fun _ _ => .ok _
  | delta id => exact .bind (failsOnly_delta ht id) fun _ _ => .ok _
  | close leaf partner assignment => exact failsOnly_close ht.toRooted leaf partner assignment
  | undo => exact absurd rfl hm

theorem failsOnly_earlier (s : State) : FailsOnly s.Allows s.earlier :=
  .guard trivial fun _ => .ite (fun _ => .ok _) fun _ => .ok _

/-- Whether moves are kept does not change. -/
theorem backtracking_of_run {s₀ : State} {moves : List Move}
    (hrun : moves.foldlM step s₀ = .ok s) : s.backtracking = s₀.backtracking := by
  refine Rules.run (P := fun s => s.backtracking = s₀.backtracking) (fun s s₁ moves hstart hs => ?_)
    (fun s s' m hstep hs => ?_) hrun rfl
  · obtain ⟨hback, heq⟩ := earlier_eq_ok.mp hstart
    split at heq <;> cases heq
    · exact hs
    · exact hback.symm.trans hs
  · rcases advance_cases hstep with ⟨g, e, s₁, -, he, rfl⟩ | ⟨leaf, partner, assignment, σ, -, hc⟩
    · exact he.backtracking.trans hs
    · exact hc.backtracking.trans hs

/-- After every run from a closed formula the verdict is given, and as long as there are ids the
links of the tableau are proper and every move is made or refused as it may be. -/
theorem Starts.answers_of_run {f : Formula} {s₀ : State} (h : Starts f s₀) {moves : List Move}
    (hrun : moves.foldlM step s₀ = .ok s) :
    (∃ v, s.verdict = .ok v) ∧ (s.tree.size ≤ UInt32.size →
      Linked s.tree ∧ ∀ m, FailsOnly s.Allows (step s m)) := by
  have hback := backtracking_of_run hrun
  obtain ⟨backtracking, rfl⟩ := h.exists_eq_initial
  have hformed := (Formed.invariant f.negationNormal).run (fun _ _ => trivial) hrun
  obtain ⟨r, hr, -⟩ := hformed.rooted.root
  obtain ⟨v, hv, -⟩ := Verdict.exists_ofRoot_eq hr
  refine ⟨⟨v, hv⟩, fun hfits => ⟨hformed.steady.linked hfits, fun m => ?_⟩⟩
  by_cases hm : m = .undo
  · subst hm
    cases hearlier : s.earlier with
    | error e =>
      have herror : step s .undo = .error e := Rules.step_undo_of_error hearlier
      exact herror ▸ .error (failsOnly_earlier s e hearlier)
    | ok start =>
      obtain ⟨hkept, heq⟩ := earlier_eq_ok.mp hearlier
      by_cases hempty : s.history = []
      · rw [heq, if_pos hempty] at hearlier
        exact .of_eq_ok ⟨s, Rules.step_undo_of_nil hearlier⟩
      · have hs := (undoes h.readable).run hrun
          ⟨hback.symm.trans hkept, readableTableau_initial h.readable _⟩ rfl rfl
        exact .of_eq_ok ((undoes h.readable).exists_undo hs hempty)
  · rw [step_of_ne hm]
    exact failsOnly_advance (hformed.steady.linked hfits) hm

end Deduction.NonClausal
