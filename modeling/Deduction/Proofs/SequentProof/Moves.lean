import Deduction.Proofs.Distinct
import Deduction.Proofs.Rules
import Deduction.Proofs.Tree.Growth
import Deduction.SequentProof.Basic

/-!
# What a move in the sequent calculus does

An accepted move applies a rule to a formula of an open leaf and adds the new sequents
below it, or it closes a leaf with a formula on both sides by adding its sequent once
more, or it takes a move back by making those before it again. The root never changes,
and nothing is left to do for the preparation of its sequent, so the moves are made again
from where they were made first.
-/

namespace Deduction

theorem Formula.splitIff_splitIff (f : Formula) : f.splitIff.splitIff = f.splitIff := by
  induction f <;> simp_all [splitIff]

namespace Sequent

private theorem splitIff_distinct_splitIff (q : Sequent) :
    q.splitIff.distinct.splitIff = q.splitIff.distinct := by
  have hside (fs : List Formula) :
      (fs.map Formula.splitIff).eraseDups.map Formula.splitIff =
        (fs.map Formula.splitIff).eraseDups := by
    refine (List.map_congr_left fun f hf => ?_).trans (List.map_id _)
    obtain ⟨g, -, rfl⟩ := List.mem_map.mp (List.mem_eraseDups.mp hf)
    exact g.splitIff_splitIff
  rw [splitIff, distinct, splitIff, hside, hside]

private theorem distinct_distinct (q : Sequent) : q.distinct.distinct = q.distinct := by
  have hside (fs : List Formula) : fs.eraseDups.eraseDups = fs.eraseDups :=
    eraseDups_of_nodup (nodup_eraseDups fs)
  rw [distinct, distinct, hside, hside]

/-- A sequent is prepared in one pass. -/
theorem prepared_prepared (q : Sequent) :
    q.splitIff.distinct.splitIff.distinct = q.splitIff.distinct := by
  rw [splitIff_distinct_splitIff, distinct_distinct]

end Sequent

namespace SequentProof

open Deduction.Tree

variable {logic : Logic} {s s' : State}

/-- Whether a rule makes sequents of a sequent. -/
inductive Infers (logic : Logic) (q : Sequent) : List Sequent → Prop
  /-- A connective is decomposed. -/
  | connective {rule : Rule} {index : Nat} {f : Formula} {premisses : List Sequent}
      (hf : (q.onSide rule.side)[index]? = some f)
      (hpremisses : rule.premisses f (q.eraseAt index rule.side) = some premisses) :
      Infers logic q premisses
  /-- A quantifier is instantiated with a constant and kept. -/
  | keeping {rule : QuantifierRule} {index : Nat} {f : Formula} {x : String} {body : Formula}
      {name : String} (hlogic : logic = .firstOrder)
      (hf : (q.onSide rule.side)[index]? = some f) (hbody : rule.matches? f = some (x, body))
      (hrule : rule.eigenvariable = false) :
      Infers logic q [q.add (Formula.instantiateBound x body (.const name)) rule.side]
  /-- A quantifier is instantiated with a new constant and dropped. -/
  | dropping {rule : QuantifierRule} {index : Nat} {f : Formula} {x : String} {body : Formula}
      {name : String} (hlogic : logic = .firstOrder)
      (hf : (q.onSide rule.side)[index]? = some f) (hbody : rule.matches? f = some (x, body))
      (hrule : rule.eigenvariable = true) (hnew : ∀ g ∈ q.formulas, name ∉ g.symbols) :
      Infers logic q [(q.eraseAt index rule.side).add
        (Formula.instantiateBound x body (.const name)) rule.side]

theorem Rule.premisses_ne_nil {rule : Rule} {f : Formula} {q : Sequent} {premisses : List Sequent}
    (h : rule.premisses f q = some premisses) : premisses ≠ [] := by
  rw [Rule.premisses.eq_def] at h
  split at h <;> cases h <;> exact List.cons_ne_nil _ _

theorem Infers.ne_nil {q : Sequent} {premisses : List Sequent} (h : Infers logic q premisses) :
    premisses ≠ [] := by
  cases h with
  | connective _ hpremisses => exact Rule.premisses_ne_nil hpremisses
  | keeping | dropping => exact List.cons_ne_nil _ _

/-- What the nodes say that are added for sequents. -/
def labels (sequents : List Sequent) (m : Move) : List Label :=
  sequents.map fun q => ⟨q.distinct, some m⟩

theorem tree_grow (s : State) (id : Nat) (sequents : List Sequent) (m : Move) :
    (s.grow id sequents m).tree = growAll s.tree id (labels sequents m) := by
  rw [labels, growAll, List.foldl_map, State.grow]

/-- Whether an id names an open leaf with a sequent. -/
def OpenLeaf (s : State) (id : Nat) (q : Sequent) : Prop :=
  id < UInt32.size ∧
    ∃ n, s.tree.get? id = some n ∧ n.isLeaf = true ∧ n.isClosed = false ∧ n.label.sequent = q

theorem leaf_eq_ok {id : Nat} {q : Sequent} : s.leaf id = .ok q ↔ OpenLeaf s id q := by
  simp only [State.leaf, refuse, Outcome.bind_eq_ok, Outcome.ofLookup_eq_ok, Arena.named?_eq_some,
    Outcome.guard_eq_ok, Outcome.pure_eq_ok, Bool.not_eq_true', Bool.not_eq_false, OpenLeaf]
  constructor
  · rintro ⟨n, ⟨hid, hn⟩, hleaf, hopen, rfl⟩
    exact ⟨hid, n, hn, hleaf, Bool.not_eq_true _ ▸ hopen, rfl⟩
  · rintro ⟨hid, n, hn, hleaf, hopen, rfl⟩
    exact ⟨n, ⟨hid, hn⟩, hleaf, Bool.not_eq_true _ ▸ hopen, rfl⟩

/-- What an accepted move does unless it takes one back. -/
inductive Advances (logic : Logic) (s : State) : State → Prop
  /-- A rule is applied to an open leaf. -/
  | infer {leaf : Nat} {q : Sequent} {premisses : List Sequent} (hleaf : OpenLeaf s leaf q)
      (hinfers : Infers logic q premisses) (m : Move) : Advances logic s (s.grow leaf premisses m)
  /-- Below an open leaf with a formula on both sides its sequent is added, and what the id of the
  new node names is closed. -/
  | ax {leaf : Nat} {q : Sequent} {f : Formula} {t : Tree Label} (hleaf : OpenLeaf s leaf q)
      (hleft : f ∈ q.left) (hright : f ∈ q.right) (m : Move)
      (ht : closeLeaf (growAll s.tree leaf (labels [q] m)) s.tree.nextId = some t) :
      Advances logic s { s.grow leaf [q] m with tree := t }

theorem chosen_eq_ok {id index : Nat} {side : Side} {q : Sequent} {f : Formula} :
    s.chosen id side index = .ok (q, f) ↔ OpenLeaf s id q ∧ (q.onSide side)[index]? = some f := by
  rw [State.chosen, Outcome.bind_eq_ok]
  constructor
  · rintro ⟨q', hleaf, h⟩
    split at h <;> cases h
    exact ⟨leaf_eq_ok.mp hleaf, ‹_›⟩
  · rintro ⟨hleaf, hf⟩
    exact ⟨q, leaf_eq_ok.mpr hleaf, by simp [hf]⟩

theorem connective_eq_ok {rule : Rule} {id index : Nat} :
    s.connective rule id index = .ok s' ↔
      ∃ q f premisses, OpenLeaf s id q ∧ (q.onSide rule.side)[index]? = some f ∧
        rule.premisses f (q.eraseAt index rule.side) = some premisses ∧
        s' = s.grow id premisses (.connective rule id index) := by
  simp only [State.connective, Outcome.bind_eq_ok, Prod.exists, chosen_eq_ok]
  constructor
  · rintro ⟨q, f, ⟨hleaf, hf⟩, h⟩
    split at h <;> cases h
    exact ⟨q, f, _, hleaf, hf, ‹_›, rfl⟩
  · rintro ⟨q, f, premisses, hleaf, hf, hpremisses, rfl⟩
    exact ⟨q, f, ⟨hleaf, hf⟩, by simp [hpremisses]⟩

/-- The last id after a sequent has been added is that of the new node. -/
theorem lastId?_growAll (t : Tree Label) (id : Nat) (q : Sequent) (m : Move) :
    (growAll t id (labels [q] m)).lastId? = some t.nextId :=
  Arena.lastId?_of_size (size_growAll t id (labels [q] m))

/-- Closing what the id of a new node names comes to an end. -/
theorem exists_closeLeaf_nextId {t : Tree Label} (ht : Rooted t) {id : Nat} (hid : id < t.size)
    (q : Sequent) (m : Move) :
    ∃ t', closeLeaf (growAll t id (labels [q] m)) t.nextId = some t' := by
  obtain ⟨n, hn⟩ := Arena.exists_get? (a := growAll t id (labels [q] m)) (i := t.nextId) (by
    rw [size_growAll]
    exact Nat.lt_succ_of_le (Arena.idOf_le t.size))
  exact exists_closeLeaf (ht.growAll _ hid) hn

theorem ax_eq_ok {id : Nat} :
    s.ax id = .ok s' ↔
      ∃ q t, OpenLeaf s id q ∧ (∃ f ∈ q.left, f ∈ q.right) ∧
        closeLeaf (growAll s.tree id (labels [q] (.ax id))) s.tree.nextId = some t ∧
        s' = { s.grow id [q] (.ax id) with tree := t } := by
  simp only [State.ax, refuse, Outcome.bind_eq_ok, leaf_eq_ok, Outcome.guard_eq_ok, tree_grow,
    lastId?_growAll, Option.bind_some, Outcome.ofReference_eq_ok, Outcome.pure_eq_ok]
  constructor
  · rintro ⟨q, hleaf, hshared, t, ht, rfl⟩
    exact ⟨q, t, hleaf, by simpa using hshared, ht, rfl⟩
  · rintro ⟨q, t, hleaf, hshared, ht, rfl⟩
    exact ⟨q, hleaf, by simpa using hshared, t, ht, rfl⟩

theorem exists_infers_of_quantifier {rule : QuantifierRule} {id index : Nat}
    {assignment : KeyMap String String} (h : s.quantifier rule id index assignment = .ok s') :
    ∃ q premisses, OpenLeaf s id q ∧ Infers .firstOrder q premisses ∧
      s' = s.grow id premisses (.quantifier rule id index assignment) := by
  simp only [State.quantifier, Outcome.bind_eq_ok, Prod.exists, chosen_eq_ok] at h
  obtain ⟨q, f, ⟨hleaf, hf⟩, h⟩ := h
  split at h
  · cases h
  next x body hbody =>
    split at h
    · cases h
    next name _ =>
      simp only [refuse, Outcome.bind_eq_ok, Outcome.guard_eq_ok, Outcome.pure_eq_ok] at h
      obtain ⟨-, -, hused, rfl⟩ := h
      by_cases hrule : rule.eigenvariable = true
      · rw [if_pos hrule]
        refine ⟨q, _, hleaf, .dropping rfl hf hbody hrule fun g hg hname => hused ?_, rfl⟩
        simpa [hrule] using ⟨g, hg, hname⟩
      · rw [if_neg hrule]
        exact ⟨q, _, hleaf, .keeping rfl hf hbody (Bool.not_eq_true _ ▸ hrule), rfl⟩

theorem advances_of_advance {m : Move} (h : advance logic s m = .ok s') : Advances logic s s' := by
  cases m with
  | ax id =>
    obtain ⟨q, t, hleaf, ⟨f, hleft, hright⟩, ht, rfl⟩ := ax_eq_ok.mp h
    exact .ax hleaf hleft hright _ ht
  | connective rule id index =>
    obtain ⟨q, f, premisses, hleaf, hf, hpremisses, rfl⟩ := connective_eq_ok.mp h
    exact .infer hleaf (.connective hf hpremisses) _
  | quantifier rule id index assignment =>
    cases logic with
    | propositional => cases h
    | firstOrder =>
      obtain ⟨q, premisses, hleaf, hinfers, rfl⟩ := exists_infers_of_quantifier h
      exact .infer hleaf hinfers _
  | undo => cases h

/-- A move that takes none back is kept as it is. -/
theorem history_of_advance {m : Move} (h : advance logic s m = .ok s') :
    s'.history = s.history ++ [m] := by
  cases m with
  | ax id =>
    obtain ⟨q, t, -, -, -, rfl⟩ := ax_eq_ok.mp h
    rfl
  | connective rule id index =>
    obtain ⟨q, f, premisses, -, -, -, rfl⟩ := connective_eq_ok.mp h
    rfl
  | quantifier rule id index assignment =>
    cases logic with
    | propositional => cases h
    | firstOrder =>
      obtain ⟨q, premisses, -, -, rfl⟩ := exists_infers_of_quantifier h
      rfl
  | undo => cases h

theorem step_of_ne {m : Move} (hm : m ≠ .undo) : step logic s m = advance logic s m :=
  Rules.stepWithin_of_ne hm _ s

/-- A move that takes none back is one that no other has to be taken back for. -/
theorem advances_of_step {m : Move} (hm : m ≠ .undo) (h : step logic s m = .ok s') :
    Advances logic s s' :=
  advances_of_advance ((step_of_ne hm).symm.trans h)

/-- Whether a tree is one of a proof of a sequent. As long as there are ids, closed leaves have a
formula on both sides. -/
structure Formed (q : Sequent) (t : Tree Label) : Prop where
  /-- Every node but the root has a parent that lists its id. -/
  rooted : Rooted t
  /-- The root has the sequent. -/
  origin : ∃ n, t.get? root = some n ∧ n.label.sequent = q.splitIff.distinct
  /-- The links are proper as long as there are ids. -/
  linked : t.size ≤ UInt32.size → Linked t
  /-- Nodes are closed as their children are, as long as there are ids. -/
  settled : t.size ≤ UInt32.size → Settled t
  /-- Closed leaves have a formula on both sides, as long as there are ids. -/
  shared : t.size ≤ UInt32.size → ∀ i n, t.get? i = some n → n.isLeaf = true →
    n.isClosed = true → ∃ f ∈ n.label.sequent.left, f ∈ n.label.sequent.right

variable {q : Sequent} {t : Tree Label}

theorem formed_single (q : Sequent) : Formed q (single ⟨q.splitIff.distinct, none⟩) where
  rooted := (linked_single _).toRooted
  origin := ⟨_, rfl, rfl⟩
  linked _ := linked_single _
  settled _ := settled_single _
  shared _ i n hn _ hclosed := by
    rw [(eq_of_get?_single hn).2] at hclosed
    cases hclosed

theorem Formed.growAll {leaf : Nat} {n : Node Label} (h : Formed q t) (hn : t.get? leaf = some n)
    (hopen : n.isClosed = false) (labels : List Label) : Formed q (growAll t leaf labels) := by
  have hlt := Arena.lt_size_of_get? hn
  have hext := extends_growAll labels hlt
  have hfits (hfits : (Tree.growAll t leaf labels).size ≤ UInt32.size) : t.size ≤ UInt32.size :=
    Nat.le_trans hext.keepsParents.size_le hfits
  constructor
  case rooted => exact h.rooted.growAll labels hlt
  case origin =>
    obtain ⟨r, hr, hsequent⟩ := h.origin
    obtain ⟨ids, hids⟩ := hext.node hr
    exact ⟨_, hids, hsequent⟩
  case linked => exact fun hsize => (h.linked (hfits hsize)).growAll labels hlt hsize
  case settled => exact fun hsize => (h.settled (hfits hsize)).growAll labels h.rooted hn hopen
  case shared =>
    intro hsize i m hm hleaf hclosed
    exact h.shared (hfits hsize) i m (hext.get?_of_closed_leaf hm hleaf hclosed) hleaf hclosed

/-- Closing keeps a proof formed if, as long as there are ids, an open leaf with a formula on both
sides is closed. -/
theorem Formed.closeLeaf {i : Nat} {t' : Tree Label} (h : Formed q t)
    (ht' : closeLeaf t i = some t')
    (hleaf : t.size ≤ UInt32.size → i < UInt32.size ∧ ∃ n, t.get? i = some n ∧
      n.isLeaf = true ∧ n.isClosed = false ∧
      ∃ f ∈ n.label.sequent.left, f ∈ n.label.sequent.right) : Formed q t' := by
  have hother {j : Nat} {m : Node Label} (hm : t'.get? j = some m) (hj : j ≠ i) :=
    get?_of_closeLeaf h.rooted ht' hm hj
  obtain ⟨ids, rfl, -⟩ := closeLeaf_eq_markAll h.rooted ht'
  have hshape := sameShape_markAll t ids
  constructor
  case rooted => exact h.rooted.of_sameShape hshape
  case origin =>
    obtain ⟨r, hr, hsequent⟩ := h.origin
    exact ⟨_, get?_markAll_of_some hr ids, hsequent⟩
  case linked => exact fun hfits => (h.linked (hshape.size_eq ▸ hfits)).of_sameShape hshape
  case settled =>
    intro hfits
    rw [hshape.size_eq] at hfits
    obtain ⟨hi, n, hn, hn_leaf, hopen, -⟩ := hleaf hfits
    exact (h.settled hfits).closeLeaf h.rooted (h.linked hfits).tidy hi hn hn_leaf hopen ht'
  case shared =>
    intro hfits j m hm hm_leaf hclosed
    rw [hshape.size_eq] at hfits
    obtain ⟨-, n, hn, -, -, hshared⟩ := hleaf hfits
    by_cases hj : j = i
    · subst hj
      cases (get?_markAll_of_some hn ids).symm.trans hm
      exact hshared
    · exact h.shared hfits j m (hother hm hj hm_leaf) hm_leaf hclosed

theorem Formed.advance (h : Formed q s.tree) (hadvance : Advances logic s s') :
    Formed q s'.tree := by
  cases hadvance with
  | infer hleaf _ m =>
    obtain ⟨-, n, hn, -, hopen, -⟩ := hleaf
    rw [tree_grow]
    exact h.growAll hn hopen _
  | @ax _ _ f _ hleaf hleft hright m ht =>
    obtain ⟨-, n, hn, -, hopen, rfl⟩ := hleaf
    refine (h.growAll hn hopen _).closeLeaf ht fun hfits => ?_
    -- The id of the new node is its own.
    have hlt : s.tree.size < UInt32.size := by
      rw [size_growAll] at hfits
      exact hfits
    have hnew := get?_growAll_single ⟨n.label.sequent.distinct, some m⟩ (Arena.lt_size_of_get? hn)
    rw [Arena.nextId_of_lt hlt]
    exact ⟨hlt, _, hnew, rfl, rfl, f, List.mem_eraseDups.mpr hleft, List.mem_eraseDups.mpr hright⟩

theorem onlyApplicable_of_advances (h : Advances logic s s') :
    s'.onlyApplicable = s.onlyApplicable := by
  cases h <;> rfl

/-- The start of a proof is found at its root. -/
theorem Formed.fresh_eq (h : Formed q s.tree) : s.fresh = .ok (.initial q s.onlyApplicable) := by
  obtain ⟨n, hn, hsequent⟩ := h.origin
  rw [State.fresh, hn]
  simp only [Outcome.ofReference, Outcome.ok_bind, hsequent, State.initial, q.prepared_prepared]
  rfl

theorem earlier_eq_ok {start : State × List Move} :
    s.earlier = .ok start ↔
      s.history ≠ [] ∧ ∃ s₀, s.fresh = .ok s₀ ∧ start = (s₀, s.history.dropLast) := by
  simp only [State.earlier, refuse, Outcome.guard_eq_ok, Outcome.bind_eq_ok, Outcome.pure_eq_ok,
    List.isEmpty_iff, @eq_comm _ start]

/-- What holds before the first move and is kept by moves that take none back holds after every
run. -/
theorem run_induction {b : Bool} {P : State → Prop} (hinitial : P (.initial q b))
    (hadvance : ∀ s s', Formed q s.tree → Advances logic s s' → P s → P s') {moves : List Move}
    (h : moves.foldlM (step logic) (.initial q b) = .ok s) : Formed q s.tree ∧ P s := by
  let Q (s : State) : Prop := Formed q s.tree ∧ s.onlyApplicable = b ∧ P s
  have hstart : Q (.initial q b) := ⟨formed_single q, rfl, hinitial⟩
  have hend : Q s := by
    refine Rules.run (fun s s₀ moves hs₀ hs => ?_) (fun s s' m hm hs => ?_) h hstart
    · obtain ⟨-, s₁, hs₁, heq⟩ := earlier_eq_ok.mp hs₀
      cases heq
      rw [hs.1.fresh_eq, hs.2.1] at hs₁
      cases hs₁
      exact hstart
    · obtain ⟨hformed, hflag, hP⟩ := hs
      have hadv := advances_of_advance hm
      exact ⟨hformed.advance hadv, (onlyApplicable_of_advances hadv).trans hflag,
        hadvance s s' hformed hadv hP⟩
  exact ⟨hend.1, hend.2.2⟩

theorem formed_of_run {b : Bool} {moves : List Move}
    (h : moves.foldlM (step logic) (.initial q b) = .ok s) : Formed q s.tree :=
  (run_induction (P := fun _ => True) trivial (fun _ _ _ _ h => h) h).1

end SequentProof

end Deduction
