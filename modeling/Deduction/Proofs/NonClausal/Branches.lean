import Deduction.Proofs.NonClausal.Moves
import Deduction.Proofs.Tree.Overflow

/-!
# The tree of a non-clausal tableau

Decomposing a formula adds open nodes below open leaves, so branches only get longer;
closing a leaf changes no branch but instantiates all formulas. If everything on some
branch is true, this is so after a formula has been decomposed: where a branch goes on
with what follows from a formula on it, some side of it is true again. This is said of
trees that have no more nodes than there are ids; in greater ones the root stays open.
-/

namespace Deduction.NonClausal

open Deduction.Tree

variable {s s' : State} {t : Tree Label} {p : Nat}

theorem mem_formulas {f : Formula} :
    f ∈ s.formulas ↔ ∃ i n, s.tree.get? i = some n ∧ n.label.formula = f := by
  simp only [State.formulas, List.mem_map, Arena.mem_items]
  constructor
  · rintro ⟨n, ⟨i, hi⟩, hf⟩
    exact ⟨i, n, hi, hf⟩
  · rintro ⟨i, n, hi, hf⟩
    exact ⟨n, ⟨i, hi⟩, hf⟩

theorem formula_mem_formulas {i : Nat} {n : Node Label} (h : s.tree.get? i = some n) :
    n.label.formula ∈ s.formulas := mem_formulas.mpr ⟨i, n, h, rfl⟩

namespace Expansion

/-- Whether a node of the tree is open. -/
def OpenAt (t : Tree Label) (p : Nat) : Prop := ∃ n, t.get? p = some n ∧ n.isClosed = false

theorem OpenAt.lt_size (h : OpenAt t p) : p < t.size := by
  obtain ⟨n, hn, -⟩ := h
  exact Arena.lt_size_of_get? hn

theorem OpenAt.mono {t' : Tree Label} (hext : Extends t t') (h : OpenAt t p) : OpenAt t' p := by
  obtain ⟨n, hn, hopen⟩ := h
  obtain ⟨ids, hids⟩ := hext.node hn
  exact ⟨_, hids, hopen⟩

private theorem openAt_grow (hp : p < t.size) (label : Label) :
    OpenAt (Tree.grow t p label) t.size :=
  ⟨_, get?_grow_new hp label, rfl⟩

/-- A property of trees that is kept whenever a node is added is kept by an expansion. As long as
there are ids, the node is added below an open one. -/
theorem grow_induction {motive : Tree Label → Prop} (e : Expansion) (ht : Rooted t)
    (hp : OpenAt t p) (start : motive t)
    (step : ∀ t' q f, Extends t t' → Rooted t' → q < t'.size →
      (t'.size ≤ UInt32.size → OpenAt t' q) → f ∈ e.formulas → motive t' →
      motive (Tree.grow t' q ⟨f, none⟩)) : motive (e.grow t p) := by
  have hlt := hp.lt_size
  have hfirst (f : Formula) (hf : f ∈ e.formulas) : motive (Tree.grow t p ⟨f, none⟩) :=
    step t p f (.refl t) ht hlt (fun _ => hp) hf start
  cases e with
  | one f => exact hfirst f (by simp [formulas])
  | chain f g =>
    refine step _ _ g (extends_grow hlt _) (ht.grow hlt _) ?_ (fun hfits => ?_) (by simp [formulas])
      (hfirst f (by simp [formulas]))
    · rw [size_grow]
      exact Nat.lt_succ_of_le (Arena.idOf_le t.size)
    · rw [size_grow] at hfits
      rw [Arena.nextId_of_lt hfits]
      exact openAt_grow hlt _
  | fork f g =>
    have hext := extends_grow hlt (⟨f, none⟩ : Label)
    exact step _ _ g hext (ht.grow hlt _) (hp.mono hext).lt_size (fun _ => hp.mono hext)
      (by simp [formulas]) (hfirst f (by simp [formulas]))

theorem extends_grow (e : Expansion) (ht : Rooted t) (hp : OpenAt t p) : Extends t (e.grow t p) :=
  e.grow_induction ht hp (.refl t) fun _ _ _ _ _ hq _ _ hext =>
    hext.trans (Tree.extends_grow hq _)

theorem rooted_grow (e : Expansion) (ht : Rooted t) (hp : OpenAt t p) : Rooted (e.grow t p) :=
  e.grow_induction ht hp ht fun _ _ _ _ _ hq _ _ hrooted => hrooted.grow hq _

theorem steady_grow (e : Expansion) (ht : Steady t) (hp : OpenAt t p) : Steady (e.grow t p) :=
  e.grow_induction ht.rooted hp ht fun _ _ _ _ _ hq hopen _ hsteady => hsteady.grow hq hopen _

/-- A live branch stays live if, where it is the extended one, some side of the extension is. -/
theorem live_grow {P : Label → Prop} (e : Expansion) (ht : Rooted t) (hp : p < t.size)
    (hfits : (e.grow t p).size ≤ UInt32.size) (hlive : ∃ i, LiveAt t P i)
    (hside : Along t P p → e.SomeSide fun f => P ⟨f, none⟩) : ∃ i, LiveAt (e.grow t p) P i := by
  obtain ⟨i, hi⟩ := hlive
  obtain ⟨n, hn, -⟩ := hi.leaf
  have hlt := Arena.lt_size_of_get? hn
  have hgrow (f : Formula) := ht.grow hp (⟨f, none⟩ : Label)
  have hp' (f : Formula) : p < (Tree.grow t p (⟨f, none⟩ : Label)).size := by
    rw [size_grow]
    omega
  cases e with
  | one f =>
    by_cases hpi : p = i
    · subst hpi
      exact ⟨_, .grow_new ht hp hi.along (hside hi.along)⟩
    · exact ⟨i, hi.grow_of_ne ht hp hpi⟩
  | chain f g =>
    have hnext : t.nextId = t.size := by
      refine Arena.nextId_of_lt ?_
      rw [grow, State.growChain, size_grow, size_grow] at hfits
      omega
    rw [grow, State.growChain, hnext]
    by_cases hpi : p = i
    · subst hpi
      obtain ⟨hf, hg⟩ := hside hi.along
      have hfirst : LiveAt _ P _ := .grow_new ht hp hi.along hf
      exact ⟨_, .grow_new (hgrow f) (by simp) hfirst.along hg⟩
    · exact ⟨i, (hi.grow_of_ne ht hp hpi).grow_of_ne (hgrow f) (by simp) (Nat.ne_of_gt hlt)⟩
  | fork f g =>
    by_cases hpi : p = i
    · subst hpi
      rcases hside hi.along with hf | hg
      · exact ⟨_, (LiveAt.grow_new ht hp hi.along hf).grow_of_ne (hgrow f) (hp' f)
          (Nat.ne_of_lt hp)⟩
      · have hold := hi.along.mono ht (Tree.extends_grow hp (⟨f, none⟩ : Label)) hp
        exact ⟨_, .grow_new (hgrow f) (hp' f) hold hg⟩
    · exact ⟨i, (hi.grow_of_ne ht hp hpi).grow_of_ne (hgrow f) (hp' f) hpi⟩

end Expansion

namespace Expands

open Expansion

variable {f : Formula} {e : Expansion}

theorem mem_formulas (h : Expands s s' f e) : f ∈ s.formulas := by
  obtain ⟨id, n, leaves, hn, rfl, -⟩ := h.tree
  exact formula_mem_formulas hn

/-- A property of trees that is kept by each expansion of an open leaf is kept by the move. As long
as there are ids, the formula stands above the leaf. -/
theorem tree_induction {motive : Tree Label → Prop} (h : Expands s s' f e) (ht : Rooted s.tree)
    (start : motive s.tree)
    (step : ∀ t p, Extends s.tree t → Rooted t → OpenAt t p →
      (Linked s.tree → ∃ i n, Above t i p ∧ t.get? i = some n ∧ n.label.formula = f) →
      motive t → motive (e.grow t p)) : motive s'.tree := by
  obtain ⟨i, n, leaves, hn, hf, hleaves, htree⟩ := h.tree
  -- Along the leaves the tree extends the first one, so what is above a leaf stays above it.
  have hfold : ∀ (ids : List Nat) (t : Tree Label), ids ⊆ leaves → Extends s.tree t → Rooted t →
      motive t → motive (ids.foldl e.grow t) := by
    intro ids
    induction ids with
    | nil => exact fun t _ _ _ hmotive => hmotive
    | cons p ids ih =>
      intro t hsub hext hrooted hmotive
      have hp := hsub List.mem_cons_self
      have hopen : OpenAt t p := by
        obtain ⟨m, hm, -, hopen⟩ := isOpen_of_mem_openLeaves hleaves hp
        exact OpenAt.mono hext ⟨m, hm, hopen⟩
      refine ih _ (fun q hq => hsub (List.mem_cons_of_mem p hq))
        (hext.trans (e.extends_grow hrooted hopen)) (e.rooted_grow hrooted hopen)
        (step t p hext hrooted hopen (fun hlinked => ?_) hmotive)
      obtain ⟨_, hnode⟩ := hext.node hn
      exact ⟨i, _, (above_of_mem_openLeavesWithin hlinked hleaves hp).mono hext, hnode, hf⟩
  rw [htree]
  exact hfold leaves s.tree (fun _ hp => hp) (.refl _) ht start

theorem extends_tree (h : Expands s s' f e) (ht : Rooted s.tree) : Extends s.tree s'.tree :=
  h.tree_induction ht (.refl _) fun _ _ _ hrooted hopen _ hext =>
    hext.trans (e.extends_grow hrooted hopen)

theorem steady (h : Expands s s' f e) (ht : Steady s.tree) : Steady s'.tree :=
  h.tree_induction ht.rooted ht fun _ _ _ _ hopen _ hsteady => e.steady_grow hsteady hopen

/-- The formulas of the tableau stay, and others come from the rule. -/
theorem forall_formulas {P : Formula → Prop} (h : Expands s s' f e) (ht : Rooted s.tree)
    (hold : ∀ g ∈ s.formulas, P g) (hnew : ∀ g ∈ e.formulas, P g) : ∀ g ∈ s'.formulas, P g := by
  have hall : ∀ i n, s'.tree.get? i = some n → P n.label.formula := by
    refine h.tree_induction (motive := fun t => ∀ i n, t.get? i = some n → P n.label.formula) ht
      (fun i n hn => hold _ (formula_mem_formulas hn)) ?_
    intro t p _ hrooted hopen _ hall
    refine e.grow_induction (motive := fun t => ∀ i n, t.get? i = some n → P n.label.formula)
      hrooted hopen hall fun t' q g _ _ hq _ hg hall i m hm => ?_
    rcases of_get?_grow hq hm with ⟨-, rfl⟩ | ⟨k, hk, rfl⟩
    · exact hnew g hg
    · split <;> exact hall i k hk
  intro g hg
  obtain ⟨i, n, hn, rfl⟩ := NonClausal.mem_formulas.mp hg
  exact hall i n hn

theorem formulas_subset (h : Expands s s' f e) (ht : Rooted s.tree) :
    s.formulas ⊆ s'.formulas := by
  intro g hg
  obtain ⟨i, n, hn, rfl⟩ := NonClausal.mem_formulas.mp hg
  obtain ⟨ids, hids⟩ := (h.extends_tree ht).node hn
  exact NonClausal.mem_formulas.mpr ⟨i, _, hids, rfl⟩

/-- Some branch stays true if the decomposed formula implies that some side is. -/
theorem live {P : Formula → Prop} (h : Expands s s' f e) (ht : Steady s.tree)
    (hfits : s'.tree.size ≤ UInt32.size) (hlive : ∃ i, LiveAt s.tree (fun l => P l.formula) i)
    (hside : P f → e.SomeSide P) : ∃ i, LiveAt s'.tree (fun l => P l.formula) i := by
  refine h.tree_induction (motive := fun t => t.size ≤ UInt32.size →
    ∃ i, LiveAt t (fun l => P l.formula) i) ht.rooted (fun _ => hlive)
    (fun t p hext hrooted hopen habove hlive hfits => ?_) hfits
  have hsize := Nat.le_trans (e.extends_grow hrooted hopen).keepsParents.size_le hfits
  refine e.live_grow hrooted hopen.lt_size hfits (hlive hsize) fun halong => hside ?_
  obtain ⟨i, n, hi, hn, rfl⟩ := habove (ht.linked (Nat.le_trans hext.keepsParents.size_le hsize))
  exact halong i n hi hn

end Expands

namespace Closes

variable {leaf partner : Nat} {assignment : Option (KeyMap String String)} {σ : Substitution}

/-- A node with its formula instantiated and, if it is the closed leaf, its partner. -/
def relabel (σ : Substitution) (leaf partner i : Nat) (n : Node Label) : Node Label :=
  { n with label := ⟨n.label.formula.instantiate σ,
      if leaf = i then some partner else n.label.closeRef⟩ }

theorem get?_relabelled (s : State) (σ : Substitution) (leaf partner i : Nat) :
    ((s.instantiate σ).tree.modify leaf fun n =>
      { n with label := { n.label with closeRef := some partner } }).get? i =
      (s.tree.get? i).map (relabel σ leaf partner i) := by
  rw [Arena.get?_modify, State.instantiate, mapLabels, Arena.get?_map, Option.map_map]
  congr 1
  funext n
  by_cases hi : leaf = i <;> simp [relabel, hi]

/-- The nodes after closing: every formula is instantiated, and the leaf and some nodes with
children are marked as closed. -/
theorem exists_get?_eq (h : Closes s s' leaf partner assignment σ) (ht : Rooted s.tree) :
    ∃ ids : List Nat, leaf ∈ ids ∧
      (∀ j ∈ ids, j ≠ leaf → ∀ n, s.tree.get? j = some n → n.isLeaf = false) ∧
      ∀ i, s'.tree.get? i = (s.tree.get? i).map fun n =>
        { relabel σ leaf partner i n with isClosed := n.isClosed || ids.contains i } := by
  have hshape := sameShape_of_map (get?_relabelled s σ leaf partner) fun _ _ => ⟨rfl, rfl⟩
  obtain ⟨ids, htree, hleaf, hinner⟩ := closeLeaf_eq_markAll (ht.of_sameShape hshape) h.tree
  refine ⟨ids, hleaf, fun j hj hne n hn => ?_, fun i => ?_⟩
  · exact hinner j hj hne (relabel σ leaf partner j n) (by rw [get?_relabelled, hn]; rfl)
  · rw [htree, get?_markAll, get?_relabelled, Option.map_map]
    rfl

theorem sameShape (h : Closes s s' leaf partner assignment σ) (ht : Rooted s.tree) :
    SameShape s.tree s'.tree := by
  obtain ⟨ids, -, -, hget⟩ := h.exists_get?_eq ht
  exact sameShape_of_map hget fun _ _ => ⟨rfl, rfl⟩

/-- The formula of every node is instantiated. -/
theorem formula_eq (h : Closes s s' leaf partner assignment σ) (ht : Rooted s.tree) {i : Nat}
    {n n' : Node Label} (hn : s.tree.get? i = some n) (hn' : s'.tree.get? i = some n') :
    n'.label.formula = n.label.formula.instantiate σ := by
  obtain ⟨ids, -, -, hget⟩ := h.exists_get?_eq ht
  rw [hget, hn] at hn'
  cases hn'
  rfl

/-- The formulas after closing are the instances of those before. -/
theorem mem_formulas_iff (h : Closes s s' leaf partner assignment σ) (ht : Rooted s.tree)
    {g : Formula} : g ∈ s'.formulas ↔ ∃ f ∈ s.formulas, g = f.instantiate σ := by
  constructor
  · intro hg
    obtain ⟨i, n', hn', rfl⟩ := mem_formulas.mp hg
    obtain ⟨n, hn, -⟩ := (h.sameShape ht).symm.node hn'
    exact ⟨_, formula_mem_formulas hn, h.formula_eq ht hn hn'⟩
  · rintro ⟨f, hf, rfl⟩
    obtain ⟨i, n, hn, rfl⟩ := mem_formulas.mp hf
    obtain ⟨n', hn', -⟩ := (h.sameShape ht).node hn
    exact mem_formulas.mpr ⟨i, n', hn', h.formula_eq ht hn hn'⟩

theorem steady (h : Closes s s' leaf partner assignment σ) (ht : Steady s.tree) :
    Steady s'.tree := by
  obtain ⟨n, -, -, -, hn, hleaf, hopen, -⟩ := h.relations
  have hget := get?_relabelled s σ leaf partner
  have hnode := (hget leaf).trans (congrArg _ hn)
  exact (ht.of_map hget fun _ _ => ⟨rfl, rfl, rfl⟩).closeLeaf h.named hnode hleaf hopen h.tree

/-- Some branch stays true if what the instances say is what the formulas said. -/
theorem live {P Q : Formula → Prop} (h : Closes s s' leaf partner assignment σ)
    (ht : Rooted s.tree) (hlive : ∃ i, LiveAt s.tree (fun l => P l.formula) i)
    (hPQ : ∀ f ∈ s.formulas, P f → Q (f.instantiate σ)) :
    ∃ i, LiveAt s'.tree (fun l => Q l.formula) i := by
  obtain ⟨i, hi⟩ := hlive
  refine ⟨i, hi.of_sameShape (h.sameShape ht) fun j n n' hn hn' hP => ?_⟩
  rw [h.formula_eq ht hn hn']
  exact hPQ _ (formula_mem_formulas hn) hP

end Closes

/-- Whether a relation and its negation stand at a node and above it. -/
def ClashesAt (t : Tree Label) (i : Nat) : Prop :=
  ∃ j n m r, Above t j i ∧ t.get? i = some n ∧ t.get? j = some m ∧
    Opposed r r n.label.formula m.label.formula

/-- Whether every closed leaf is closed for a reason. -/
def Justified (t : Tree Label) : Prop :=
  ∀ i n, t.get? i = some n → n.isLeaf = true → n.isClosed = true → ClashesAt t i

theorem Expands.justified {f : Formula} {e : Expansion} (h : Expands s s' f e)
    (ht : Rooted s.tree) (hj : Justified s.tree) : Justified s'.tree := by
  have hext := h.extends_tree ht
  intro i n' hn' hleaf hclosed
  cases hold : s.tree.get? i with
  | none =>
    rw [hext.isOpen hn' hold] at hclosed
    cases hclosed
  | some n =>
    obtain ⟨ids, hids⟩ := hext.node hold
    cases hids.symm.trans hn'
    have hnil : n.children ++ ids = [] := List.isEmpty_iff.mp hleaf
    obtain ⟨j, n, m, r, hji, hn, hm, hopposed⟩ :=
      hj i n hold (List.isEmpty_iff.mpr (List.append_eq_nil_iff.mp hnil).1) hclosed
    obtain ⟨_, hn⟩ := hext.node hn
    obtain ⟨_, hm⟩ := hext.node hm
    exact ⟨j, _, _, r, hji.mono hext, hn, hm, hopposed⟩

theorem Closes.justified {leaf partner : Nat} {assignment : Option (KeyMap String String)}
    {σ : Substitution} (h : Closes s s' leaf partner assignment σ) (ht : Rooted s.tree)
    (hj : Justified s.tree) : Justified s'.tree := by
  have hshape := h.sameShape ht
  -- A clash stays one when both formulas are instantiated.
  have keep {i j : Nat} {n m : Node Label} {l r : Relation} (hji : Above s.tree j i)
      (hn : s.tree.get? i = some n) (hm : s.tree.get? j = some m)
      (hopposed : Opposed l r n.label.formula m.label.formula)
      (hequal : l.instantiate σ = r.instantiate σ) : ClashesAt s'.tree i := by
    obtain ⟨n', hn', -⟩ := hshape.node hn
    obtain ⟨m', hm', -⟩ := hshape.node hm
    refine ⟨j, n', m', r.instantiate σ, hji.of_sameShape hshape, hn', hm', ?_⟩
    rw [h.formula_eq ht hn hn', h.formula_eq ht hm hm']
    have hboth := hopposed.instantiate σ
    rwa [hequal] at hboth
  obtain ⟨ids, -, hinner, hget⟩ := h.exists_get?_eq ht
  intro i n' hn' hleaf hclosed
  by_cases hi : i = leaf
  · subst hi
    obtain ⟨n, m, l, r, hn, -, -, hm, hopposed, -, hequal⟩ := h.relations
    exact keep h.above hn hm hopposed hequal
  · rw [hget] at hn'
    obtain ⟨n, hn, rfl⟩ := Option.map_eq_some_iff.mp hn'
    have hleaf : n.isLeaf = true := hleaf
    have hnotMem : i ∉ ids := by
      intro hmem
      rw [hinner i hmem hi n hn] at hleaf
      cases hleaf
    have hclosed : n.isClosed = true := by simpa [hnotMem] using hclosed
    obtain ⟨j, n, m, r, hji, hn, hm, hopposed⟩ := hj i n hn hleaf hclosed
    exact keep hji hn hm hopposed rfl

/-- A tableau with a closed root has no true branch. -/
theorem not_live_of_closed {P : Formula → Prop} (ht : Steady t) (hj : Justified t)
    {n : Node Label} (hn : t.get? root = some n) (hclosed : n.isClosed = true)
    (hP : ∀ r, P (.rel r) → ¬ P (.not (.rel r))) : ¬ ∃ i, LiveAt t (fun l => P l.formula) i := by
  rintro ⟨i, hi⟩
  obtain ⟨m, hm, hleaf⟩ := hi.leaf
  have hfits := ht.fits_of_isClosed_root hn hclosed
  have hm_closed := isClosed_of_root (ht.linked hfits) (ht.settled hfits) hn hclosed hm
  obtain ⟨j, k, l, r, hji, hk, hl, hopposed⟩ := hj i m hm hleaf hm_closed
  have hhere := hi.along i k .here hk
  have habove := hi.along j l hji hl
  rcases hopposed with ⟨hf, hg⟩ | ⟨hf, hg⟩ <;> simp only [hf, hg] at hhere habove
  · exact hP r habove hhere
  · exact hP r hhere habove

end Deduction.NonClausal
