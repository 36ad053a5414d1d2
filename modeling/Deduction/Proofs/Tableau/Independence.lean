import Deduction.Proofs.Tableau.Leaves

/-!
# Closing leaves in any order

Two leaves of a clausal tableau are closed independently of each other. Closing one of them
leaves the other one, its branch and the atoms on it as they are, so it can still be closed.
The nodes above are marked by the two moves in different order, and each move stops where
it meets a node with an open child; but afterwards the tree is settled, and so the marks
depend on the closed leaves only.
-/

namespace Deduction.Tableau

open Deduction.Tree

variable {L : Type} {s s₁ s₂ s₁₂ s₂₁ : State L} {leaf₁ leaf₂ partner₁ partner₂ : Nat}

/-- A leaf that can be closed can still be closed after another one. -/
theorem Closes.exists_close_after [DecidableEq L] [Literal L] (ht : Rooted s.tree)
    (h₁ : Closes s s₁ leaf₁ partner₁) (h₂ : Closes s s₂ leaf₂ partner₂) (hne : leaf₂ ≠ leaf₁) :
    ∃ s', s₁.close leaf₂ partner₂ = .ok s' := by
  obtain ⟨n, m, a, hn, hleaf, hopen, hm, hna, hma⟩ := h₂.pair
  have hshape := h₁.sameShape ht
  have hgoes := (h₁.goesOn ht).1
  have hn₁ : s₁.tree.get? leaf₂ = some n := hgoes.leaf hn hleaf (by simpa using hne)
  obtain ⟨m₁, hm₁, -, hatom, -⟩ := hgoes.node hm
  obtain ⟨t, hclose⟩ := exists_close (ht.of_sameShape hshape) h₂.named hn₁ hleaf hopen hna hm₁
    (hatom.trans hma) (h₂.above.of_sameShape hshape)
  exact ⟨_, hclose⟩

section BothOrders

variable (ht : Rooted s.tree) (h₁ : Closes s s₁ leaf₁ partner₁)
  (h₁₂ : Closes s₁ s₁₂ leaf₂ partner₂) (h₂ : Closes s s₂ leaf₂ partner₂)
  (h₂₁ : Closes s₂ s₂₁ leaf₁ partner₁) (hne : leaf₁ ≠ leaf₂)

include ht h₁ h₁₂ h₂ h₂₁ hne

/-- Both orders put the same references at the two leaves and change no node besides, except that
they close nodes. -/
theorem Closes.reopen_comm (i : Nat) :
    (s₁₂.tree.get? i).map reopen = (s₂₁.tree.get? i).map reopen := by
  obtain ⟨_, -, hget₁⟩ := h₁.exists_get?_eq ht
  obtain ⟨_, -, hget₂⟩ := h₂.exists_get?_eq ht
  obtain ⟨_, -, hget₁₂⟩ := h₁₂.exists_get?_eq (ht.of_sameShape (h₁.sameShape ht))
  obtain ⟨_, -, hget₂₁⟩ := h₂₁.exists_get?_eq (ht.of_sameShape (h₂.sameShape ht))
  simp only [hget₁₂, hget₁, hget₂₁, hget₂, Option.map_map]
  congr 1
  funext n
  by_cases hi₁ : leaf₁ = i
  · have hi₂ : leaf₂ ≠ i := hi₁ ▸ hne.symm
    simp [reopen, hi₁, hi₂]
  · simp [reopen, hi₁]

/-- The two leaves are closed in both orders, and the other leaves are as they were. -/
theorem Closes.isClosed_comm {i : Nat} {n n' : Node (Label L)} (hn : s₁₂.tree.get? i = some n)
    (hn' : s₂₁.tree.get? i = some n') (hleaf : n.isLeaf = true) (hleaf' : n'.isLeaf = true) :
    n.isClosed = n'.isClosed := by
  have ht₁ := ht.of_sameShape (h₁.sameShape ht)
  have ht₂ := ht.of_sameShape (h₂.sameShape ht)
  have hclosed : ClosedAt s₁₂.tree i → ClosedAt s₂₁.tree i → n.isClosed = n'.isClosed := by
    rintro ⟨k, hk, hk_closed⟩ ⟨k', hk', hk'_closed⟩
    cases hn.symm.trans hk
    cases hn'.symm.trans hk'
    rw [hk_closed, hk'_closed]
  by_cases hi₁ : i = leaf₁
  · subst hi₁
    exact hclosed ((h₁.goesOn ht).2.goesOn (h₁₂.goesOn ht₁).1) (h₂₁.goesOn ht₂).2
  by_cases hi₂ : i = leaf₂
  · subst hi₂
    exact hclosed (h₁₂.goesOn ht₁).2 ((h₂.goesOn ht).2.goesOn (h₂₁.goesOn ht₂).1)
  have hold := h₁.get?_of_leaf ht (h₁₂.get?_of_leaf ht₁ hn hi₂ hleaf) hi₁ hleaf
  have hold' := h₂.get?_of_leaf ht (h₂₁.get?_of_leaf ht₂ hn' hi₁ hleaf') hi₂ hleaf'
  cases hold.symm.trans hold'
  rfl

/-- Closing two leaves leaves the same tableau in both orders. -/
theorem Closes.comm (htidy : Tidy s.tree) (hs : Settled s.tree) : s₁₂ = s₂₁ := by
  have ht₁ := ht.of_sameShape (h₁.sameShape ht)
  have ht₂ := ht.of_sameShape (h₂.sameShape ht)
  have hs₁₂ : Settled s₁₂.tree :=
    h₁₂.settled ht₁ (htidy.of_sameShape (h₁.sameShape ht)) (h₁.settled ht htidy hs)
  have hs₂₁ : Settled s₂₁.tree :=
    h₂₁.settled ht₂ (htidy.of_sameShape (h₂.sameShape ht)) (h₂.settled ht htidy hs)
  have htree : s₁₂.tree = s₂₁.tree :=
    eq_of_settled (ht₁.of_sameShape (h₁₂.sameShape ht₁)) hs₁₂ hs₂₁
      (h₁.reopen_comm ht h₁₂ h₂ h₂₁ hne)
      fun _ _ _ hn hn' => h₁.isClosed_comm ht h₁₂ h₂ h₂₁ hne hn hn'
  obtain ⟨t₁, -, rfl⟩ := h₁.eq
  obtain ⟨t₂, -, rfl⟩ := h₂.eq
  obtain ⟨t₁₂, -, rfl⟩ := h₁₂.eq
  obtain ⟨t₂₁, -, rfl⟩ := h₂₁.eq
  exact congrArg (fun t => { s with tree := t }) htree

end BothOrders

/-- Closing a leaf does not depend on the moves that are kept. -/
theorem close_record [DecidableEq L] [Literal L] {s' : State L} {leaf partner : Nat}
    (h : s.close leaf partner = .ok s') (m : Move) :
    (s.record m).close leaf partner = .ok (s'.record m) := by
  obtain ⟨a, b, t, hpair, hlit, hcomplete, ht, rfl⟩ := close_eq_ok.mp h
  exact close_eq_ok.mpr ⟨a, b, t, hpair, hlit, hcomplete, ht, rfl⟩

namespace Propositional

theorem step_close_eq_ok {s s' : State String} {leaf partner : Nat}
    {assignment : Option (KeyMap String String)} :
    step s (.close leaf partner assignment) = .ok s' ↔
      ∃ t, s.close leaf partner = .ok t ∧ s' = t.record (.close leaf partner assignment) := by
  rw [step_of_ne (by simp)]
  simp only [advance, Outcome.bind_eq_ok, Outcome.pure_eq_ok, @eq_comm _ s']

/-- Closing two open leaves commutes in every tableau that can be reached: each of the moves is
still accepted after the other one, and both orders lead to the same tree and differ in the kept
moves only. -/
theorem close_close_comm (clauses : ClauseSet String) (kind : Connectedness)
    (regular backtracking manual : Bool) (moves : List Move) (s : State String)
    (hrun : moves.foldlM step (.initial clauses kind regular backtracking manual) = .ok s)
    (leaf₁ partner₁ leaf₂ partner₂ : Nat) (assignment₁ assignment₂ : Option (KeyMap String String))
    (s₁ s₂ : State String) (hne : leaf₁ ≠ leaf₂)
    (h₁ : step s (.close leaf₁ partner₁ assignment₁) = .ok s₁)
    (h₂ : step s (.close leaf₂ partner₂ assignment₂) = .ok s₂) :
    ∃ s₁₂ s₂₁, step s₁ (.close leaf₂ partner₂ assignment₂) = .ok s₁₂ ∧
      step s₂ (.close leaf₁ partner₁ assignment₁) = .ok s₂₁ ∧
      s₁₂.tree = s₂₁.tree ∧ s₁₂ = { s₂₁ with history := s₁₂.history } := by
  have hsound := sound_of_run hrun
  obtain ⟨r₁, hr₁, rfl⟩ := step_close_eq_ok.mp h₁
  obtain ⟨r₂, hr₂, rfl⟩ := step_close_eq_ok.mp h₂
  have hc₁ := closes_of_close hr₁
  have hc₂ := closes_of_close hr₂
  obtain ⟨r, hr₁₂⟩ := hc₁.exists_close_after hsound.rooted hc₂ hne.symm
  obtain ⟨r', hr₂₁⟩ := hc₂.exists_close_after hsound.rooted hc₁ hne
  obtain rfl := hc₁.comm hsound.rooted (closes_of_close hr₁₂) hc₂ (closes_of_close hr₂₁) hne
    hsound.tidy hsound.settled
  refine ⟨_, _, step_close_eq_ok.mpr ⟨_, close_record hr₁₂ _, rfl⟩,
    step_close_eq_ok.mpr ⟨_, close_record hr₂₁ _, rfl⟩, rfl, rfl⟩

/-- The tableau for `{a, b}`, `{¬a}` and `{¬b}` in which node 3 can be closed against node 1 and
node 4 against node 2. Either move closes one child of the root. -/
def readyPair : State String :=
  { State.initial excludedPair .weak true true false with
    tree := ⟨[⟨none, ⟨none, none⟩, false, [1, 2]⟩,
      ⟨some 0, ⟨some ⟨"a", false⟩, none⟩, false, [3]⟩,
      ⟨some 0, ⟨some ⟨"b", false⟩, none⟩, false, [4]⟩,
      ⟨some 1, ⟨some ⟨"a", true⟩, none⟩, false, []⟩,
      ⟨some 2, ⟨some ⟨"b", true⟩, none⟩, false, []⟩]⟩
    history := [.expand 0 0, .expand 1 1, .expand 2 2]
    expansions := 3 }

theorem readyPair_close_comm :
    [Move.expand 0 0, .expand 1 1, .expand 2 2].foldlM step
      (.initial excludedPair .weak true true false) = .ok readyPair ∧
    ∃ s₁ s₂ s₁₂ s₂₁, step readyPair (.close 3 1 none) = .ok s₁ ∧
      step readyPair (.close 4 2 none) = .ok s₂ ∧
      step s₁ (.close 4 2 none) = .ok s₁₂ ∧ step s₂ (.close 3 1 none) = .ok s₂₁ ∧
      s₁₂.tree = s₂₁.tree ∧ s₁₂ = { s₂₁ with history := s₁₂.history } := by
  have hrun : [Move.expand 0 0, .expand 1 1, .expand 2 2].foldlM step
      (.initial excludedPair .weak true true false) = .ok readyPair := by cbv
  obtain ⟨s₁, h₁⟩ : ∃ s₁, step readyPair (.close 3 1 none) = .ok s₁ := ⟨_, by cbv⟩
  obtain ⟨s₂, h₂⟩ : ∃ s₂, step readyPair (.close 4 2 none) = .ok s₂ := ⟨_, by cbv⟩
  obtain ⟨s₁₂, s₂₁, h⟩ := close_close_comm _ _ _ _ _ _ _ hrun 3 1 4 2 none none s₁ s₂ (by decide)
    h₁ h₂
  exact ⟨hrun, s₁, s₂, s₁₂, s₂₁, h₁, h₂, h⟩

end Propositional

end Deduction.Tableau
