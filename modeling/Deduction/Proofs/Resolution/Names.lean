import Deduction.Proofs.Grammar.Clauses
import Deduction.Proofs.Resolution.Factorization
import Deduction.Proofs.Resolution.Steps

/-!
# Names in a resolution proof

The clauses of a resolution proof start with names that can be read, since they come from a
formula that has been read. Every rule takes atoms of old clauses and puts terms in for
their variables: terms that are typed in and read, terms of a unifier, which are put
together from old ones, or variables under a suffix. So all names can be read at any time,
those in hidden clauses too.
-/

namespace Deduction

open Grammar

/-- Whether the terms of a clause have names by which they can be read. -/
def Clause.Readable (c : Clause Relation) : Prop := ∀ a ∈ c.atoms, a.lit.Readable

namespace Clause.Readable

variable {c : Clause Relation}

theorem instantiate (h : c.Readable) {σ : Substitution} (hσ : σ.Readable) :
    (c.instantiate σ).Readable := by
  intro a ha
  obtain ⟨b, hb, rfl⟩ := List.mem_map.mp ha
  exact (h b hb).bind fun _ hx => hσ.apply hx

theorem withSuffix (h : c.Readable) (n : Nat) : (c.withSuffix (Decimal.render n)).Readable := by
  intro a ha
  obtain ⟨b, hb, rfl⟩ := List.mem_map.mp ha
  exact (h b hb).bind fun _ hx => .var (hx.withSuffix n)

end Clause.Readable

namespace Resolution.FirstOrder

/-- A proof in which all terms, those of hidden clauses too, have names that can be read. -/
def ReadableProof (s : State Relation) : Prop := ∀ c ∈ s.all, c.Readable

variable {s s' : State Relation}

/-- A proof that is started from a text is readable. -/
theorem readableProof_of_start {params : Params} {text : String}
    (h : start params text = .ok s) : ReadableProof s := by
  simp only [start, Outcome.bind_eq_ok, Outcome.pure_eq_ok] at h
  obtain ⟨clauses, hclauses, rfl⟩ := h
  intro c hc
  rw [State.all, State.initial, ClauseSet.empty, List.append_nil] at hc
  exact ClauseSet.eachLiteral_of_text hclauses c hc

/-- The atoms of a hyper resolvent are atoms of its premisses. -/
theorem mem_of_hyperResolvent_eq_ok {main c : Clause Relation} {sides : List (Premiss Relation)}
    (h : hyperResolvent main sides = .ok c) {a : Atom Relation} (ha : a ∈ c.atoms) :
    a ∈ main.atoms ∨ ∃ side ∈ sides, a ∈ side.clause.atoms := by
  simp only [hyperResolvent, refuse, ↓Outcome.guard_eq_ok, Outcome.bind_eq_ok,
    Outcome.pure_eq_ok] at h
  obtain ⟨-, -, -, rfl⟩ := h
  simp only [Clause.factorized, List.mem_eraseDups, List.mem_append, List.mem_map,
    List.mem_flatMap, List.mem_filter] at ha
  rcases ha with ⟨⟨b, i⟩, ⟨hb, -⟩, rfl⟩ | ⟨side, hside, hb, -⟩
  · exact Or.inl (List.mem_of_getElem? (List.mk_mem_zipIdx_iff_getElem?.mp hb))
  · exact Or.inr ⟨side, hside, hb⟩

/-- Making atoms of a readable clause equal gives a readable clause. -/
theorem readable_of_mergeAtoms {c c' : Clause Relation} {atoms : List Nat} (hc : c.Readable)
    (h : mergeAtoms c atoms = .ok c') : c'.Readable := by
  induction atoms generalizing c with
  | nil =>
    cases h
    exact hc
  | cons i rest ih =>
    cases rest with
    | nil =>
      cases h
      exact hc
    | cons j rest =>
      obtain ⟨-, first, hfirst, second, hsecond, -, σ, hσ, h⟩ := mergeAtoms_cons_cons.mp h
      have hreadable := readable_of_unify (hc first (List.mem_of_getElem? hfirst))
        (hc second (List.mem_of_getElem? hsecond)) hσ
      exact ih (hc.instantiate hreadable) h

namespace ReadableProof

theorem of_clause (hs : ReadableProof s) {id : Nat} {c : Clause Relation}
    (h : s.clause id = .ok c) : c.Readable :=
  hs c (State.mem_all_of_clause_eq_ok h)

/-- A readable clause may be added. -/
theorem add (hs : ReadableProof s) {c : Clause Relation} (hc : c.Readable)
    (h : s'.all.Perm (c :: s.all)) : ReadableProof s' := by
  intro d hd
  rcases List.mem_cons.mp (h.subset hd) with rfl | hd
  · exact hc
  · exact hs d hd

theorem resolveOn (hs : ReadableProof s) {c1 c2 l1 l2 : Nat} {given : Option Substitution}
    (hgiven : ∀ σ ∈ given, σ.Readable) (h : resolveOn s c1 c2 l1 l2 given = .ok s') :
    ReadableProof s' := by
  obtain ⟨σ, first, second, left, right, status, hpair, hσ, rfl⟩ := exists_of_resolveOn_eq_ok h
  have hfirst := hs.of_clause (State.clause_eq_ok.mpr hpair.clause1)
  have hsecond := hs.of_clause (State.clause_eq_ok.mpr hpair.clause2)
  have hreadable : σ.Readable := by
    cases given with
    | none =>
      exact readable_of_unify (hfirst left (List.mem_of_getElem? hpair.atom1))
        (hsecond right (List.mem_of_getElem? hpair.atom2)) hσ
    | some τ => exact hσ ▸ hgiven τ rfl
  refine hs.add (Clause.Readable.withSuffix (fun a ha => ?_) _) (State.all_push s _)
  rcases mem_resolvent.mp ha with ⟨ha, -⟩ | ⟨ha, -⟩
  · exact hfirst.instantiate hreadable a ha
  · exact hsecond.instantiate hreadable a ha

theorem hyper (hs : ReadableProof s) {main : Nat} {atoms : KeyMap Nat (Nat × Nat)}
    (h : hyper s main atoms = .ok s') : ReadableProof s' := by
  obtain ⟨mainClause, sides, σ, c, hpremisses, hσ, hc, rfl⟩ := exists_of_hyper_eq_ok h
  obtain ⟨hmain, hsides⟩ := mem_of_premisses_eq_ok hpremisses
  have hmain := hs.of_clause hmain
  have hside : ∀ side ∈ sides, side.clause.Readable := by
    intro side hside
    obtain ⟨⟨id, hid⟩, -⟩ := hsides side hside
    exact hs.of_clause hid
  have hreadable : σ.Readable := by
    refine readable_of_unifyAll (List.forall_mem_map.mpr fun side hmem => ?_) hσ
    obtain ⟨-, hatom, hindex⟩ := hsides side hmem
    exact ⟨hmain _ (List.mem_of_getElem? hindex), hside side hmem _ hatom⟩
  refine hs.add (Clause.Readable.withSuffix (fun a ha => ?_) _) (State.all_push s _)
  rcases mem_of_hyperResolvent_eq_ok hc ha with ha | ⟨side, hmem, ha⟩
  · exact hmain.instantiate hreadable a ha
  · obtain ⟨old, hold, rfl⟩ := List.mem_map.mp hmem
    exact (hside old hold).instantiate hreadable a ha

theorem factorize (hs : ReadableProof s) {c1 : Nat} {atoms : List Nat}
    (h : factorize s c1 atoms = .ok s') : ReadableProof s' := by
  obtain ⟨-, c, hc, -, merged, hmerged, rfl⟩ := factorize_eq_ok.mp h
  have hclause := State.clause_eq_ok.mpr hc
  have hreadable := readable_of_mergeAtoms (hs.of_clause hclause) hmerged
  refine hs.add (Clause.Readable.withSuffix (fun a ha => ?_) _) (State.all_replace hclause _)
  obtain ⟨⟨b, i⟩, hb, rfl⟩ := List.mem_map.mp ha
  have hb := (List.mem_filter.mp hb).1
  exact hreadable b (List.mem_of_getElem? (List.mk_mem_zipIdx_iff_getElem?.mp hb))

/-- An accepted move keeps a proof readable. -/
theorem step (hs : ReadableProof s) {m : Move} (h : step s m = .ok s') : ReadableProof s' := by
  have hclear : ReadableProof { s with status := none } := hs
  cases m with
  | resolve c1 c2 literal =>
    obtain ⟨lit, -, h⟩ := Outcome.bind_eq_ok.mp h
    obtain ⟨first, second, l1, l2, -, -, -, h⟩ := exists_of_resolve_eq_ok h
    exact hclear.resolveOn (by simp) h
  | resolveUnify c1 c2 l1 l2 =>
    rw [FirstOrder.step] at h
    exact hclear.resolveOn (by simp) h
  | resolveCustom c1 c2 l1 l2 assignment =>
    obtain ⟨σ, hσ, h⟩ := Outcome.bind_eq_ok.mp h
    have hreadable := Substitution.readable_of_parse (Outcome.ofText_eq_ok.mp hσ)
    exact hclear.resolveOn (by simpa using hreadable) h
  | instantiate c1 assignment =>
    simp only [FirstOrder.step, Outcome.bind_eq_ok, Outcome.pure_eq_ok] at h
    obtain ⟨σ, hσ, c, hc, rfl⟩ := h
    have hreadable := Substitution.readable_of_parse (Outcome.ofText_eq_ok.mp hσ)
    exact hclear.add ((hclear.of_clause hc).instantiate hreadable) (State.all_push _ _)
  | hide c1 => exact fun d hd => hclear d ((State.all_hide h).subset hd)
  | reveal =>
    rw [FirstOrder.step, Outcome.pure_eq_ok] at h
    intro d hd
    rw [← h, State.all_reveal] at hd
    exact hclear d hd
  | hyper main atoms => exact hclear.hyper h
  | factorize c1 atoms => exact hclear.factorize h

/-- A run of accepted moves keeps a proof readable. -/
theorem run (hs : ReadableProof s) {moves : List Move}
    (h : moves.foldlM FirstOrder.step s = .ok s') : ReadableProof s' :=
  Outcome.foldlM_induction h hs fun _ _ _ _ hstep hc => hc.step hstep

end ReadableProof

end Resolution.FirstOrder

end Deduction
