import Deduction.Proofs.Document.State
import Mathlib

/-!
# States belong to their calculus

All calculi read the seal of a state from the same field, and the text under the seal
starts with the kind of the state. So a calculus that reads the document of a state of
another kind finds it unreadable or under a seal that does not belong to what it reads,
unless the digests of two texts collide. The two sequent calculi have states of the same
kind, and each of them takes the states of the other for its own.
-/

namespace Deduction

open Json

namespace Json

variable {α : Type}

theorem Plain.ofOption {encode : α → Json} {o : Option α} (h : ∀ a ∈ o, (encode a).Plain) :
    (Json.ofOption encode o).Plain := by
  cases o with
  | none => exact .null
  | some a => exact h a rfl

theorem Plain.ofList {encode : α → Json} {xs : List α} (h : ∀ x ∈ xs, (encode x).Plain) :
    (Json.ofList encode xs).Plain :=
  .arr (List.forall_mem_map.mpr h)

theorem plain_stringMap (m : KeyMap String String) : (ofStringMap m).Plain :=
  (faithful_stringMap m).lossless.plain

theorem plain_numbers (o : Option Nat) : (ofOption Json.nat o).Plain := .ofOption fun n _ => .nat n

end Json

theorem ClauseSet.plain_toJson {L : Type} [LiteralJson L] (hL : FaithfulLiterals L)
    (s : ClauseSet L) : s.toJson.Plain :=
  (ClauseSet.faithful hL s).lossless.plain

theorem Formula.plain_toJson (f : Formula) : f.toJson.Plain := (f.faithful false).lossless.plain

theorem Tableau.Move.plain_toJson (m : Tableau.Move) : m.toJson.Plain := by
  cases m with
  | expand id clause => exact .obj (by simp [Plain.str, Plain.nat])
  | close leaf partner assignment =>
    cases assignment with
    | none => exact .obj (by simp [Plain.str, Plain.nat])
    | some assignment => exact .obj (by simp [Plain.str, Plain.nat, plain_stringMap])
  | undo => exact .obj (by simp [Plain.str])

theorem Tableau.plain_nodeToJson {L : Type} [LiteralJson L] (hL : FaithfulLiterals L)
    (n : Node (Tableau.Label L)) : (Tableau.nodeToJson n).Plain := by
  have hatom : (ofOption Atom.toJson n.label.atom).Plain :=
    .ofOption fun a _ => (Atom.faithful hL a).lossless.plain
  have hchildren : (ofList Json.nat n.children).Plain := .ofList fun i _ => .nat i
  exact .obj (by simp [plain_numbers, hatom, hchildren, Plain.bool])

theorem NonClausal.Move.plain_toJson (m : NonClausal.Move) : m.toJson.Plain := by
  cases m with
  | alpha id | beta id | gamma id | delta id => exact .obj (by simp [Plain.str, Plain.nat])
  | close leaf partner assignment =>
    cases assignment with
    | none => exact .obj (by simp [Plain.str, Plain.nat])
    | some assignment => exact .obj (by simp [Plain.str, Plain.nat, plain_stringMap])
  | undo => exact .obj (by simp [Plain.str])

theorem NonClausal.plain_nodeToJson (n : Node NonClausal.Label) :
    (NonClausal.nodeToJson n).Plain := by
  have hchildren : (ofList Json.nat n.children).Plain := .ofList fun i _ => .nat i
  exact .obj (by simp [plain_numbers, Formula.plain_toJson, hchildren, Plain.bool])

theorem SequentProof.Move.plain_toJson (m : SequentProof.Move) : m.toJson.Plain := by
  cases m with
  | ax id => exact .obj (by simp [Plain.str, Plain.nat])
  | connective rule id index => exact .obj (by simp [Plain.str, Plain.nat])
  | quantifier rule id index assignment =>
    exact .obj (by simp [Plain.str, Plain.nat, plain_stringMap])
  | undo => exact .obj (by simp [Plain.str])

theorem SequentProof.plain_nodeToJson (n : Node SequentProof.Label) :
    (SequentProof.nodeToJson n).Plain := by
  have hformulas (fs : List Formula) : (ofList Formula.toJson fs).Plain :=
    .ofList fun f _ => f.plain_toJson
  have hlastMove : (ofOption SequentProof.Move.toJson n.label.lastMove).Plain :=
    .ofOption fun m _ => m.plain_toJson
  have hchildren : (ofList Json.nat n.children).Plain := .ofList fun i _ => .nat i
  exact .obj (by simp [plain_numbers, hformulas, hlastMove, hchildren, Plain.bool])

namespace Json

private theorem getElem?_of_mapM {α β : Type} {f : α → Option β} {xs : List α} {ys : List β}
    (h : xs.mapM f = some ys) (i : Nat) : ys[i]? = xs[i]?.bind f := by
  induction xs generalizing ys i with
  | nil =>
    cases h
    rfl
  | cons x xs ih =>
    simp only [List.mapM_cons, Option.bind_eq_bind, Option.bind_eq_some_iff, Option.pure_def,
      Option.some.injEq] at h
    obtain ⟨y, hy, ys, hys, rfl⟩ := h
    cases i with
    | zero => exact hy.symm
    | succ i => exact ih hys i

private theorem map_fst_eq {fs gs : List (String × Json)} (h : List.Forall₂ FieldReadAs fs gs) :
    fs.map Prod.fst = gs.map Prod.fst := by
  induction h with
  | nil => rfl
  | cons hfg _ ih => rw [List.map_cons, List.map_cons, hfg.1, ih]

/-- The seal that is decoded is the one that stands in its field. -/
theorem given_eq_of_ofSealed {α : Type} {names : List String}
    {decode : Nat → List Slot → Option α} {room : Nat} {fields : List (String × Json)} {a : α}
    {given digest : String} (h : ofSealed names decode room (.obj fields) = some (a, given))
    (hseal : fields.filter (fun f => f.1 = "seal") = [("seal", .str digest)]) :
    given = digest := by
  cases room with
  | zero => cases h
  | succ room =>
    simp only [ofSealed, Option.bind_eq_bind, Option.bind_eq_some_iff] at h
    obtain ⟨slots, hslots, _, -, given, hgiven, h⟩ := h
    cases h
    have hslot := getElem?_of_mapM hslots names.length
    rw [List.getElem?_concat_length, Option.bind_some, hseal] at hslot
    rw [hslot] at hgiven
    cases hgiven
    rfl

end Json

namespace Calculus

/-- Whether the seal of a state stands in a field of its own in the document. -/
def WritesSeal (C : Calculus) : Prop :=
  ∀ s digest, ∃ fields, C.stateToJson s digest = .obj (fields ++ [("seal", .str digest)]) ∧
    ∀ f ∈ fields, f.1 ≠ "seal" ∧ f.2.Plain

/-- Whether the seal of a document is taken from this field. -/
def ReadsSeal (C : Calculus) : Prop :=
  ∀ room fields s given digest, C.stateOfJson room (.obj fields) = some (s, given) →
    fields.filter (fun f => f.1 = "seal") = [("seal", .str digest)] → given = digest

end Calculus

theorem Resolution.State.plain_fields {L : Type} [LiteralJson L] (hL : FaithfulLiterals L)
    (s : State L) : ∀ f ∈ s.fields, f.1 ≠ "seal" ∧ f.2.Plain := by
  have hstatus : (ofOption Json.str s.status).Plain := .ofOption fun t _ => .str t
  simp [fields, ClauseSet.plain_toJson hL, plain_numbers, hstatus, Plain.bool]

theorem Tableau.State.plain_fields {L : Type} [LiteralJson L] (hL : FaithfulLiterals L)
    (s : State L) : ∀ f ∈ s.fields, f.1 ≠ "seal" ∧ f.2.Plain := by
  have hkind : s.kind.toJson.Plain := s.kind.faithful.lossless.plain
  have hnodes : (ofList nodeToJson s.tree.items).Plain := .ofList fun n _ => plain_nodeToJson hL n
  have hhistory : (ofList Move.toJson s.history).Plain := .ofList fun m _ => m.plain_toJson
  simp [fields, ClauseSet.plain_toJson hL, hkind, hnodes, hhistory, Plain.bool, Plain.nat]

theorem NonClausal.State.plain_fields (s : State) :
    ∀ f ∈ s.fields, f.1 ≠ "seal" ∧ f.2.Plain := by
  have hnodes : (ofList nodeToJson s.tree.items).Plain := .ofList fun n _ => plain_nodeToJson n
  have hhistory : (ofList Move.toJson s.history).Plain := .ofList fun m _ => m.plain_toJson
  simp [fields, Formula.plain_toJson, hnodes, hhistory, Plain.bool, Plain.nat]

theorem SequentProof.State.plain_fields (s : State) :
    ∀ f ∈ s.fields, f.1 ≠ "seal" ∧ f.2.Plain := by
  have hnodes : (ofList nodeToJson s.tree.items).Plain := .ofList fun n _ => plain_nodeToJson n
  have hhistory : (ofList Move.toJson s.history).Plain := .ofList fun m _ => m.plain_toJson
  simp [fields, hnodes, hhistory, Plain.bool]

/-- The kind of a state, which the text under its seal starts with. -/
def kindOf (text : String) : List Char := text.toList.takeWhile (· != '|')

theorem Resolution.State.kindOf_sealText {L : Type} [Literal L] (s : State L) :
    kindOf s.sealText = ((Literal.logic L).word ++ "-resolutionstate").toList := by
  unfold sealText
  simp only [kindOf, String.toList_append, List.append_assoc]
  cases Literal.logic L <;> rfl

theorem Tableau.State.kindOf_sealText {L : Type} [Literal L] (s : State L) :
    kindOf s.sealText = ((Literal.logic L).word ++ "-tableauxstate").toList := by
  unfold sealText
  simp only [kindOf, String.toList_append, List.append_assoc]
  cases Literal.logic L <;> rfl

theorem NonClausal.State.kindOf_sealText (s : State) :
    kindOf s.sealText = "nctableauxstate".toList := by
  unfold sealText
  simp only [kindOf, String.toList_append, List.append_assoc]
  rfl

theorem SequentProof.State.kindOf_sealText (s : State) :
    kindOf s.sealText = "sequentstate".toList := by
  unfold sealText
  simp only [kindOf, String.toList_append, List.append_assoc]
  rfl

namespace Calculus

/-- The kinds of the states of all calculi. -/
def stateKinds : List (String × String) :=
  [("prop-resolution", "prop-resolutionstate"), ("fo-resolution", "fo-resolutionstate"),
    ("prop-tableaux", "prop-tableauxstate"), ("fo-tableaux", "fo-tableauxstate"),
    ("nc-tableaux", "nctableauxstate"), ("prop-sequent", "sequentstate"),
    ("fo-sequent", "sequentstate")]

/-- The names of the sequent calculi. -/
def sequents : List String := [propositionalSequent.name, firstOrderSequent.name]

theorem exists_stateKind {C : Calculus} (hC : C ∈ all) :
    ∃ kind, (C.name, kind) ∈ stateKinds ∧ ∀ s, kindOf (C.sealText s) = kind.toList := by
  simp only [all, List.mem_cons, List.not_mem_nil, or_false] at hC
  rcases hC with rfl | rfl | rfl | rfl | rfl | rfl | rfl
  · exact ⟨_, .head _, Resolution.State.kindOf_sealText⟩
  · exact ⟨_, .tail _ (.head _), Resolution.State.kindOf_sealText⟩
  · exact ⟨_, .tail _ (.tail _ (.head _)), Tableau.State.kindOf_sealText⟩
  · exact ⟨_, .tail _ (.tail _ (.tail _ (.head _))), Tableau.State.kindOf_sealText⟩
  · exact ⟨"nctableauxstate", by decide, NonClausal.State.kindOf_sealText⟩
  · exact ⟨"sequentstate", by decide, SequentProof.State.kindOf_sealText⟩
  · exact ⟨"sequentstate", by decide, SequentProof.State.kindOf_sealText⟩

/-- Only the sequent calculi share a kind of states. -/
theorem mem_sequents_of_stateKinds {name name' kind : String} (h : (name, kind) ∈ stateKinds)
    (h' : (name', kind) ∈ stateKinds) (hne : name ≠ name') :
    name ∈ sequents ∧ name' ∈ sequents := by
  have hall : ∀ p ∈ stateKinds, ∀ q ∈ stateKinds, p.2 = q.2 → p.1 ≠ q.1 →
      p.1 ∈ sequents ∧ q.1 ∈ sequents := by decide
  exact hall (name, kind) h (name', kind) h' rfl hne

/-- Different texts are sealed in two calculi that are not both sequent calculi. -/
theorem sealText_ne {A B : Calculus} (hA : A ∈ all) (hB : B ∈ all) (hne : A.name ≠ B.name)
    (hsequents : ¬ (A.name ∈ sequents ∧ B.name ∈ sequents)) (s : A.State) (t : B.State) :
    A.sealText s ≠ B.sealText t := by
  intro htext
  obtain ⟨kind, hkind, hs⟩ := exists_stateKind hA
  obtain ⟨kind', hkind', ht⟩ := exists_stateKind hB
  have heq : kind = kind' := by
    rw [← String.toList_inj, ← hs s, ← ht t, htext]
  subst heq
  exact hsequents (mem_sequents_of_stateKinds hkind hkind' hne)

theorem writesSeal_of_mem {C : Calculus} (hC : C ∈ all) : C.WritesSeal := by
  simp only [all, List.mem_cons, List.not_mem_nil, or_false] at hC
  rcases hC with rfl | rfl | rfl | rfl | rfl | rfl | rfl
  · exact fun s digest => ⟨_, rfl, s.plain_fields faithfulLiterals_string⟩
  · exact fun s digest => ⟨_, rfl, s.plain_fields faithfulLiterals_relation⟩
  · exact fun s digest => ⟨_, rfl, s.plain_fields faithfulLiterals_string⟩
  · exact fun s digest => ⟨_, rfl, s.plain_fields faithfulLiterals_relation⟩
  · exact fun s digest => ⟨_, rfl, s.plain_fields⟩
  · exact fun s digest => ⟨_, rfl, s.plain_fields⟩
  · exact fun s digest => ⟨_, rfl, s.plain_fields⟩

theorem readsSeal_of_mem {C : Calculus} (hC : C ∈ all) : C.ReadsSeal := by
  simp only [all, List.mem_cons, List.not_mem_nil, or_false] at hC
  rcases hC with rfl | rfl | rfl | rfl | rfl | rfl | rfl <;>
    exact fun _ _ _ _ _ => given_eq_of_ofSealed

/-- A calculus that can read the document of another one finds the seal that was put on it. -/
theorem given_eq_of_decodeState {A B : Calculus} (hA : A.WritesSeal) (hB : B.ReadsSeal)
    {s : A.State} {t : B.State} {given digest : String}
    (h : B.decodeState (A.stateToJson s digest).render = .ok (t, given)) : given = digest := by
  obtain ⟨fs, hdocument, hfs⟩ := hA s digest
  obtain ⟨gs, hgs⟩ := exists_fieldReadAs fun f hf => (hfs f hf).2.exists_readAs
  -- What else is read may differ in its numbers, but not in the names of its fields.
  have hnames : gs.filter (fun g => g.1 = "seal") = [] := by
    simp only [List.filter_eq_nil_iff, decide_eq_true_eq]
    intro g hg hseal
    have hmem : g.1 ∈ fs.map Prod.fst := map_fst_eq hgs ▸ List.mem_map_of_mem hg
    obtain ⟨f, hf, hname⟩ := List.mem_map.mp hmem
    exact (hfs f hf).1 (hname.trans hseal)
  have hread : Json.read (A.stateToJson s digest).render =
      some (.obj (gs ++ [("seal", .str digest)])) := by
    have hseal : FieldReadAs ("seal", .str digest) ("seal", .str digest) :=
      And.intro rfl (readAs_str digest)
    rw [hdocument]
    exact (readAs_obj (List.rel_append hgs (.cons hseal .nil))).read_render
  rw [decodeState, Decoder.ofText, hread, Option.bind_some] at h
  split at h
  next hvalue =>
    cases h
    exact hB _ _ _ _ _ hvalue (by simp [hnames])
  next => cases h

/-- Whether the digest of the text under the seal of a state is not by chance that of the text
which another calculus seals when it reads the document. -/
def CollisionFree (A B : Calculus) (s : A.State) : Prop :=
  ∀ t, B.decodeState (A.writeState s).render = .ok (t, A.sealOf s) →
    sealFor (A.sealText s) = sealFor (B.sealText t) → A.sealText s = B.sealText t

/-- Whether a document comes from starting a proof or from a move. -/
def Issues (C : Calculus) (document : Json) : Prop :=
  (∃ formula params, Deduction.parse C.name formula params = .ok document) ∨
    ∃ state move, Deduction.applyMove C.name state move = .ok document

/-- Whether a text is refused as a state, be it for a move or for the verdict: it is unreadable or
its seal is wrong. -/
def RefusesState (C : Calculus) (text : String) : Prop :=
  ∃ e, (e = .unreadable .state ∨ e = .badSeal) ∧
    Deduction.checkClose C.name text = .error (.document e) ∧
    ∀ move, Deduction.applyMove C.name text move = .error (.document e)

theorem within_name {α : Type} {C : Calculus} (hC : C ∈ all) (act : Calculus → Outcome α) :
    within C.name act = act C := by
  simp only [all, List.mem_cons, List.not_mem_nil, or_false] at hC
  rcases hC with rfl | rfl | rfl | rfl | rfl | rfl | rfl <;> rfl

theorem parse_eq_ok {C : Calculus} (hC : C ∈ all) {formula : String} {s : C.State}
    (hs : C.start C.defaults formula = .ok s) :
    Deduction.parse C.name formula none = .ok (C.writeState s) := by
  rw [Deduction.parse, within_name hC, parse, readParams, Outcome.ok_bind, hs]
  rfl

theorem applyMove_eq_ok {C : Calculus} (hC : C ∈ all) {state move : String} {s s' : C.State}
    {m : C.Move} (hs : C.readState state = .ok s) (hm : C.moveOfText move = .ok m)
    (hstep : C.step s m = .ok s') :
    Deduction.applyMove C.name state move = .ok (C.writeState s') := by
  rw [Deduction.applyMove, within_name hC, applyMove, hs, hm]
  simp only [Outcome.ofDocument, Outcome.ok_bind, hstep]
  rfl

theorem checkClose_eq_ok {C : Calculus} (hC : C ∈ all) {state : String} {s : C.State} {v : Verdict}
    (hs : C.readState state = .ok s) (hv : C.verdict s = .ok v) :
    Deduction.checkClose C.name state = .ok v.toJson := by
  rw [Deduction.checkClose, within_name hC, checkClose, hs]
  simp only [Outcome.ok_bind, hv]
  rfl

theorem exists_state_of_issues {C : Calculus} (hC : C ∈ all) {document : Json}
    (h : C.Issues document) : ∃ s, document = C.writeState s := by
  rcases h with ⟨formula, params, h⟩ | ⟨state, move, h⟩
  · rw [Deduction.parse, within_name hC, parse] at h
    simp only [Outcome.bind_eq_ok, Outcome.pure_eq_ok] at h
    obtain ⟨_, -, s, -, rfl⟩ := h
    exact ⟨s, rfl⟩
  · rw [Deduction.applyMove, within_name hC, applyMove] at h
    simp only [Outcome.bind_eq_ok, Outcome.pure_eq_ok] at h
    obtain ⟨_, -, _, -, s, -, rfl⟩ := h
    exact ⟨s, rfl⟩

theorem refusesState_of_readState {C : Calculus} (hC : C ∈ all) {text : String} {e : DocumentError}
    (he : e = .unreadable .state ∨ e = .badSeal)
    (h : C.readState text = .error (.document e)) : C.RefusesState text := by
  refine ⟨e, he, ?_, fun move => ?_⟩
  · rw [Deduction.checkClose, within_name hC, checkClose, h]
    rfl
  · rw [Deduction.applyMove, within_name hC, applyMove, h]
    rfl

/-- A document under a wrong seal is refused. -/
theorem refusesState_of_badSeal {C : Calculus} (hC : C ∈ all) {text : String}
    (h : ∀ t given, C.decodeState text = .ok (t, given) → given ≠ C.sealOf t) :
    C.RefusesState text := by
  cases hdecode : C.decodeState text with
  | error e =>
    have he : e = .unreadable .state := by
      rw [decodeState, Decoder.ofText] at hdecode
      split at hdecode
      · cases hdecode
      · cases hdecode
        rfl
    refine refusesState_of_readState hC (.inl he) ?_
    rw [readState, hdecode]
    rfl
  | ok found =>
    obtain ⟨t, given⟩ := found
    refine refusesState_of_readState hC (.inr rfl) ?_
    rw [readState, hdecode]
    simp only [Outcome.ofDocument, Outcome.ok_bind, if_pos (h t given hdecode)]
    rfl

/-- The name and the logic of a sequent calculus do not matter where states are read. -/
theorem readState_sequent (name name' : String) (logic logic' : Logic) (text : String) :
    (sequent name logic).readState text = (sequent name' logic').readState text := by
  unfold readState
  rfl

/-- States belong to their calculus, except that the sequent calculi share theirs. What a calculus
issues are documents of states. In any other calculus the document of a state is refused, unless
both are sequent calculi or two digests collide. The sequent calculi read the same states from the
same texts. -/
theorem foreign_states_refused {A B : Calculus} (hA : A ∈ all) (hB : B ∈ all)
    (hne : A.name ≠ B.name) :
    (∀ document, A.Issues document → ∃ s, document = A.writeState s) ∧
    (¬ (A.name ∈ sequents ∧ B.name ∈ sequents) →
      ∀ s, CollisionFree A B s → B.RefusesState (A.writeState s).render) ∧
    ∀ text, firstOrderSequent.readState text = propositionalSequent.readState text := by
  refine ⟨fun document => exists_state_of_issues hA, fun hsequents s hfree => ?_,
    readState_sequent _ _ _ _⟩
  refine refusesState_of_badSeal hB fun t given hdecode hgiven => ?_
  have hseal := given_eq_of_decodeState (writesSeal_of_mem hA) (readsSeal_of_mem hB) hdecode
  rw [hseal] at hdecode hgiven
  exact sealText_ne hA hB hne hsequents s t (hfree t hdecode hgiven)

/-- A resolution proof without clauses. Its document is one of a proof in either logic. -/
def noClauses (L : Type) : Resolution.State L := .initial .empty false

theorem storable_noClauses (L : Type) [LiteralJson L] : (noClauses L).Storable := by
  rintro _ ⟨⟩

theorem depth_noClauses (digest : String) :
    ((noClauses String).toJson digest).depth ≤ maxDepth :=
  Nat.le_of_ble_eq_true rfl

theorem toJson_noClauses (digest : String) :
    (noClauses String).toJson digest = (noClauses Relation).toJson digest :=
  rfl

/-- First-order resolution can read the proof without clauses under its propositional seal. -/
theorem decodeState_noClauses :
    firstOrderResolution.decodeState
        (propositionalResolution.writeState (noClauses String)).render =
      .ok (noClauses Relation, propositionalResolution.sealOf (noClauses String)) := by
  have hwrite : propositionalResolution.writeState (noClauses String) =
      firstOrderResolution.stateToJson (noClauses Relation)
        (propositionalResolution.sealOf (noClauses String)) :=
    toJson_noClauses (propositionalResolution.sealOf (noClauses String))
  have hdepth := depth_noClauses (propositionalResolution.sealOf (noClauses String))
  have hfaithful := (storable_noClauses Relation).faithful faithfulLiterals_relation
    (propositionalResolution.sealOf (noClauses String))
  rw [toJson_noClauses] at hdepth
  rw [hwrite]
  exact decodeState_of_faithful hfaithful hdepth

private theorem issues_noClauses :
    propositionalResolution.Issues (propositionalResolution.writeState (noClauses String)) := by
  have hback : propositionalResolution.ReadsBack Resolution.State.Storable :=
    readsBack_of_faithful fun s hs => hs.faithful faithfulLiterals_string
  have hread := (hback (noClauses String) (storable_noClauses String) (depth_noClauses _)).2
  have hlossless : (Json.obj [("type", .str "res-show")]).Lossless :=
    .obj (List.forall_mem_singleton.mpr (.str "res-show"))
  have hmove : propositionalResolution.moveOfText (Json.obj [("type", .str "res-show")]).render =
      .ok .reveal := by
    change Resolution.Move.ofText _ = _
    rw [Resolution.Move.ofText, hlossless.readAs.readFront_render]
    rfl
  exact .inr ⟨_, _, applyMove_eq_ok (.head _) hread hmove rfl⟩

/-- Propositional resolution issues the proof without clauses. First-order resolution can read it,
but refuses it for its seal. -/
theorem noClauses_refused :
    propositionalResolution.Issues (propositionalResolution.writeState (noClauses String)) ∧
    CollisionFree propositionalResolution firstOrderResolution (noClauses String) ∧
    firstOrderResolution.RefusesState
      (propositionalResolution.writeState (noClauses String)).render := by
  have hfree : CollisionFree propositionalResolution firstOrderResolution (noClauses String) := by
    intro t ht hseal
    cases decodeState_noClauses.symm.trans ht
    have hne : sealFor (noClauses String).sealText ≠ sealFor (noClauses Relation).sealText := by
      decide +kernel
    exact absurd hseal hne
  have hA : propositionalResolution ∈ all := .head _
  have hB : firstOrderResolution ∈ all := .tail _ (.head _)
  exact ⟨issues_noClauses, hfree,
    (foreign_states_refused hA hB (by decide)).2.1 (by decide) (noClauses String) hfree⟩

/-- A proof of `a ⊢ a` before the first move. -/
def identity : SequentProof.State where
  tree := ⟨[⟨none, ⟨⟨[.var "a"], [.var "a"]⟩, none⟩, false, []⟩]⟩
  history := []
  onlyApplicable := false

private theorem storable_identity : identity.Storable where
  nodes := by
    simp only [identity, List.forall_mem_singleton]
    exact ⟨by decide, by decide⟩
  lastMoves := by simp [identity]
  history := by simp [identity]

/-- A proof that is started in the propositional sequent calculus is taken for its own by the
first-order one, which gives a verdict on it and makes a move in it. -/
theorem identity_shared :
    ∃ started moved,
      Deduction.parse "prop-sequent" "a |- a" none = .ok started ∧
      Deduction.checkClose "fo-sequent" started.render =
        .ok (Verdict.toJson ⟨false, "The proof is not closed"⟩) ∧
      Deduction.applyMove "fo-sequent" started.render (SequentProof.Move.ax 0).toJson.render =
        .ok moved := by
  have hmem : firstOrderSequent ∈ all := by simp [all]
  have hstart : propositionalSequent.start propositionalSequent.defaults "a |- a" =
      .ok identity := by
    change SequentProof.start .propositional {} "a |- a" = .ok identity
    cbv
  -- Both calculi write the same document.
  have hparse : Deduction.parse "prop-sequent" "a |- a" none =
      .ok (firstOrderSequent.writeState identity) :=
    parse_eq_ok (by simp [all]) hstart
  have hread : firstOrderSequent.readState (firstOrderSequent.writeState identity).render =
      .ok identity := by
    have hback : firstOrderSequent.ReadsBack SequentProof.State.Storable :=
      readsBack_of_faithful fun s hs => hs.faithful
    have hdepth (digest : String) : (identity.toJson digest).depth ≤ maxDepth :=
      Nat.le_of_ble_eq_true rfl
    exact (hback identity storable_identity (hdepth _)).2
  have hmove : firstOrderSequent.moveOfText (SequentProof.Move.ax 0).toJson.render =
      .ok (.ax 0) := by
    have hstorable : (SequentProof.Move.ax 0).Storable := show 0 < UInt64.size by decide
    change SequentProof.Move.ofJson.ofText .move _ = _
    rw [Decoder.ofText, hstorable.faithful.lossless.readAs.read_render]
    rfl
  have hstep : ∃ s, firstOrderSequent.step identity (.ax 0) = .ok s := ⟨_, rfl⟩
  obtain ⟨s, hstep⟩ := hstep
  exact ⟨_, _, hparse, checkClose_eq_ok hmem hread rfl, applyMove_eq_ok hmem hread hmove hstep⟩

end Calculus

end Deduction
