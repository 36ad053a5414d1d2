import Deduction.Catalogue
import Deduction.Proofs.Document.Formula
import Deduction.Proofs.Outcome

/-!
# Reading back states

In every calculus the document of a state is read back to that state, as long as the
numbers in the state fit into the words that hold them and the document is not nested
too deep.
-/

namespace Deduction

namespace Json

variable {α : Type}

theorem asWord_nat {n : Nat} (h : n < UInt64.size) : asWord (.nat n) = some n := if_pos h

theorem asId_nat {n : Nat} (h : n < UInt32.size) : asId (.nat n) = some n := if_pos h

theorem faithful_word {n : Nat} (h : n < UInt64.size) :
    Faithful Json.nat (fun _ => asWord) n :=
  ⟨.nat h, fun _ _ => asWord_nat h⟩

theorem faithful_id {n : Nat} (h : n < UInt32.size) : Faithful Json.nat (fun _ => asId) n :=
  ⟨.nat (h.trans (by decide)), fun _ _ => asId_nat h⟩

/-- Optional values are faithful if the values are and no form is `null`. -/
theorem Faithful.option {encode : α → Json} {decode : Decoder α} {o : Option α}
    (h : ∀ a ∈ o, Faithful encode decode a) (hne : ∀ a ∈ o, encode a ≠ .null) :
    Faithful (ofOption encode) (fun room => asOption (decode room)) o := by
  cases o with
  | none => exact ⟨.null, fun _ _ => rfl⟩
  | some a =>
    refine ⟨(h a rfl).lossless, fun room hroom => ?_⟩
    have hdecode := (h a rfl).decode_eq room hroom
    rw [ofOption, asOption, hdecode]
    · rfl
    · exact hne a rfl

theorem faithful_stringMap (m : KeyMap String String) : Faithful ofStringMap asStringMap m where
  lossless := .obj (by simp only [List.forall_mem_map]; exact fun e _ => .str e.2)
  decode_eq := by
    intro room hroom
    obtain ⟨r, rfl, -⟩ := exists_room_of_obj hroom
    have hentries : (m.entries.map fun e => (e.1, Json.str e.2)).mapM
        (fun e => (asString e.2).map fun s => (e.1, s)) = some m.entries :=
      mapM_map_eq_some fun _ _ => rfl
    simp [ofStringMap, asStringMap, hentries, KeyMap.ofList_entries]

/-- A move that closes a leaf against another node is faithful, be there texts for variables or
not. -/
theorem Faithful.closing {encode : α → Json} {decode : Decoder α}
    {c : Nat → Nat → Option (KeyMap String String) → α} {tag first second : String}
    {leaf partner : Nat} (hleaf : leaf < UInt64.size) (hpartner : partner < UInt64.size)
    (assignment : Option (KeyMap String String))
    (hjson : encode (c leaf partner assignment) = .obj ([("type", .str tag), (first, .nat leaf),
      (second, .nat partner)] ++ assignment.toList.map fun m => ("varAssign", ofStringMap m)))
    (hdecode : ∀ r, fits (r + 1) (encode (c leaf partner assignment)) = true →
      decode (r + 1) (encode (c leaf partner assignment)) =
        (asWord (.nat leaf)).bind fun leaf => (asWord (.nat partner)).bind fun partner =>
          ((assignment.elim .absent fun m => .given (ofStringMap m) : Slot).withDefault none
            (asOption (asStringMap r))).bind fun assignment => some (c leaf partner assignment)) :
    Faithful encode decode (c leaf partner assignment) := by
  refine .of_obj hjson ?_ fun r hr hfits => ?_
  · simp only [List.forall_mem_append, List.forall_mem_cons, List.forall_mem_map]
    refine ⟨⟨.str tag, .nat hleaf, .nat hpartner, by simp⟩, fun m _ => ?_⟩
    exact (faithful_stringMap m).lossless
  · rw [hdecode r hfits, asWord_nat hleaf, asWord_nat hpartner]
    cases assignment with
    | none => rfl
    | some m =>
      have htexts := (faithful_stringMap m).decode_eq r (hr ("varAssign", ofStringMap m) (by simp))
      simp only [Option.elim_some, Slot.withDefault, Option.bind_some]
      change ((asStringMap r (ofStringMap m)).map some).bind _ = _
      rw [htexts]
      rfl

/-- A document under a seal is faithful if its fields are lossless and it is made of them again. -/
theorem Faithful.sealed (fields : α → List (String × Json)) {names : List String}
    {decode : Nat → List Slot → Option α} {a : α} {digest : String}
    (hslots : fieldsOf (names ++ ["seal"]) (sealedObj (fields a) digest) =
      some ((fields a).map (fun f => .given f.2) ++ [.given (.str digest)]))
    (hlength : (fields a).length = names.length) (hlossless : ∀ f ∈ fields a, f.2.Lossless)
    (hdecode : ∀ r, (∀ f ∈ fields a, f.2.depth ≤ r) →
      decode r ((fields a).map fun f => .given f.2) = some a) :
    Faithful (fun p : α × String => sealedObj (fields p.1) p.2) (ofSealed names decode)
      (a, digest) := by
  refine .of_obj rfl ?_ fun r hr _ => ?_
  · exact List.forall_mem_append.mpr ⟨hlossless, by simp [Lossless.str]⟩
  · have hfields := hdecode r fun f hf => hr f (List.mem_append_left _ hf)
    rw [ofSealed, hslots]
    simp [← hlength, hfields, Slot.withDefault, asString]

end Json

open Json

/-- Whether the references of a node are numbers of 32 bits. -/
structure Node.Storable {α : Type} (n : Node α) : Prop where
  /-- The reference to the node above. -/
  parent : ∀ i ∈ n.parent, i < UInt32.size
  /-- The references to the nodes below. -/
  children : ∀ i ∈ n.children, i < UInt32.size

namespace Node

variable {α : Type} {n : Node α}

theorem Storable.faithful_parent (h : n.Storable) :
    Faithful (ofOption Json.nat) (fun _ => asOption asId) n.parent :=
  .option (fun i hi => faithful_id (h.parent i hi)) (by simp)

theorem Storable.faithful_children (h : n.Storable) :
    Faithful (ofList Json.nat) (asList fun _ => asId) n.children :=
  .list _ fun i hi => faithful_id (h.children i hi)

end Node

namespace Resolution

variable {L : Type} [LiteralJson L]

/-- Whether the number of the newest clause has at most 64 bits. -/
def State.Storable (s : State L) : Prop := ∀ i ∈ s.newest, i < UInt64.size

/-- Resolution proofs are faithful. -/
theorem State.Storable.faithful (hL : FaithfulLiterals L) {s : State L} (h : s.Storable)
    (digest : String) :
    Faithful (fun p : State L × String => p.1.toJson p.2) State.ofJson (s, digest) := by
  have hclauses := ClauseSet.faithful hL s.clauses
  have hhidden := ClauseSet.faithful hL s.hidden
  have hnewest : Faithful (ofOption Json.nat) (fun _ => asOption asWord) s.newest :=
    .option (fun i hi => faithful_word (h i hi)) (by simp)
  have hstatus : Faithful (ofOption Json.str) (fun _ => asOption asString) s.status :=
    .option (fun t _ => faithful_string t) (by simp)
  refine .sealed State.fields rfl rfl ?_ fun r hr => ?_
  · simp [State.fields, hclauses.lossless, hhidden.lossless, hnewest.lossless, hstatus.lossless,
      Lossless.bool]
  · simp only [State.fields, List.forall_mem_cons] at hr
    obtain ⟨hclausesRoom, hhiddenRoom, -, hnewestRoom, hstatusRoom, -⟩ := hr
    simp [State.ofFields, State.fields, Slot.required, Slot.optional, Slot.withDefault, asBool,
      hclauses.decode_eq r hclausesRoom, hhidden.decode_eq r hhiddenRoom,
      hnewest.decode_eq r hnewestRoom, hstatus.decode_eq r hstatusRoom]

end Resolution

namespace Tableau

/-- Whether the numbers in a move have at most 64 bits. -/
def Move.Storable : Move → Prop
  | expand id clause => id < UInt64.size ∧ clause < UInt64.size
  | close leaf partner _ => leaf < UInt64.size ∧ partner < UInt64.size
  | undo => True

/-- Moves are faithful. -/
theorem Move.Storable.faithful {m : Move} (h : m.Storable) :
    Faithful Move.toJson Move.ofJson m := by
  cases m with
  | expand id clause =>
    obtain ⟨hid, hclause⟩ := h
    refine .of_obj rfl (by simp [Lossless.str, Lossless.nat, hid, hclause]) fun r _ hfits => ?_
    rw [ofJson, hfits]
    change (asWord (.nat id)).bind (fun id => (asWord (.nat clause)).bind fun clause =>
      some (Move.expand id clause)) = _
    rw [asWord_nat hid, asWord_nat hclause]
    rfl
  | close leaf partner assignment =>
    obtain ⟨hleaf, hpartner⟩ := h
    cases assignment <;>
      exact .closing hleaf hpartner _ rfl fun r hfits => by rw [ofJson, hfits]; rfl
  | undo =>
    refine .of_obj rfl (by simp [Lossless.str]) fun r _ hfits => ?_
    rw [ofJson, hfits]
    rfl

theorem Connectedness.faithful (kind : Connectedness) :
    Faithful Connectedness.toJson Connectedness.ofJson kind := by
  cases kind <;> exact ⟨.str _, fun _ _ => rfl⟩

variable {L : Type} [LiteralJson L]

/-- Nodes are faithful. -/
theorem faithful_node (hL : FaithfulLiterals L) {n : Node (Label L)} (h : n.Storable)
    (hclose : ∀ i ∈ n.label.closeRef, i < UInt32.size) : Faithful nodeToJson nodeOfJson n := by
  have hparent := h.faithful_parent
  have hchildren := h.faithful_children
  have hatom : Faithful (ofOption Atom.toJson) (fun room => asOption (Atom.ofJson room))
      n.label.atom :=
    .option (fun a _ => Atom.faithful hL a) (by simp [Atom.toJson])
  have hcloseRef : Faithful (ofOption Json.nat) (fun _ => asOption asId) n.label.closeRef :=
    .option (fun i hi => faithful_id (hclose i hi)) (by simp)
  refine .of_obj rfl ?_ fun r hr _ => ?_
  · simp [hparent.lossless, hatom.lossless, hcloseRef.lossless, hchildren.lossless, Lossless.bool]
  · simp only [List.forall_mem_cons] at hr
    obtain ⟨hparentRoom, hatomRoom, -, hcloseRoom, hchildrenRoom, -⟩ := hr
    have hfields : fieldsOf ["parent", "atom", "isClosed", "closeRef", "children"] (nodeToJson n) =
      some [.given (ofOption .nat n.parent), .given (ofOption Atom.toJson n.label.atom),
        .given (.bool n.isClosed), .given (ofOption .nat n.label.closeRef),
        .given (ofList .nat n.children)] := rfl
    simp [nodeOfJson, hfields, Slot.required, Slot.optional, asBool,
      hparent.decode_eq r hparentRoom, hatom.decode_eq r hatomRoom,
      hcloseRef.decode_eq r hcloseRoom, hchildren.decode_eq r hchildrenRoom]

/-- Whether references to nodes have at most 32 bits and all other numbers at most 64. -/
structure State.Storable (s : State L) : Prop where
  /-- The references between nodes. -/
  nodes : ∀ n ∈ s.tree.items, n.Storable
  /-- The references to the partners of closed leaves. -/
  closeRefs : ∀ n ∈ s.tree.items, ∀ i ∈ n.label.closeRef, i < UInt32.size
  /-- The moves made so far. -/
  history : ∀ m ∈ s.history, m.Storable
  /-- The number of expansions. -/
  expansions : s.expansions < UInt64.size

/-- Clausal tableaux are faithful. -/
theorem State.Storable.faithful (hL : FaithfulLiterals L) {s : State L} (h : s.Storable)
    (digest : String) :
    Faithful (fun p : State L × String => p.1.toJson p.2) State.ofJson (s, digest) := by
  have hclauses := ClauseSet.faithful hL s.clauses
  have hkind := s.kind.faithful
  have hnodes := Faithful.list s.tree.items fun n hn =>
    faithful_node hL (h.nodes n hn) (h.closeRefs n hn)
  have hhistory := Faithful.list s.history fun m hm => (h.history m hm).faithful
  refine .sealed State.fields rfl rfl ?_ fun r hr => ?_
  · simp [State.fields, hclauses.lossless, hkind.lossless, hnodes.lossless, hhistory.lossless,
      Lossless.bool, Lossless.nat, h.expansions]
  · simp only [State.fields, List.forall_mem_cons] at hr
    obtain ⟨hclausesRoom, hkindRoom, -, -, -, hnodesRoom, hhistoryRoom, -⟩ := hr
    simp [State.ofFields, State.fields, Slot.required, Slot.withDefault, asBool,
      asWord_nat h.expansions, hclauses.decode_eq r hclausesRoom, hkind.decode_eq r hkindRoom,
      hnodes.decode_eq r hnodesRoom, hhistory.decode_eq r hhistoryRoom]

end Tableau

namespace NonClausal

/-- Whether the numbers in a move have at most 64 bits. -/
def Move.Storable : Move → Prop
  | alpha id | beta id | gamma id | delta id => id < UInt64.size
  | close leaf partner _ => leaf < UInt64.size ∧ partner < UInt64.size
  | undo => True

/-- A move at one node is faithful. -/
theorem faithful_of_target {c : Nat → Move} {tag : String} {id : Nat} (h : id < UInt64.size)
    (hjson : (c id).toJson = .obj [("type", .str tag), ("nodeID", .nat id)])
    (hdecode : ∀ r, fits (r + 1) (c id).toJson = true → Move.ofJson (r + 1) (c id).toJson =
      (targetOfJson (.obj [("nodeID", .nat id)])).bind fun id => some (c id)) :
    Faithful Move.toJson Move.ofJson (c id) := by
  refine .of_obj hjson (by simp [Lossless.str, Lossless.nat, h]) fun r _ hfits => ?_
  have htarget : targetOfJson (.obj [("nodeID", .nat id)]) = asWord (.nat id) := rfl
  rw [hdecode r hfits, htarget, asWord_nat h]
  rfl

/-- Moves are faithful. -/
theorem Move.Storable.faithful {m : Move} (h : m.Storable) :
    Faithful Move.toJson Move.ofJson m := by
  cases m with
  | alpha id => exact faithful_of_target h rfl fun r hfits => by rw [ofJson, hfits]; rfl
  | beta id => exact faithful_of_target h rfl fun r hfits => by rw [ofJson, hfits]; rfl
  | gamma id => exact faithful_of_target h rfl fun r hfits => by rw [ofJson, hfits]; rfl
  | delta id => exact faithful_of_target h rfl fun r hfits => by rw [ofJson, hfits]; rfl
  | close leaf partner assignment =>
    obtain ⟨hleaf, hpartner⟩ := h
    cases assignment <;>
      exact .closing hleaf hpartner _ rfl fun r hfits => by rw [ofJson, hfits]; rfl
  | undo =>
    refine .of_obj rfl (by simp [Lossless.str]) fun r _ hfits => ?_
    rw [ofJson, hfits]
    rfl

/-- Nodes are faithful. -/
theorem faithful_node {n : Node Label} (h : n.Storable)
    (hclose : ∀ i ∈ n.label.closeRef, i < UInt32.size) : Faithful nodeToJson nodeOfJson n := by
  have hparent := h.faithful_parent
  have hchildren := h.faithful_children
  have hformula := n.label.formula.faithful false
  have hcloseRef : Faithful (ofOption Json.nat) (fun _ => asOption asId) n.label.closeRef :=
    .option (fun i hi => faithful_id (hclose i hi)) (by simp)
  refine .of_obj rfl ?_ fun r hr _ => ?_
  · simp [hparent.lossless, hformula.lossless, hcloseRef.lossless, hchildren.lossless,
      Lossless.bool]
  · simp only [List.forall_mem_cons] at hr
    obtain ⟨hparentRoom, hformulaRoom, -, hcloseRoom, hchildrenRoom, -⟩ := hr
    have hfields : fieldsOf ["parent", "formula", "isClosed", "closeRef", "children"]
        (nodeToJson n) =
      some [.given (ofOption .nat n.parent), .given n.label.formula.toJson,
        .given (.bool n.isClosed), .given (ofOption .nat n.label.closeRef),
        .given (ofList .nat n.children)] := rfl
    simp [nodeOfJson, hfields, Slot.required, Slot.optional, asBool,
      hparent.decode_eq r hparentRoom, hformula.decode_eq r hformulaRoom,
      hcloseRef.decode_eq r hcloseRoom, hchildren.decode_eq r hchildrenRoom]

/-- Whether references to nodes have at most 32 bits and all other numbers at most 64. -/
structure State.Storable (s : State) : Prop where
  /-- The references between nodes. -/
  nodes : ∀ n ∈ s.tree.items, n.Storable
  /-- The references to the partners of closed leaves. -/
  closeRefs : ∀ n ∈ s.tree.items, ∀ i ∈ n.label.closeRef, i < UInt32.size
  /-- The moves made so far. -/
  history : ∀ m ∈ s.history, m.Storable
  /-- The number of the last variable handed out. -/
  variableCount : s.variableCount < UInt64.size
  /-- The number of the last Skolem symbol handed out. -/
  symbolCount : s.symbolCount < UInt64.size

/-- Non-clausal tableaux are faithful. -/
theorem State.Storable.faithful {s : State} (h : s.Storable) (digest : String) :
    Faithful (fun p : State × String => p.1.toJson p.2) State.ofJson (s, digest) := by
  have hformula := s.formula.faithful false
  have hnodes := Faithful.list s.tree.items fun n hn =>
    faithful_node (h.nodes n hn) (h.closeRefs n hn)
  have hhistory := Faithful.list s.history fun m hm => (h.history m hm).faithful
  refine .sealed State.fields rfl rfl ?_ fun r hr => ?_
  · simp [State.fields, hformula.lossless, hnodes.lossless, hhistory.lossless, Lossless.bool,
      Lossless.nat, h.variableCount, h.symbolCount]
  · simp only [State.fields, List.forall_mem_cons] at hr
    obtain ⟨hformulaRoom, -, hnodesRoom, hhistoryRoom, -⟩ := hr
    simp [State.ofFields, State.fields, Slot.required, asBool, asWord_nat h.variableCount,
      asWord_nat h.symbolCount, hformula.decode_eq r hformulaRoom, hnodes.decode_eq r hnodesRoom,
      hhistory.decode_eq r hhistoryRoom]

end NonClausal

namespace SequentProof

/-- Whether the numbers in a move have at most 64 bits. -/
def Move.Storable : Move → Prop
  | ax id => id < UInt64.size
  | connective _ id index => id < UInt64.size ∧ index < UInt64.size
  | quantifier _ id index _ => id < UInt64.size ∧ index < UInt64.size
  | undo => True

private theorem lookup_connective (rule : Rule) :
    List.lookup rule.name Move.tags = some (.connective rule) := by
  cases rule <;> rfl

private theorem lookup_quantifier (rule : QuantifierRule) :
    List.lookup rule.name Move.tags = some (.quantifier rule) := by
  cases rule <;> rfl

/-- Moves are faithful. -/
theorem Move.Storable.faithful {m : Move} (h : m.Storable) :
    Faithful Move.toJson Move.ofJson m := by
  cases m with
  | ax id =>
    have hid : id < UInt64.size := h
    refine .of_obj rfl (by simp [Lossless.str, Lossless.nat, hid]) fun r _ hfits => ?_
    rw [ofJson, hfits]
    change (asWord (.nat id)).bind (fun id => some (Move.ax id)) = _
    rw [asWord_nat hid]
    rfl
  | connective rule id index =>
    obtain ⟨hid, hindex⟩ := h
    refine .of_obj rfl (by simp [Lossless.str, Lossless.nat, hid, hindex]) fun r _ hfits => ?_
    have htag : tagged "type" (connective rule id index).toJson =
      some (.str rule.name, .obj [("nodeID", .nat id), ("listIndex", .nat index)]) := rfl
    have hfields : fieldsOf ["nodeID", "listIndex"]
        (.obj [("nodeID", .nat id), ("listIndex", .nat index)]) =
      some [.given (.nat id), .given (.nat index)] := rfl
    simp [ofJson, hfits, htag, asString, lookup_connective, hfields, Slot.required,
      asWord_nat hid, asWord_nat hindex]
  | quantifier rule id index assignment =>
    obtain ⟨hid, hindex⟩ := h
    have hmap := faithful_stringMap assignment
    refine .of_obj rfl (by simp [Lossless.str, Lossless.nat, hid, hindex, hmap.lossless])
      fun r hr hfits => ?_
    have hdecode := hmap.decode_eq r (hr ("varAssign", ofStringMap assignment) (by simp))
    have htag : tagged "type" (quantifier rule id index assignment).toJson =
      some (.str rule.name, .obj [("nodeID", .nat id), ("listIndex", .nat index),
        ("varAssign", ofStringMap assignment)]) := rfl
    have hfields : fieldsOf ["nodeID", "listIndex", "varAssign"]
        (.obj [("nodeID", .nat id), ("listIndex", .nat index),
          ("varAssign", ofStringMap assignment)]) =
      some [.given (.nat id), .given (.nat index), .given (ofStringMap assignment)] := rfl
    simp [ofJson, hfits, htag, asString, lookup_quantifier, hfields, Slot.required,
      Slot.withDefault, asWord_nat hid, asWord_nat hindex, hdecode]
  | undo =>
    refine .of_obj rfl (by simp [Lossless.str]) fun r _ hfits => ?_
    rw [ofJson, hfits]
    rfl

theorem Move.toJson_ne_null (m : Move) : m.toJson ≠ .null := by
  cases m <;> simp [toJson]

/-- Nodes are faithful. -/
theorem faithful_node {n : Node Label} (h : n.Storable)
    (hmove : ∀ m ∈ n.label.lastMove, m.Storable) : Faithful nodeToJson nodeOfJson n := by
  have hparent := h.faithful_parent
  have hchildren := h.faithful_children
  have hleft := Faithful.list n.label.sequent.left fun f _ => f.faithful false
  have hright := Faithful.list n.label.sequent.right fun f _ => f.faithful false
  have hlastMove : Faithful (ofOption Move.toJson) (fun room => asOption (Move.ofJson room))
      n.label.lastMove :=
    .option (fun m hm => (hmove m hm).faithful) fun m _ => m.toJson_ne_null
  refine .of_obj rfl ?_ fun r hr _ => ?_
  · simp [hparent.lossless, hleft.lossless, hright.lossless, hlastMove.lossless,
      hchildren.lossless, Lossless.bool]
  · simp only [List.forall_mem_cons] at hr
    obtain ⟨hparentRoom, hleftRoom, hrightRoom, -, hmoveRoom, hchildrenRoom, -⟩ := hr
    have hfields : fieldsOf ["parent", "leftFormulas", "rightFormulas", "isClosed", "lastMove",
        "children"] (nodeToJson n) =
      some [.given (ofOption .nat n.parent), .given (ofList Formula.toJson n.label.sequent.left),
        .given (ofList Formula.toJson n.label.sequent.right), .given (.bool n.isClosed),
        .given (ofOption Move.toJson n.label.lastMove), .given (ofList .nat n.children)] := rfl
    simp [nodeOfJson, hfields, Slot.required, Slot.optional, asBool,
      hparent.decode_eq r hparentRoom, hleft.decode_eq r hleftRoom, hright.decode_eq r hrightRoom,
      hlastMove.decode_eq r hmoveRoom, hchildren.decode_eq r hchildrenRoom]

/-- Whether references to nodes have at most 32 bits and all other numbers at most 64. -/
structure State.Storable (s : State) : Prop where
  /-- The references between nodes. -/
  nodes : ∀ n ∈ s.tree.items, n.Storable
  /-- The moves that added the nodes. -/
  lastMoves : ∀ n ∈ s.tree.items, ∀ m ∈ n.label.lastMove, m.Storable
  /-- The moves made so far. -/
  history : ∀ m ∈ s.history, m.Storable

/-- Sequent proofs are faithful. -/
theorem State.Storable.faithful {s : State} (h : s.Storable) (digest : String) :
    Faithful (fun p : State × String => p.1.toJson p.2) State.ofJson (s, digest) := by
  have hnodes := Faithful.list s.tree.items fun n hn =>
    faithful_node (h.nodes n hn) (h.lastMoves n hn)
  have hhistory := Faithful.list s.history fun m hm => (h.history m hm).faithful
  refine .sealed State.fields rfl rfl ?_ fun r hr => ?_
  · simp [State.fields, hnodes.lossless, hhistory.lossless, Lossless.bool]
  · simp only [State.fields, List.forall_mem_cons] at hr
    obtain ⟨hnodesRoom, hhistoryRoom, -⟩ := hr
    simp [State.ofFields, State.fields, Slot.required, asBool, hnodes.decode_eq r hnodesRoom,
      hhistory.decode_eq r hhistoryRoom]

end SequentProof

namespace Calculus

/-- Whether all states with a property are read back from their documents, provided that these
are not nested too deep. -/
def ReadsBack (C : Calculus) (storable : C.State → Prop) : Prop :=
  ∀ s, storable s → (C.writeState s).depth ≤ maxDepth →
    C.decodeState (C.writeState s).render = .ok (s, C.sealOf s) ∧
    C.readState (C.writeState s).render = .ok s

theorem decodeState_of_faithful {C : Calculus} {s : C.State} {digest : String}
    (h : Faithful (fun p : C.State × String => C.stateToJson p.1 p.2) C.stateOfJson (s, digest))
    (hdepth : (C.stateToJson s digest).depth ≤ maxDepth) :
    C.decodeState (C.stateToJson s digest).render = .ok (s, digest) := by
  have hread : Json.read (C.stateToJson s digest).render = some (C.stateToJson s digest) :=
    h.lossless.readAs.read_render
  have hvalue : C.stateOfJson maxDepth (C.stateToJson s digest) = some (s, digest) :=
    h.decode_eq maxDepth hdepth
  rw [decodeState, Decoder.ofText, hread, Option.bind_some, hvalue]

/-- It suffices that the forms of states under a seal are faithful. -/
theorem readsBack_of_faithful {C : Calculus} {storable : C.State → Prop}
    (h : ∀ s, storable s → ∀ digest,
      Faithful (fun p : C.State × String => C.stateToJson p.1 p.2) C.stateOfJson (s, digest)) :
    C.ReadsBack storable := by
  intro s hs hdepth
  have hdecode : C.decodeState (C.writeState s).render = .ok (s, C.sealOf s) :=
    decodeState_of_faithful (h s hs (C.sealOf s)) hdepth
  refine ⟨hdecode, ?_⟩
  rw [readState, hdecode]
  simp [Outcome.ofDocument, Outcome.ok_bind]

/-- In every calculus a state whose numbers fit into their words is read back from its document,
with every field as it was and under its own seal, as long as the document is not nested too
deep. -/
theorem states_read_back :
    propositionalResolution.ReadsBack Resolution.State.Storable ∧
    firstOrderResolution.ReadsBack Resolution.State.Storable ∧
    propositionalTableaux.ReadsBack Tableau.State.Storable ∧
    firstOrderTableaux.ReadsBack Tableau.State.Storable ∧
    nonClausalTableaux.ReadsBack NonClausal.State.Storable ∧
    propositionalSequent.ReadsBack SequentProof.State.Storable ∧
    firstOrderSequent.ReadsBack SequentProof.State.Storable := by
  refine ⟨readsBack_of_faithful ?_, readsBack_of_faithful ?_, readsBack_of_faithful ?_,
    readsBack_of_faithful ?_, readsBack_of_faithful ?_, readsBack_of_faithful ?_,
    readsBack_of_faithful ?_⟩
  · exact fun s hs => hs.faithful faithfulLiterals_string
  · exact fun s hs => hs.faithful faithfulLiterals_relation
  · exact fun s hs => hs.faithful faithfulLiterals_string
  · exact fun s hs => hs.faithful faithfulLiterals_relation
  · exact fun s hs => hs.faithful
  · exact fun s hs => hs.faithful
  · exact fun s hs => hs.faithful

/-- A proof of `∀X R(X) ⊢ ∃Y ¬R(Y)` with a move that names a constant by control characters and
quotation marks. -/
def oddlyNamed : SequentProof.State where
  tree := ⟨[⟨none, ⟨⟨[.all "X" (.rel ⟨"R", [.var "X"]⟩)],
    [.ex "Y" (.not (.rel ⟨"R", [.app "f" [.var "Y"]]⟩))]⟩, none⟩, false, [1]⟩,
    ⟨some 0, ⟨⟨[.rel ⟨"R", [.const "\x01\"\\\n"]⟩], []⟩,
      some (.quantifier .allLeft 0 0 (.ofList [("X", "\x01\"\\\n")]))⟩, true, []⟩]⟩
  history := [.quantifier .allLeft 0 0 (.ofList [("X", "\x01\"\\\n")]), .undo]
  onlyApplicable := true

private theorem storable_oddlyNamed : oddlyNamed.Storable where
  nodes := by
    simp only [oddlyNamed, List.forall_mem_cons, List.not_mem_nil, false_imp_iff, implies_true,
      and_true]
    exact ⟨⟨by decide, by decide⟩, ⟨by decide, by decide⟩⟩
  lastMoves := by
    simp only [oddlyNamed, List.forall_mem_cons, List.not_mem_nil, false_imp_iff, implies_true,
      and_true]
    refine ⟨by simp, ?_⟩
    rintro m ⟨⟩
    exact ⟨by decide, by decide⟩
  history := by
    simp only [oddlyNamed, List.forall_mem_cons, List.not_mem_nil, false_imp_iff, implies_true,
      and_true]
    exact ⟨⟨by decide, by decide⟩, trivial⟩

/-- The proof with the odd name is read back from its document. -/
theorem oddlyNamed_read_back :
    firstOrderSequent.readState (firstOrderSequent.writeState oddlyNamed).render =
      .ok oddlyNamed := by
  have hdepth : (firstOrderSequent.writeState oddlyNamed).depth ≤ maxDepth := by
    change (oddlyNamed.toJson (firstOrderSequent.sealOf oddlyNamed)).depth ≤ maxDepth
    generalize firstOrderSequent.sealOf oddlyNamed = digest
    exact Nat.le_of_ble_eq_true rfl
  exact (states_read_back.2.2.2.2.2.2 oddlyNamed storable_oddlyNamed hdepth).2

end Calculus

end Deduction
