import Deduction.Document.Clause
import Deduction.Tableau.FirstOrder
import Deduction.Tableau.Propositional

/-!
# Clausal tableaux as JSON
-/

namespace Deduction.Tableau

open Json

/-- The tags of moves. -/
def Move.tags : List String := ["tableaux-expand", "tableaux-close", "tableaux-undo"]

/-- The JSON form of a move. -/
def Move.toJson : Move → Json
  | expand id clause =>
    .obj [("type", .str "tableaux-expand"), ("id", .nat id), ("clause", .nat clause)]
  | close leaf partner none =>
    .obj [("type", .str "tableaux-close"), ("id1", .nat leaf), ("id2", .nat partner)]
  | close leaf partner (some assignment) =>
    .obj [("type", .str "tableaux-close"), ("id1", .nat leaf), ("id2", .nat partner),
      ("varAssign", ofStringMap assignment)]
  | undo => .obj [("type", .str "tableaux-undo")]

/-- Decode a move. -/
def Move.ofJson : Decoder Move
  | 0, _ => none
  | room + 1, v => do
    if !fits (room + 1) v then none
    let (tag, body) ← tagged "type" v
    match ← tagIndex false tags tag with
    | 0 =>
      let [id, clause] ← fieldsOf ["id", "clause"] body | none
      return .expand (← id.required asWord) (← clause.required asWord)
    | 1 =>
      let [leaf, partner, assignment] ← fieldsOf ["id1", "id2", "varAssign"] body | none
      return .close (← leaf.required asWord) (← partner.required asWord)
        (← assignment.withDefault none (asOption (asStringMap room)))
    | _ =>
      asUnit body
      return .undo

variable {L : Type} [LiteralJson L]

/-- The JSON form of a node. -/
def nodeToJson (n : Node (Label L)) : Json :=
  .obj [("parent", ofOption .nat n.parent), ("atom", ofOption Atom.toJson n.label.atom),
    ("isClosed", .bool n.isClosed), ("closeRef", ofOption .nat n.label.closeRef),
    ("children", ofList .nat n.children)]

/-- Decode a node. -/
def nodeOfJson : Decoder (Node (Label L))
  | 0, _ => none
  | room + 1, v => do
    let [parent, atom, closed, closeRef, children] ←
      fieldsOf ["parent", "atom", "isClosed", "closeRef", "children"] v | none
    return {
      parent := ← parent.optional asId
      label := ⟨← atom.optional (Atom.ofJson room), ← closeRef.optional asId⟩
      isClosed := ← closed.required asBool
      children := ← children.required (asList (fun _ => asId) room) }

/-- The fields of a tableau. -/
def State.fields (s : State L) : List (String × Json) :=
  [("clauseSet", s.clauses.toJson), ("type", s.kind.toJson), ("regular", .bool s.regular),
    ("backtracking", .bool s.backtracking), ("manualVarAssign", .bool s.manual),
    ("nodes", ofList nodeToJson s.tree.items), ("moveHistory", ofList Move.toJson s.history),
    ("expansionCounter", .nat s.expansions)]

/-- The JSON form of a tableau under a seal. -/
def State.toJson (s : State L) (digest : String) : Json := sealedObj s.fields digest

/-- Make a tableau of its fields. -/
def State.ofFields (room : Nat) : List Slot → Option (State L)
  | [clauses, kind, regular, backtracking, manual, nodes, history, expansions] => do
    return {
      clauses := ← clauses.required (ClauseSet.ofJson room)
      kind := ← kind.required (Connectedness.ofJson room)
      regular := ← regular.required asBool
      backtracking := ← backtracking.required asBool
      manual := ← manual.withDefault false asBool
      tree := ⟨← nodes.required (asList nodeOfJson room)⟩
      history := ← history.required (asList Move.ofJson room)
      expansions := ← expansions.required asWord }
  | _ => none

/-- Decode a tableau and its seal. -/
def State.ofJson : Decoder (State L × String) :=
  ofSealed ["clauseSet", "type", "regular", "backtracking", "manualVarAssign", "nodes",
    "moveHistory", "expansionCounter"] State.ofFields

/-- Decode the parameters of a propositional proof. -/
def Propositional.Params.ofJson : Decoder Propositional.Params
  | 0, _ => none
  | room + 1, v => do
    let [kind, regular, backtracking, strategy] ←
      fieldsOf ["type", "regular", "backtracking", "cnfStrategy"] v | none
    let defaults : Propositional.Params := {}
    return ⟨← kind.withDefault defaults.kind (Connectedness.ofJson room),
      ← regular.withDefault defaults.regular asBool,
      ← backtracking.withDefault defaults.backtracking asBool,
      ← strategy.withDefault defaults.strategy (Strategy.ofJson room)⟩

/-- Decode the parameters of a first-order proof. -/
def FirstOrder.Params.ofJson : Decoder FirstOrder.Params
  | 0, _ => none
  | room + 1, v => do
    let [kind, regular, backtracking, manual] ←
      fieldsOf ["type", "regular", "backtracking", "manualVarAssign"] v | none
    let defaults : FirstOrder.Params := {}
    return ⟨← kind.withDefault defaults.kind (Connectedness.ofJson room),
      ← regular.withDefault defaults.regular asBool,
      ← backtracking.withDefault defaults.backtracking asBool,
      ← manual.withDefault defaults.manual asBool⟩

end Deduction.Tableau
