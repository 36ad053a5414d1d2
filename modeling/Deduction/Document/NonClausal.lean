import Deduction.Document.Formula
import Deduction.NonClausal.Basic

/-!
# Non-clausal tableaux as JSON
-/

namespace Deduction.NonClausal

open Json

/-- The tags of moves. -/
def Move.tags : List String := ["alpha", "beta", "gamma", "delta", "close", "undo"]

/-- The JSON form of a move. -/
def Move.toJson : Move → Json
  | alpha id => .obj [("type", .str "alpha"), ("nodeID", .nat id)]
  | beta id => .obj [("type", .str "beta"), ("nodeID", .nat id)]
  | gamma id => .obj [("type", .str "gamma"), ("nodeID", .nat id)]
  | delta id => .obj [("type", .str "delta"), ("nodeID", .nat id)]
  | close leaf partner none =>
    .obj [("type", .str "close"), ("leafID", .nat leaf), ("closeID", .nat partner)]
  | close leaf partner (some assignment) =>
    .obj [("type", .str "close"), ("leafID", .nat leaf), ("closeID", .nat partner),
      ("varAssign", ofStringMap assignment)]
  | undo => .obj [("type", .str "undo")]

/-- Decode the node that a rule is applied to. -/
def targetOfJson (body : Json) : Option Nat := do
  let [id] ← fieldsOf ["nodeID"] body | none
  id.required asWord

/-- Decode a move. -/
def Move.ofJson : Decoder Move
  | 0, _ => none
  | room + 1, v => do
    if !fits (room + 1) v then none
    let (tag, body) ← tagged "type" v
    match ← tagIndex false tags tag with
    | 0 => return .alpha (← targetOfJson body)
    | 1 => return .beta (← targetOfJson body)
    | 2 => return .gamma (← targetOfJson body)
    | 3 => return .delta (← targetOfJson body)
    | 4 =>
      let [leaf, partner, assignment] ← fieldsOf ["leafID", "closeID", "varAssign"] body | none
      return .close (← leaf.required asWord) (← partner.required asWord)
        (← assignment.withDefault none (asOption (asStringMap room)))
    | _ =>
      asUnit body
      return .undo

/-- The JSON form of a node. -/
def nodeToJson (n : Node Label) : Json :=
  .obj [("parent", ofOption .nat n.parent), ("formula", n.label.formula.toJson),
    ("isClosed", .bool n.isClosed), ("closeRef", ofOption .nat n.label.closeRef),
    ("children", ofList .nat n.children)]

/-- Decode a node. -/
def nodeOfJson : Decoder (Node Label)
  | 0, _ => none
  | room + 1, v => do
    let [parent, formula, closed, closeRef, children] ←
      fieldsOf ["parent", "formula", "isClosed", "closeRef", "children"] v | none
    return {
      parent := ← parent.optional asId
      label := ⟨← formula.required (Formula.ofJson false room), ← closeRef.optional asId⟩
      isClosed := ← closed.required asBool
      children := ← children.required (asList (fun _ => asId) room) }

/-- The fields of a tableau. -/
def State.fields (s : State) : List (String × Json) :=
  [("formula", s.formula.toJson), ("backtracking", .bool s.backtracking),
    ("nodes", ofList nodeToJson s.tree.items), ("moveHistory", ofList Move.toJson s.history),
    ("gammaCounter", .nat s.variableCount), ("skolemCounter", .nat s.symbolCount)]

/-- The JSON form of a tableau under a seal. -/
def State.toJson (s : State) (digest : String) : Json := sealedObj s.fields digest

/-- Make a tableau of its fields. -/
def State.ofFields (room : Nat) : List Slot → Option State
  | [formula, backtracking, nodes, history, names, symbols] => do
    return {
      formula := ← formula.required (Formula.ofJson false room)
      backtracking := ← backtracking.required asBool
      tree := ⟨← nodes.required (asList nodeOfJson room)⟩
      history := ← history.required (asList Move.ofJson room)
      variableCount := ← names.required asWord
      symbolCount := ← symbols.required asWord }
  | _ => none

/-- Decode a tableau and its seal. -/
def State.ofJson : Decoder (State × String) :=
  ofSealed ["formula", "backtracking", "nodes", "moveHistory", "gammaCounter", "skolemCounter"]
    State.ofFields

/-- Decode the parameters of a proof. -/
def Params.ofJson : Decoder Params
  | 0, _ => none
  | _ + 1, v => do
    let [backtracking] ← fieldsOf ["backtracking"] v | none
    let defaults : Params := {}
    return ⟨← backtracking.withDefault defaults.backtracking asBool⟩

end Deduction.NonClausal
