import Deduction.Document.Formula
import Deduction.SequentProof.Basic

/-!
# Sequent proofs as JSON
-/

namespace Deduction.SequentProof

open Json

/-- The kinds of moves. -/
inductive MoveKind where
  | ax
  | connective (rule : Rule)
  | quantifier (rule : QuantifierRule)
  | undo
  deriving DecidableEq, Repr

/-- The tags of moves. -/
def Move.tags : List (String × MoveKind) :=
  [("Ax", .ax), ("undo", .undo)] ++
    ([.notLeft, .notRight, .andLeft, .andRight, .orLeft, .orRight, .impLeft, .impRight].map
      fun rule : Rule => (rule.name, .connective rule)) ++
    ([.allLeft, .allRight, .exLeft, .exRight].map
      fun rule : QuantifierRule => (rule.name, .quantifier rule))

/-- The JSON form of a move. -/
def Move.toJson : Move → Json
  | ax id => .obj [("type", .str "Ax"), ("nodeID", .nat id)]
  | connective rule id index =>
    .obj [("type", .str rule.name), ("nodeID", .nat id), ("listIndex", .nat index)]
  | quantifier rule id index assignment =>
    .obj [("type", .str rule.name), ("nodeID", .nat id), ("listIndex", .nat index),
      ("varAssign", ofStringMap assignment)]
  | undo => .obj [("type", .str "undo")]

/-- Decode a move. -/
def Move.ofJson : Decoder Move
  | 0, _ => none
  | room + 1, v => do
    if !fits (room + 1) v then none
    let (tag, body) ← tagged "type" v
    match ← (asString tag).bind fun s => List.lookup s tags with
    | .ax =>
      let [id] ← fieldsOf ["nodeID"] body | none
      return .ax (← id.required asWord)
    | .connective rule =>
      let [id, index] ← fieldsOf ["nodeID", "listIndex"] body | none
      return .connective rule (← id.required asWord) (← index.required asWord)
    | .quantifier rule =>
      let [id, index, assignment] ← fieldsOf ["nodeID", "listIndex", "varAssign"] body | none
      return .quantifier rule (← id.required asWord) (← index.required asWord)
        (← assignment.withDefault .empty (asStringMap room))
    | .undo =>
      asUnit body
      return .undo

/-- The JSON form of a node. -/
def nodeToJson (n : Node Label) : Json :=
  .obj [("parent", ofOption .nat n.parent),
    ("leftFormulas", ofList Formula.toJson n.label.sequent.left),
    ("rightFormulas", ofList Formula.toJson n.label.sequent.right),
    ("isClosed", .bool n.isClosed), ("lastMove", ofOption Move.toJson n.label.lastMove),
    ("children", ofList .nat n.children)]

/-- Decode a node. -/
def nodeOfJson : Decoder (Node Label)
  | 0, _ => none
  | room + 1, v => do
    let [parent, left, right, closed, lastMove, children] ←
      fieldsOf ["parent", "leftFormulas", "rightFormulas", "isClosed", "lastMove", "children"] v
      | none
    return {
      parent := ← parent.optional asId
      label :=
        ⟨⟨← left.required (asList (Formula.ofJson false) room),
            ← right.required (asList (Formula.ofJson false) room)⟩,
          ← lastMove.optional (Move.ofJson room)⟩
      isClosed := ← closed.required asBool
      children := ← children.required (asList (fun _ => asId) room) }

/-- The fields of a proof. -/
def State.fields (s : State) : List (String × Json) :=
  [("tree", ofList nodeToJson s.tree.items), ("moveHistory", ofList Move.toJson s.history),
    ("showOnlyApplicableRules", .bool s.onlyApplicable)]

/-- The JSON form of a proof under a seal. -/
def State.toJson (s : State) (digest : String) : Json := sealedObj s.fields digest

/-- Make a proof of its fields. -/
def State.ofFields (room : Nat) : List Slot → Option State
  | [nodes, history, onlyApplicable] => do
    return {
      tree := ⟨← nodes.required (asList nodeOfJson room)⟩
      history := ← history.required (asList Move.ofJson room)
      onlyApplicable := ← onlyApplicable.required asBool }
  | _ => none

/-- Decode a proof and its seal. -/
def State.ofJson : Decoder (State × String) :=
  ofSealed ["tree", "moveHistory", "showOnlyApplicableRules"] State.ofFields

/-- Decode the parameters of a proof. -/
def Params.ofJson : Decoder Params
  | 0, _ => none
  | _ + 1, v => do
    let [onlyApplicable] ← fieldsOf ["showOnlyApplicableRules"] v | none
    let defaults : Params := {}
    return ⟨← onlyApplicable.withDefault defaults.onlyApplicable asBool⟩

end Deduction.SequentProof
