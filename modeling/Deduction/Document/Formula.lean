import Deduction.Formula
import Deduction.Json.Decode

/-!
# Formulas as JSON

Terms and formulas are tagged objects, relations are plain ones. A decoder is
told whether the value stands inside another tagged value, where a tag may also
be given by its position.
-/

namespace Deduction

namespace Json

/-- A value or `null` for none. -/
def ofOption {α : Type} (encode : α → Json) : Option α → Json
  | some a => encode a
  | none => .null

/-- An array of values. -/
def ofList {α : Type} (encode : α → Json) (xs : List α) : Json := .arr (xs.map encode)

/-- An object from names to strings. -/
def ofStringMap (m : KeyMap String String) : Json :=
  .obj (m.entries.map fun e => (e.1, .str e.2))

/-- The items of an array. -/
def itemsOf : Json → Option (List Json)
  | .arr items => some items
  | _ => none

end Json

open Json

namespace Term

mutual

/-- The JSON form of a term. -/
def toJson : Term → Json
  | var x => .obj [("type", .str "QuantifiedVariable"), ("spelling", .str x)]
  | const c => .obj [("type", .str "Constant"), ("spelling", .str c)]
  | app f ts => .obj [("type", .str "Function"), ("spelling", .str f),
      ("arguments", .arr (toJsonList ts))]

/-- The JSON forms of a list of terms. -/
def toJsonList : List Term → List Json
  | [] => []
  | t :: ts => toJson t :: toJsonList ts

end

/-- The tags of terms. -/
def tags : List String := ["QuantifiedVariable", "Constant", "Function"]

/-- Decode a term. -/
def ofJson (inner : Bool) : Decoder Term
  | 0, _ => none
  | room + 1, v => do
    if !inner && !fits (room + 1) v then none
    let (tag, body) ← tagged "type" v
    match ← tagIndex inner tags tag with
    | 0 =>
      let [spelling] ← fieldsOf ["spelling"] body | none
      return .var (← spelling.required asString)
    | 1 =>
      let [spelling] ← fieldsOf ["spelling"] body | none
      return .const (← spelling.required asString)
    | _ =>
      let [spelling, arguments] ← fieldsOf ["spelling", "arguments"] body | none
      let f ← spelling.required asString
      let items ← arguments.required itemsOf
      return .app f (← items.mapM (ofJson true room))

end Term

namespace Relation

/-- The JSON form of a relation. -/
def toJson (r : Relation) : Json :=
  .obj [("spelling", .str r.name), ("arguments", .arr (Term.toJsonList r.args))]

/-- Decode a relation. -/
def ofJson : Decoder Relation
  | 0, _ => none
  | room + 1, v => do
    let [spelling, arguments] ← fieldsOf ["spelling", "arguments"] v | none
    let name ← spelling.required asString
    let args ← arguments.required (asList (Term.ofJson false) room)
    return ⟨name, args⟩

end Relation

namespace Formula

/-- The JSON form of a formula. -/
def toJson : Formula → Json
  | var x => .obj [("type", .str "var"), ("spelling", .str x)]
  | not f => .obj [("type", .str "not"), ("child", f.toJson)]
  | and f g => .obj [("type", .str "and"), ("leftChild", f.toJson), ("rightChild", g.toJson)]
  | or f g => .obj [("type", .str "or"), ("leftChild", f.toJson), ("rightChild", g.toJson)]
  | imp f g => .obj [("type", .str "impl"), ("leftChild", f.toJson), ("rightChild", g.toJson)]
  | iff f g => .obj [("type", .str "equiv"), ("leftChild", f.toJson), ("rightChild", g.toJson)]
  | rel r =>
    .obj [("type", .str "relation"), ("spelling", .str r.name),
      ("arguments", .arr (Term.toJsonList r.args))]
  | all x f => .obj [("type", .str "allquant"), ("varName", .str x), ("child", f.toJson)]
  | ex x f => .obj [("type", .str "exquant"), ("varName", .str x), ("child", f.toJson)]

/-- The tags of formulas. -/
def tags : List String :=
  ["var", "not", "and", "or", "impl", "equiv", "relation", "allquant", "exquant"]

/-- Decode the two sides of a connective. -/
def sidesOfJson (decode : Json → Option Formula) (body : Json) : Option (Formula × Formula) := do
  let [left, right] ← fieldsOf ["leftChild", "rightChild"] body | none
  return (← left.required decode, ← right.required decode)

/-- Decode the variable and the body of a quantifier. -/
def scopeOfJson (decode : Json → Option Formula) (body : Json) : Option (String × Formula) := do
  let [name, child] ← fieldsOf ["varName", "child"] body | none
  return (← name.required asString, ← child.required decode)

/-- Decode a formula. -/
def ofJson (inner : Bool) : Decoder Formula
  | 0, _ => none
  | room + 1, v => do
    if !inner && !fits (room + 1) v then none
    let (tag, body) ← tagged "type" v
    let decode := ofJson true room
    match ← tagIndex inner tags tag with
    | 0 =>
      let [spelling] ← fieldsOf ["spelling"] body | none
      return .var (← spelling.required asString)
    | 1 =>
      let [child] ← fieldsOf ["child"] body | none
      return .not (← child.required decode)
    | 2 =>
      let (f, g) ← sidesOfJson decode body
      return .and f g
    | 3 =>
      let (f, g) ← sidesOfJson decode body
      return .or f g
    | 4 =>
      let (f, g) ← sidesOfJson decode body
      return .imp f g
    | 5 =>
      let (f, g) ← sidesOfJson decode body
      return .iff f g
    | 6 =>
      let [spelling, arguments] ← fieldsOf ["spelling", "arguments"] body | none
      let name ← spelling.required asString
      let items ← arguments.required itemsOf
      return .rel ⟨name, ← items.mapM (Term.ofJson true room)⟩
    | 7 =>
      let (x, f) ← scopeOfJson decode body
      return .all x f
    | _ =>
      let (x, f) ← scopeOfJson decode body
      return .ex x f

end Formula

end Deduction
