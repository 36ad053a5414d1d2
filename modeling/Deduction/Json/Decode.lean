import Deduction.Json
import Deduction.KeyMap

/-!
# Decoding JSON values

Objects of fixed shape are decoded from an object, whose unknown fields are
skipped and whose known fields may not repeat, or from an array of the fields in
declaration order. Alternatives are told apart by a tag, which stands in a field
of its own or at the head of an array. Every decoder is told how much nesting is
left (`room`); what is skipped does not count. A tagged value is taken in as a
whole before its tag is looked at, so everything in it must be usable and count.
States stand under a seal, which may be left out.
-/

namespace Deduction.Json

/-- A decoder, given the nesting depth that is left. -/
abbrev Decoder (α : Type) := Nat → Json → Option α

/-- What stands in the place of a field. -/
inductive Slot where
  /-- A value is given. -/
  | given (v : Json)
  /-- The object has no such field. -/
  | absent
  /-- The array ends before the field. -/
  | cut

namespace Slot

variable {α : Type}

/-- A field that must be given. -/
def required (slot : Slot) (decode : Json → Option α) : Option α :=
  match slot with
  | given v => decode v
  | _ => none

/-- A field with a default for when it is not given. -/
def withDefault (slot : Slot) (default : α) (decode : Json → Option α) : Option α :=
  match slot with
  | given v => decode v
  | _ => some default

end Slot

/-- A string. -/
def asString : Json → Option String
  | .str s => some s
  | _ => none

/-- A truth value. -/
def asBool : Json → Option Bool
  | .bool b => some b
  | _ => none

/-- A natural number below a bound. -/
def asNatBelow (bound : Nat) : Json → Option Nat
  | .nat n => if n < bound then some n else none
  | _ => none

/-- A number of 64 bits, as counters and positions in requests are. -/
def asWord : Json → Option Nat := asNatBelow UInt64.size

/-- A number of 32 bits, as references to nodes are. -/
def asId : Json → Option Nat := asNatBelow UInt32.size

/-- A value or `null` for none. -/
def asOption {α : Type} (decode : Json → Option α) : Json → Option (Option α)
  | .null => some none
  | v => (decode v).map some

/-- An optional field, which an object may lack and an array may not. -/
def Slot.optional {α : Type} (slot : Slot) (decode : Json → Option α) : Option (Option α) :=
  match slot with
  | given v => asOption decode v
  | absent => some none
  | cut => none

/-- An array of values. -/
def asList {α : Type} (decode : Decoder α) : Decoder (List α)
  | room + 1, .arr items => items.mapM (decode room)
  | _, _ => none

/-- An object from names to strings; of equal names the last one counts. -/
def asStringMap : Decoder (KeyMap String String)
  | _ + 1, .obj fields => do
    let entries ← fields.mapM fun (k, v) => (asString v).map fun s => (k, s)
    return .ofList entries
  | _, _ => none

/-- The fields of the given names, in that order, from an object or an array. A name that is
given twice and a surplus item are refused. -/
def fieldsOf (names : List String) : Json → Option (List Slot)
  | .obj fields =>
    names.mapM fun name =>
      match fields.filter fun f => f.1 = name with
      | [] => some .absent
      | [(_, v)] => some (.given v)
      | _ => none
  | .arr items =>
    if items.length ≤ names.length then
      some (items.map .given ++ List.replicate (names.length - items.length) .cut)
    else none
  | _ => none

/-- The tag and the rest of a tagged value: the rest has the form, object or array, of the
whole. -/
def tagged (tagName : String) : Json → Option (Json × Json)
  | .obj fields =>
    match fields.filter fun f => f.1 = tagName with
    | [(_, tag)] => some (tag, .obj (fields.filter fun f => f.1 ≠ tagName))
    | _ => none
  | .arr (tag :: rest) => some (tag, .arr rest)
  | _ => none

/-- The position of a tag among the names of the alternatives. Inside a value that has been
taken in as a whole the position itself may be given in place of the name. -/
def tagIndex (inner : Bool) (names : List String) : Json → Option Nat
  | .str s => names.idxOf? s
  | .nat n => if inner && n < names.length then some n else none
  | _ => none

/-- Whether a value can be taken in as a whole. -/
def fits (room : Nat) (v : Json) : Bool := v.usable && v.depth ≤ room

/-- An alternative without fields: anything goes in an object, nothing in an array. -/
def asUnit : Json → Option Unit
  | .obj _ => some ()
  | .arr [] => some ()
  | _ => none

/-- One of several names, written as a string or as an object with `null` under the name. -/
def asName {α : Type} (names : List (String × α)) : Decoder α
  | _, .str s => names.lookup s
  | _ + 1, .obj [(s, .null)] => names.lookup s
  | _, _ => none

/-- A document under a seal, which stands in a field of its own behind the others. -/
def sealedObj (fields : List (String × Json)) (digest : String) : Json :=
  .obj (fields ++ [("seal", .str digest)])

/-- Decode a document under a seal, given how the rest is made of its fields. The seal may be left
out. -/
def ofSealed {α : Type} (names : List String) (decode : Nat → List Slot → Option α) :
    Decoder (α × String)
  | 0, _ => none
  | room + 1, v => do
    let slots ← fieldsOf (names ++ ["seal"]) v
    let a ← decode room (slots.take names.length)
    return (a, ← (slots[names.length]?.getD .absent).withDefault "" asString)

end Deduction.Json
