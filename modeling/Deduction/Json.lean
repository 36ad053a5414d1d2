/-!
# JSON values

A value as it stands in a document: fields keep their order and may repeat.
Numbers are natural numbers or other decimals, which nothing here computes with
and which are therefore kept as text. A document may also hold literals that
stand for no value, a number beyond the range of double precision or a string
with half of a surrogate pair; they do no harm where a value is skipped.
-/

namespace Deduction

/-- A value of a JSON document. -/
inductive Json where
  /-- The literal `null`. -/
  | null
  /-- A truth value. -/
  | bool (b : Bool)
  /-- A number written with digits only. -/
  | nat (n : Nat)
  /-- Any other number, by its text. -/
  | decimal (literal : String)
  /-- A string. -/
  | str (s : String)
  /-- An array. -/
  | arr (items : List Json)
  /-- An object with its fields in document order. -/
  | obj (fields : List (String × Json))
  /-- A literal that stands for no value, or an object with such a key. -/
  | unusable
  deriving Inhabited, Repr

namespace Json

mutual

/-- How deep arrays and objects are nested in a value. -/
def depth : Json → Nat
  | .arr items => depthItems items + 1
  | .obj fields => depthFields fields + 1
  | _ => 0

/-- The greatest depth of an item. -/
def depthItems : List Json → Nat
  | [] => 0
  | v :: vs => max (depth v) (depthItems vs)

/-- The greatest depth of a field. -/
def depthFields : List (String × Json) → Nat
  | [] => 0
  | (_, v) :: fs => max (depth v) (depthFields fs)

end

mutual

/-- Whether every literal in a value stands for something. -/
def usable : Json → Bool
  | .arr items => usableItems items
  | .obj fields => usableFields fields
  | .unusable => false
  | _ => true

/-- Whether every item is usable. -/
def usableItems : List Json → Bool
  | [] => true
  | v :: vs => usable v && usableItems vs

/-- Whether every field is usable. -/
def usableFields : List (String × Json) → Bool
  | [] => true
  | (_, v) :: fs => usable v && usableFields fs

end

/-- The deepest nesting that a document may have. -/
def maxDepth : Nat := 127

end Json

end Deduction
