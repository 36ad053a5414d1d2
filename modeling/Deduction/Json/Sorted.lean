import Deduction.Json
import Deduction.KeyMap

/-!
# Objects in key order

A value that is passed on lists the fields of its objects in key order; of
fields with equal names the last one counts.
-/

namespace Deduction.Json

mutual

/-- The value with the fields of all its objects in key order. -/
def sorted : Json → Json
  | .arr items => .arr (sortedItems items)
  | .obj fields => .obj (KeyMap.ofList (sortedFields fields)).entries
  | v => v

/-- The items of an array, each with its fields in key order. -/
def sortedItems : List Json → List Json
  | [] => []
  | v :: vs => sorted v :: sortedItems vs

/-- The fields of an object, each value with its own fields in key order. -/
def sortedFields : List (String × Json) → List (String × Json)
  | [] => []
  | (k, v) :: fs => (k, sorted v) :: sortedFields fs

end

end Deduction.Json
