import Deduction.Catalogue
import Deduction.Json.Sorted

/-!
# Requests

A request is a line of JSON that names a calculus and an action. States, moves
and parameters may be given as values or as JSON text. The answer tells whether
the request was accepted, and the result or the error.
-/

namespace Deduction

/-- What is asked of a calculus; documents are given as JSON text. -/
inductive Action where
  /-- Start a proof. -/
  | parse (formula : String) (params : Option String)
  /-- Make a move. -/
  | move (state move : String)
  /-- Check whether the proof is finished. -/
  | close (state : String)
  deriving DecidableEq, Repr

/-- A request. -/
structure Request where
  /-- The name of the calculus. -/
  calculus : String
  /-- What is asked of it. -/
  action : Action
  deriving DecidableEq, Repr

/-- The text of an embedded document: a string is that text already. -/
def Json.embedded : Json → String
  | .str text => text
  | v => v.sorted.render

open Json

/-- The tags of actions. -/
def Action.tags : List String := ["parse", "move", "close"]

/-- Decode an action, given the position of its tag. -/
def Action.ofBody (body : Json) : Nat → Option Action
  | 0 => do
    let [formula, params] ← fieldsOf ["formula", "params"] body | none
    let params ← params.withDefault none (asOption some)
    return .parse (← formula.required asString) (params.map embedded)
  | 1 => do
    let [state, step] ← fieldsOf ["state", "move"] body | none
    return .move (← state.required (some ∘ embedded)) (← step.required (some ∘ embedded))
  | _ => do
    let [state] ← fieldsOf ["state"] body | none
    return .close (← state.required (some ∘ embedded))

namespace Request

/-- Decode a request. -/
def ofJson : Decoder Request
  | room, .obj fields => do
    if !fits room (.obj fields) then none
    let [calculus] ← fieldsOf ["calculus"] (.obj fields) | none
    let (tag, body) ← tagged "action" (.obj fields)
    let action ← (tagIndex true Action.tags tag).bind (Action.ofBody body)
    return ⟨← calculus.required asString, action⟩
  | _, _ => none

/-- Carry out a request. -/
def perform (r : Request) : Outcome Json :=
  match r.action with
  | .parse formula params => Deduction.parse r.calculus formula params
  | .move state move => applyMove r.calculus state move
  | .close state => checkClose r.calculus state

/-- Read a line and carry it out. A result that nests too deep to be read again is refused. -/
def handle (line : String) : Outcome Json := do
  let request ← Outcome.ofDocument (Request.ofJson.ofText .request line)
  let result ← request.perform
  if result.depth ≤ maxDepth then return result.sorted
  else .error (.document (.unreadable .result))

/-- The answer to a request. -/
def respond : Outcome Json → Json
  | .ok result => .obj [("ok", .bool true), ("result", result)]
  | .error e =>
    .obj [("error", .obj [("kind", .str e.kind), ("message", .str e.message)]),
      ("ok", .bool false)]

end Request

end Deduction
