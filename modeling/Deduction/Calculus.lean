import Deduction.Error
import Deduction.Json.Decode
import Deduction.Json.Read
import Deduction.Json.Write
import Deduction.Seal

/-!
# Calculi

A calculus starts a proof from a text, makes moves in it and says whether it is
finished. To the outside its states, moves and parameters are JSON documents;
states are sealed.
-/

namespace Deduction

/-- A proof calculus and the forms of its documents. -/
structure Calculus where
  /-- The parameters of a new proof. -/
  Params : Type
  /-- The proof states. -/
  State : Type
  /-- The moves. -/
  Move : Type
  /-- The name under which the calculus is asked for. -/
  name : String
  /-- The parameters that count when none are given. -/
  defaults : Params
  /-- Decode parameters. -/
  paramsOfJson : Json.Decoder Params
  /-- The JSON form of a state under a seal. -/
  stateToJson : State → String → Json
  /-- Decode a state and its seal. -/
  stateOfJson : Json.Decoder (State × String)
  /-- Read a move. -/
  moveOfText : String → Except DocumentError Move
  /-- The text over which a state is sealed. -/
  sealText : State → String
  /-- Start a proof. -/
  start : Params → String → Outcome State
  /-- Make a move. -/
  step : State → Move → Outcome State
  /-- Whether a proof is finished. -/
  verdict : State → Outcome Verdict

/-- Read a document with a decoder. -/
def Json.Decoder.ofText {α : Type} (decode : Json.Decoder α) (document : Document)
    (text : String) : Except DocumentError α :=
  match (Json.read text).bind (decode Json.maxDepth) with
  | some a => .ok a
  | none => .error (.unreadable document)

/-- The JSON form of a verdict. -/
def Verdict.toJson (v : Verdict) : Json :=
  .obj [("closed", .bool v.closed), ("msg", .str v.message)]

/-- The outcome of reading a document. -/
def Outcome.ofDocument {α : Type} : Except DocumentError α → Outcome α
  | .ok a => .ok a
  | .error e => .error (.document e)

namespace Calculus

variable (C : Calculus)

/-- The seal of a state. -/
def sealOf (s : C.State) : String := sealFor (C.sealText s)

/-- The document of a state, sealed. -/
def writeState (s : C.State) : Json := C.stateToJson s (C.sealOf s)

/-- Read a state and the seal that it bears, whether or not it is the right one. -/
def decodeState (text : String) : Except DocumentError (C.State × String) :=
  C.stateOfJson.ofText .state text

/-- Read a state under its seal. -/
def readState (text : String) : Outcome C.State := do
  let (s, given) ← Outcome.ofDocument (C.decodeState text)
  if given ≠ C.sealOf s then .error (.document .badSeal)
  return s

/-- Read parameters, or take the defaults. -/
def readParams : Option String → Outcome C.Params
  | some text => .ofDocument (C.paramsOfJson.ofText .params text)
  | none => .ok C.defaults

/-- The first state of a proof. -/
def parse (formula : String) (params : Option String) : Outcome Json := do
  let params ← C.readParams params
  return C.writeState (← C.start params formula)

/-- The state after a move. -/
def applyMove (state move : String) : Outcome Json := do
  let s ← C.readState state
  let m ← Outcome.ofDocument (C.moveOfText move)
  return C.writeState (← C.step s m)

/-- The verdict on a state. -/
def checkClose (state : String) : Outcome Json := do
  let s ← C.readState state
  return (← C.verdict s).toJson

end Calculus

end Deduction
