import Deduction.Document.Clause
import Deduction.Json.Read
import Deduction.Resolution.FirstOrder
import Deduction.Resolution.Propositional

/-!
# Resolution proofs as JSON

A hyper resolution names the atoms of its main premiss as the keys of an object.
A key that is no number is reported as such, unless an earlier part of the move
is at fault already.
-/

namespace Deduction.Resolution

open Json

variable {L : Type} [LiteralJson L]

/-- The fields of a proof. -/
def State.fields (s : State L) : List (String × Json) :=
  [("clauseSet", s.clauses.toJson), ("hiddenClauses", s.hidden.toJson),
    ("highlightSelectable", .bool s.highlight), ("newestNode", ofOption .nat s.newest),
    ("statusMessage", ofOption .str s.status)]

/-- The JSON form of a proof under a seal. -/
def State.toJson (s : State L) (digest : String) : Json := sealedObj s.fields digest

/-- Make a proof of its fields. -/
def State.ofFields (room : Nat) : List Slot → Option (State L)
  | [clauses, hidden, highlight, newest, status] => do
    return ⟨← clauses.required (ClauseSet.ofJson room), ← hidden.required (ClauseSet.ofJson room),
      ← highlight.required asBool, ← newest.optional asWord,
      ← status.withDefault none (asOption asString)⟩
  | _ => none

/-- Decode a proof and its seal. -/
def State.ofJson : Decoder (State L × String) :=
  ofSealed ["clauseSet", "hiddenClauses", "highlightSelectable", "newestNode", "statusMessage"]
    State.ofFields

/-- Decode the parameters of a propositional proof. -/
def Propositional.Params.ofJson : Decoder Propositional.Params
  | 0, _ => none
  | room + 1, v => do
    let [strategy, highlight] ← fieldsOf ["cnfStrategy", "highlightSelectable"] v | none
    let defaults : Propositional.Params := {}
    return ⟨← strategy.withDefault defaults.strategy (Strategy.ofJson room),
      ← highlight.withDefault defaults.highlight asBool⟩

/-- Decode the parameters of a first-order proof. -/
def FirstOrder.Params.ofJson : Decoder FirstOrder.Params
  | 0, _ => none
  | _ + 1, v => do
    let [highlight] ← fieldsOf ["highlightSelectable"] v | none
    let defaults : FirstOrder.Params := {}
    return ⟨← highlight.withDefault defaults.highlight asBool⟩

/-- A side premiss and an atom in it. -/
def sideOfJson : Json → Option (Nat × Nat)
  | .arr [c, a] => do return (← asWord c, ← asWord a)
  | _ => none

/-- Decode an atom map. Its values are looked at first, then its keys in order. -/
def atomMapOfJson : Json → Except DocumentError (KeyMap Nat (Nat × Nat))
  | .obj fields =>
    match fields.mapM fun (k, v) => (sideOfJson v).map fun side => (k, side) with
    | none => .error (.unreadable .move)
    | some entries => do
      let entries ← (KeyMap.ofList entries).entries.mapM fun (k, side) =>
        match Decimal.readWord? k.toList with
        | some n => .ok (n, side)
        | none => .error (.badAtomId k)
      return .ofList entries
  | _ => .error (.unreadable .move)

/-- Decode the fields of a hyper resolution in document order. -/
def hyperOfFields : List (String × Json) → Option Nat → Option (KeyMap Nat (Nat × Nat)) →
    Except DocumentError Move
  | [], some main, some atoms => .ok (.hyper main atoms)
  | [], _, _ => .error (.unreadable .move)
  | (name, v) :: fields, main, atoms =>
    if name = "mainID" then
      match main, asWord v with
      | none, some n => hyperOfFields fields (some n) atoms
      | _, _ => .error (.unreadable .move)
    else if name = "atomMap" then
      match atoms with
      | none => do hyperOfFields fields main (some (← atomMapOfJson v))
      | some _ => .error (.unreadable .move)
    else hyperOfFields fields main atoms

/-- Decode a hyper resolution without its tag. -/
def hyperOfJson : Json → Except DocumentError Move
  | .obj fields => hyperOfFields fields none none
  | .arr (main :: atoms :: rest) => do
    let fields := [("mainID", main), ("atomMap", atoms)]
    let m ← hyperOfFields fields none none
    if rest.isEmpty then return m else .error (.unreadable .move)
  | _ => .error (.unreadable .move)

/-- The tags of moves. -/
def Move.tags : List String :=
  ["res-resolve", "res-resolveunify", "res-resolvecustom", "res-instantiate", "res-hide",
    "res-show", "res-factorize"]

/-- Decode a move of any other kind, given the position of its tag. -/
def Move.ofBody (room : Nat) (body : Json) : Nat → Option Move
  | 0 => do
    let [c1, c2, literal] ← fieldsOf ["c1", "c2", "literal"] body | none
    return .resolve (← c1.required asWord) (← c2.required asWord)
      (← literal.withDefault none (asOption asString))
  | 1 => do
    let [c1, c2, l1, l2] ← fieldsOf ["c1", "c2", "l1", "l2"] body | none
    return .resolveUnify (← c1.required asWord) (← c2.required asWord) (← l1.required asWord)
      (← l2.required asWord)
  | 2 => do
    let [c1, c2, l1, l2, assignment] ← fieldsOf ["c1", "c2", "l1", "l2", "varAssign"] body | none
    return .resolveCustom (← c1.required asWord) (← c2.required asWord) (← l1.required asWord)
      (← l2.required asWord) (← assignment.required (asStringMap room))
  | 3 => do
    let [c1, assignment] ← fieldsOf ["c1", "varAssign"] body | none
    return .instantiate (← c1.required asWord) (← assignment.required (asStringMap room))
  | 4 => do
    let [c1] ← fieldsOf ["c1"] body | none
    return .hide (← c1.required asWord)
  | 5 => do
    asUnit body
    return .reveal
  | 6 => do
    let [c1, atoms] ← fieldsOf ["c1", "atomIDs"] body | none
    return .factorize (← c1.required asWord)
      (← atoms.withDefault [] (asList (fun _ => asWord) room))
  | _ => none

/-- Decode a move. -/
def Move.ofJson (room : Nat) (v : Json) : Except DocumentError Move :=
  if !fits room v then .error (.unreadable .move)
  else
    match tagged "type" v with
    | none => .error (.unreadable .move)
    | some (tag, body) =>
      if tag matches .str "res-hyper" then hyperOfJson body
      else
        match (tagIndex false tags tag).bind (Move.ofBody (room - 1) body) with
        | some m => .ok m
        | none => .error (.unreadable .move)

/-- Read a move. What is wrong inside the value comes before any text behind it. -/
def Move.ofText (text : String) : Except DocumentError Move :=
  match readFront text with
  | none => .error (.unreadable .move)
  | some (v, complete) => do
    let m ← Move.ofJson maxDepth v
    if complete then return m else .error (.unreadable .move)

end Deduction.Resolution
