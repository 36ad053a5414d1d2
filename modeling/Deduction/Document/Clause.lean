import Deduction.Clause.Strategy
import Deduction.Document.Formula
import Deduction.Tableau.Refusal

/-!
# Clauses and settings as JSON
-/

namespace Deduction

open Json

/-- Literals with a JSON form. -/
class LiteralJson (L : Type) where
  /-- The JSON form of a literal. -/
  toJson : L → Json
  /-- Decode a literal. -/
  ofJson : Decoder L

instance : LiteralJson String where
  toJson := .str
  ofJson _ := asString

instance : LiteralJson Relation where
  toJson := Relation.toJson
  ofJson := Relation.ofJson

variable {L : Type} [LiteralJson L]

/-- The JSON form of an atom. -/
def Atom.toJson (a : Atom L) : Json :=
  .obj [("lit", LiteralJson.toJson a.lit), ("negated", .bool a.negated)]

/-- Decode an atom. -/
def Atom.ofJson : Decoder (Atom L)
  | 0, _ => none
  | room + 1, v => do
    let [lit, negated] ← fieldsOf ["lit", "negated"] v | none
    return ⟨← lit.required (LiteralJson.ofJson room), ← negated.required asBool⟩

/-- The JSON form of a clause. -/
def Clause.toJson (c : Clause L) : Json := .obj [("atoms", ofList Atom.toJson c.atoms)]

/-- Decode a clause. -/
def Clause.ofJson : Decoder (Clause L)
  | 0, _ => none
  | room + 1, v => do
    let [atoms] ← fieldsOf ["atoms"] v | none
    return ⟨← atoms.required (asList Atom.ofJson room)⟩

/-- The JSON form of a clause set. -/
def ClauseSet.toJson (s : ClauseSet L) : Json :=
  .obj [("clauses", ofList Clause.toJson s.clauses)]

/-- Decode a clause set. -/
def ClauseSet.ofJson : Decoder (ClauseSet L)
  | 0, _ => none
  | room + 1, v => do
    let [clauses] ← fieldsOf ["clauses"] v | none
    return ⟨← clauses.required (asList Clause.ofJson room)⟩

/-- Decode a clause form strategy. -/
def Strategy.ofJson : Decoder Strategy :=
  asName [("NAIVE", .naive), ("TSEYTIN", .tseytin), ("OPTIMAL", .optimal)]

/-- The JSON form of a kind of connectedness. -/
def Tableau.Connectedness.toJson : Tableau.Connectedness → Json
  | .unconnected => .str "UNCONNECTED"
  | .weak => .str "WEAKLYCONNECTED"
  | .strong => .str "STRONGLYCONNECTED"

/-- Decode a kind of connectedness. -/
def Tableau.Connectedness.ofJson : Decoder Tableau.Connectedness :=
  asName [("UNCONNECTED", .unconnected), ("WEAKLYCONNECTED", .weak),
    ("STRONGLYCONNECTED", .strong)]

end Deduction
