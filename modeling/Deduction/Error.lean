import Deduction.SequentProof.Refusal
import Deduction.Grammar.Text
import Deduction.NonClausal.Refusal
import Deduction.Resolution.Refusal
import Deduction.Tableau.Refusal

/-!
# Errors

Every way in which a request can fail, by cause. `Error.kind` and
`Error.message` give the words in which it is reported.
-/

namespace Deduction

/-- The documents that are exchanged as JSON. -/
inductive Document where
  /-- A proof state. -/
  | state
  /-- A move. -/
  | move
  /-- The parameters of a new proof. -/
  | params
  /-- A request. -/
  | request
  /-- The result of a request. -/
  | result
  deriving DecidableEq, Repr

/-- The word for a document. -/
def Document.describe : Document → String
  | state => "state"
  | move => "move"
  | params => "params"
  | request => "request"
  | result => "result"

/-- Why a document is refused. -/
inductive DocumentError where
  /-- The document is not JSON of the expected form. -/
  | unreadable (document : Document)
  /-- The seal does not belong to the state. -/
  | badSeal
  /-- An atom of a hyper resolution is not named by a number. -/
  | badAtomId (key : String)
  /-- No calculus has the name. -/
  | unknownCalculus (id : String)
  deriving DecidableEq, Repr

/-- The wording of a refused document. For one that is not of the expected form it says which
document that is; the place and the reason, which a report gives behind a colon, are left out. -/
def DocumentError.message : DocumentError → String
  | unreadable document => "Could not parse JSON " ++ document.describe
  | badSeal =>
    "Could not parse JSON state: " ++
      "Invalid tamper protection seal, state object appears to have been modified"
  | badAtomId key => "Could not parse JSON move: invalid atom id '" ++ key ++ "'"
  | unknownCalculus id => "Unknown calculus '" ++ id ++ "'"

/-- Why a move is refused, in any of the calculi. -/
inductive IllegalMove where
  /-- A resolution move. -/
  | resolution (cause : Resolution.Refusal)
  /-- A move in a clausal tableau. -/
  | tableau (cause : Tableau.Refusal)
  /-- A move in a non-clausal tableau. -/
  | nonClausal (cause : NonClausal.Refusal)
  /-- A move in the sequent calculus. -/
  | sequent (cause : SequentProof.Refusal)
  deriving DecidableEq, Repr

/-- The wording of a refused move. -/
def IllegalMove.message : IllegalMove → String
  | resolution cause => cause.message
  | tableau cause => cause.message
  | nonClausal cause => cause.message
  | sequent cause => cause.message

/-- Everything that can go wrong with a request. -/
inductive Error where
  /-- A text is not what it should be. -/
  | text (cause : TextError)
  /-- A formula has no clause form of the wanted kind. -/
  | conversion (cause : ConversionError)
  /-- Terms have no common instance. -/
  | unification (cause : UnifyError)
  /-- A move does not fit the state. -/
  | move (cause : IllegalMove)
  /-- A document is refused. -/
  | document (cause : DocumentError)
  /-- A state from outside refers to nodes that it does not hold, or in a circle. -/
  | brokenState
  /-- A counter of a state from outside cannot count any further. -/
  | counterFull
  deriving DecidableEq, Repr

namespace Error

/-- The word for the kind of an error. -/
def kind : Error → String
  | text _ => "InvalidFormulaFormat"
  | conversion _ => "FormulaConversionException"
  | unification _ => "UnificationImpossible"
  | move _ => "IllegalMove"
  | document _ => "JsonParseException"
  | brokenState => "IllegalMove"
  | counterFull => "IllegalMove"

/-- The wording of an error. For a state that breaks a computation off it says only that; the
reason, which a report gives behind a colon, is left out. -/
def message : Error → String
  | text cause => cause.message
  | conversion cause => cause.message
  | unification cause => cause.message
  | move cause => cause.message
  | document cause => cause.message
  | brokenState => "Internal error while handling request"
  | counterFull => "Internal error while handling request"

end Error

/-- A computation that can fail. -/
abbrev Outcome (α : Type) := Except Error α

namespace Outcome

variable {α : Type}

/-- The outcome of reading a text. -/
def ofText : Except TextError α → Outcome α
  | .ok a => .ok a
  | .error e => .error (.text e)

/-- The outcome of a conversion. -/
def ofConversion : Except ConversionError α → Outcome α
  | .ok a => .ok a
  | .error e => .error (.conversion e)

/-- The outcome of following references in a state. -/
def ofReference : Option α → Outcome α
  | some a => .ok a
  | none => .error .brokenState

/-- The outcome of looking up what a move names. -/
def ofLookup (cause : IllegalMove) : Option α → Outcome α
  | some a => .ok a
  | none => .error (.move cause)

/-- The outcome of setting a counter, which holds numbers of 64 bits. -/
def ofCount (n : Nat) : Outcome Nat := if n < UInt64.size then .ok n else .error .counterFull

end Outcome

/-- The clauses of a text in clause notation, or of a propositional formula. -/
def ClauseSet.ofText (strategy : Strategy) (text : String) : Outcome (ClauseSet String) :=
  if Grammar.isClauseText text.toList then .ofText (ClauseSet.parse text)
  else do
    let f ← Outcome.ofText (Formula.parse .propositional text)
    .ofConversion (strategy.clauses f)

/-- The clauses of a first-order formula. -/
def ClauseSet.ofFirstOrderText (text : String) : Outcome (ClauseSet Relation) := do
  let f ← Outcome.ofText (Formula.parse .firstOrder text)
  .ofConversion (ClauseSet.ofFirstOrder f)

/-- Whether a proof is finished, in words. -/
structure Verdict where
  /-- Whether the proof is finished. -/
  closed : Bool
  /-- The verdict in words. -/
  message : String
  deriving DecidableEq, Repr

end Deduction
