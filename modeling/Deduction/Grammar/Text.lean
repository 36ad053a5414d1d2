import Deduction.Clause.Strategy
import Deduction.Grammar.Clause
import Deduction.Grammar.Formula
import Deduction.Sequent

/-!
# Reading whole texts

A text is read from its first to its last character; only blanks may be left at
its end. The first place where no reading can go on is reported with its offset
in bytes of UTF-8. First-order formulas must be closed.
-/

namespace Deduction

/-- Why a text is refused. -/
inductive TextError where
  /-- The text cannot be read on at a place: what is left there, and the whole text. -/
  | unexpected (rest text : String)
  /-- A variable of a first-order formula is not bound by a quantifier. -/
  | unbound (x : String) (f : Formula)
  /-- A formula stands where a propositional variable is needed. -/
  | notVariable (f : Formula)
  /-- The text assigned to a variable is not a term. -/
  | badTerm (text : String) (cause : TextError)
  deriving DecidableEq, Repr

namespace TextError

/-- The number of characters that are quoted from the place of an error. -/
def quoted : Nat := 16

/-- The wording of a refusal. -/
def message : TextError → String
  | unexpected rest text =>
    let found :=
      if rest.isEmpty then "end of input"
      else "'" ++ String.ofList (rest.toList.take quoted) ++ "'"
    let position := text.utf8ByteSize - rest.utf8ByteSize
    "Unexpected " ++ found ++ " at position " ++ Decimal.render position ++ " in '" ++ text ++ "'"
  | unbound x f => "Unbound variable '" ++ x ++ "' in '" ++ f.render ++ "'"
  | notVariable f => "'" ++ f.render ++ "' is not a propositional variable"
  | badTerm text cause => "Could not parse term '" ++ text ++ "': " ++ cause.message

end TextError

namespace Grammar

open Scan

/-- Read a whole text with a scanner. -/
def whole {α : Type} (text : String)
    (scan : List Char → Except (List Char) (α × List Char)) : Except TextError α :=
  match finish (scan text.toList) with
  | .ok x => .ok x
  | .error rest => .error (.unexpected (String.ofList rest) text)

/-- Refuse a formula with free variables. -/
def closed (f : Formula) : Except TextError Formula :=
  match f.freeVars with
  | [] => .ok f
  | x :: _ => .error (.unbound x f)

end Grammar

/-- Read a term. -/
def Term.parse (text : String) : Except TextError Term :=
  Grammar.whole text fun cs => (Grammar.term cs).plain

/-- Read a relation. -/
def Relation.parse (text : String) : Except TextError Relation :=
  Grammar.whole text fun cs => (Grammar.relation cs).plain

/-- Read a formula, which in first-order logic must be closed. -/
def Formula.parse (logic : Logic) (text : String) : Except TextError Formula := do
  let f ← Grammar.whole text fun cs => (Grammar.equivalence logic cs).plain
  match logic with
  | .propositional => return f
  | .firstOrder => Grammar.closed f

/-- Read a propositional variable. -/
def parseVariable (text : String) : Except TextError String := do
  match ← Formula.parse .propositional text with
  | .var name => return name
  | f => .error (.notVariable f)

/-- Read the terms of an assignment in the order of the variables. -/
def Substitution.parse (assignment : KeyMap String String) : Except TextError Substitution := do
  let entries ← assignment.entries.mapM fun (x, text) =>
    match Term.parse text with
    | .ok t => .ok (x, t)
    | .error e => .error (.badTerm text e)
  return .ofList entries

/-- Read clauses in clause notation. -/
def ClauseSet.parse (text : String) : Except TextError (ClauseSet String) := do
  let clauses ← Grammar.whole text fun cs => (Grammar.clauses cs).plain
  return ⟨clauses⟩

namespace Sequent

/-- Whether a text has a turnstile. -/
def hasTurnstile : List Char → Bool
  | '|' :: '-' :: _ => true
  | _ :: cs => hasTurnstile cs
  | [] => false

/-- Read formulas with commas between them. -/
def scanFormulas (logic : Logic) (cs : List Char) : List Formula × Scan.Remainder cs :=
  Scan.list0 (Scan.token ',' []) (Grammar.equivalence logic) cs

/-- Read two lists of formulas with a turnstile between them. -/
def scan (logic : Logic) (cs : List Char) : Except (List Char) (Sequent × List Char) :=
  let (left, ⟨r, _⟩) := scanFormulas logic cs
  match Scan.token '|' ['-'] r with
  | .error e => .error e
  | .ok ⟨r₁, _⟩ =>
    let (right, ⟨r₂, _⟩) := scanFormulas logic r₁
    .ok (⟨left, right⟩, r₂)

/-- Read `left |- right`, or a list of formulas for the right side alone. -/
def parse (logic : Logic) (text : String) : Except TextError Sequent := do
  let sequent ← Grammar.whole text fun cs =>
    if hasTurnstile text.toList then scan logic cs
    else
      let (right, ⟨r, _⟩) := scanFormulas logic cs
      .ok (⟨[], right⟩, r)
  match logic with
  | .propositional => return sequent
  | .firstOrder =>
    let _ ← (sequent.left ++ sequent.right).mapM Grammar.closed
    return sequent

end Sequent

end Deduction
