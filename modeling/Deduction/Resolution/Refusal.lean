import Deduction.Unify
import Deduction.Text.Decimal

/-!
# Refused resolution moves

The reasons for which a move in a resolution proof is refused. Clauses and atoms
are named by their texts.
-/

namespace Deduction.Resolution

/-- Why a move is refused. -/
inductive Refusal where
  /-- No clause has the number. -/
  | noClause (id : Nat)
  /-- No atom of the clause has the number. -/
  | noAtom (id : Nat) (clause : String)
  /-- A clause cannot be resolved with itself. -/
  | sameClause
  /-- The literal does not occur with both signs. -/
  | notOpposed (first second literal : String)
  /-- No atom occurs with both signs. -/
  | noComplement (first second : String)
  /-- No two atoms of opposite sign can be made equal. -/
  | noUnifiablePair (first second : String)
  /-- The chosen atoms have the same sign. -/
  | sameSign (left right : String)
  /-- The chosen literals have no common instance. -/
  | notUnifiable (left right : Relation) (cause : UnifyError)
  /-- The given substitution does not make the chosen literals equal. -/
  | notUnified (left right : String)
  /-- A hyper resolution without side premisses. -/
  | noSidePremisses
  /-- The side premisses do not fit the main premiss together. -/
  | premissesNotUnifiable (main : String) (cause : UnifyError)
  /-- A side premiss has a negated atom. -/
  | sideNotPositive (clause : String)
  /-- A chosen atom of the main premiss is not negated. -/
  | mainNotNegative (atom clause : String)
  /-- A chosen atom of a side premiss is another literal than that of the main premiss. -/
  | literalMismatch (main side : String)
  /-- A negated atom is left after hyper resolution. -/
  | resultNotPositive (clause : String)
  /-- No atom of the clause is repeated. -/
  | nothingToFactorize
  /-- Fewer than two atoms are chosen. -/
  | tooFewAtoms
  /-- An atom is chosen twice in a row. -/
  | repeatedAtom
  /-- The chosen atoms have different signs. -/
  | differentSigns (left right : String)
  /-- The move belongs to first-order resolution. -/
  | unavailable
  deriving DecidableEq, Repr

/-- The wording of a refusal. -/
def Refusal.message : Refusal → String
  | noClause id => "There is no clause with id " ++ Decimal.render id
  | noAtom id clause =>
    "There is no atom with id " ++ Decimal.render id ++ " in clause '" ++ clause ++ "'"
  | sameClause => "Both ids refer to the same clause"
  | notOpposed first second literal =>
    "Clauses '" ++ first ++ "' and '" ++ second ++ "' do not contain '" ++ literal ++
      "' in opposite polarity"
  | noComplement first second =>
    "Clauses '" ++ first ++ "' and '" ++ second ++ "' do not contain complementary atoms"
  | noUnifiablePair first second =>
    "Clauses '" ++ first ++ "' and '" ++ second ++ "' contain no unifiable complementary atoms"
  | sameSign left right =>
    "Atoms '" ++ left ++ "' and '" ++ right ++ "' do not have opposite polarity"
  | notUnifiable left right cause =>
    "Could not unify '" ++ left.render ++ "' and '" ++ right.render ++ "': " ++ cause.message
  | notUnified left right =>
    "The unifier does not make '" ++ left ++ "' and '" ++ right ++ "' equal"
  | noSidePremisses => "Please select side premisses for hyper resolution"
  | premissesNotUnifiable main cause =>
    "Could not unify main premiss '" ++ main ++ "' with its side premisses: " ++ cause.message
  | sideNotPositive clause => "Side premiss '" ++ clause ++ "' is not positive"
  | mainNotNegative atom clause =>
    "Literal '" ++ atom ++ "' in main premiss '" ++ clause ++ "' is not negative"
  | literalMismatch main side => "Literals '" ++ main ++ "' and '" ++ side ++ "' do not match"
  | resultNotPositive clause => "Resulting clause '" ++ clause ++ "' is not positive"
  | nothingToFactorize => "Nothing to factorize"
  | tooFewAtoms => "Please select more than 1 atom to factorize"
  | repeatedAtom => "Cannot unify an atom with itself"
  | differentSigns left right =>
    "Atoms '" ++ left ++ "' and '" ++ right ++ "' do not have the same polarity"
  | unavailable => "Unknown move type"

end Deduction.Resolution
