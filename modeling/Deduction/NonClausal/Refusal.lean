import Deduction.Formula
import Deduction.Text.Decimal
import Deduction.Unify

/-!
# Refused moves of non-clausal tableaux

The reasons for which a move in a non-clausal tableau is refused. Nodes are named
by their formulas.
-/

namespace Deduction.NonClausal

/-- Why a move is refused. -/
inductive Refusal where
  /-- No node has the number. -/
  | noNode (id : Nat)
  /-- The formula is not a conjunction. -/
  | notAnd (f : Formula)
  /-- The formula is not a disjunction. -/
  | notOr (f : Formula)
  /-- The formula is not universally quantified. -/
  | notAll (f : Formula)
  /-- The formula is not existentially quantified. -/
  | notEx (f : Formula)
  /-- All branches through the node are closed. -/
  | noOpenLeaves (f : Formula)
  /-- The node has children. -/
  | notLeaf (f : Formula)
  /-- The branch is closed already. -/
  | alreadyClosed (f : Formula)
  /-- The second node does not stand above the leaf. -/
  | notAncestor (f leaf : Formula)
  /-- The leaf is not a relation. -/
  | leafNotRelation (f : Formula)
  /-- The leaf is not a negated relation. -/
  | leafNotNegatedRelation (f : Formula)
  /-- The second node is not a relation. -/
  | partnerNotRelation (f : Formula)
  /-- The second node is not a negated relation. -/
  | partnerNotNegatedRelation (f : Formula)
  /-- Neither node is a negation. -/
  | noneNegated (leaf partner : Formula)
  /-- The relations have no common instance. -/
  | notUnifiable (left right : Relation) (cause : UnifyError)
  /-- The substitution does not make the relations equal. -/
  | notEqual (left right : Relation)
  /-- The proof does not keep its moves. -/
  | noBacktracking
  deriving DecidableEq, Repr

/-- The wording of a refusal. -/
def Refusal.message : Refusal → String
  | noNode id => "Node with ID " ++ Decimal.render id ++ " does not exist"
  | notAnd f => "Outermost logic operator of '" ++ f.render ++ "' is not AND"
  | notOr f => "Outermost logic operator of '" ++ f.render ++ "' is not OR"
  | notAll f => "Outermost logic operator of '" ++ f.render ++ "' is not a universal quantifier"
  | notEx f => "Outermost logic operator of '" ++ f.render ++ "' is not an existential quantifier"
  | noOpenLeaves f => "Node '" ++ f.render ++ "' has no open leaves below it"
  | notLeaf f => "Node '" ++ f.render ++ "' is not a leaf"
  | alreadyClosed f => "Leaf '" ++ f.render ++ "' is already closed, no need to close again"
  | notAncestor f leaf =>
    "Node '" ++ f.render ++ "' is not an ancestor of leaf '" ++ leaf.render ++ "'"
  | leafNotRelation f => "Leaf formula '" ++ f.render ++ "' is not a relation"
  | leafNotNegatedRelation f => "Leaf formula '" ++ f.render ++ "' is not a negated relation"
  | partnerNotRelation f => "Close node formula '" ++ f.render ++ "' is not a relation"
  | partnerNotNegatedRelation f =>
    "Close node formula '" ++ f.render ++ "' is not a negated relation"
  | noneNegated leaf partner =>
    "Neither '" ++ leaf.render ++ "' nor '" ++ partner.render ++ "' are negated"
  | notUnifiable left right cause =>
    "Cannot unify '" ++ left.render ++ "' and '" ++ right.render ++ "': " ++ cause.message
  | notEqual left right =>
    "Relations '" ++ left.render ++ "' and '" ++ right.render ++
      "' are not equal after variable instantiation"
  | noBacktracking => "Backtracking is not enabled for this proof"

end Deduction.NonClausal
