import Deduction.Unify
import Deduction.Text.Decimal

/-!
# Refused tableau moves

The reasons for which a move in a clausal tableau is refused. Nodes are named by
their numbers, atoms by their texts.
-/

namespace Deduction.Tableau

/-- How the clauses of a tableau must be connected to the branch they extend. -/
inductive Connectedness where
  /-- They need not be. -/
  | unconnected
  /-- An atom of the clause can close against some node of the branch. -/
  | weak
  /-- An atom of the clause can close against the leaf that is expanded. -/
  | strong
  deriving DecidableEq, Repr, Inhabited

/-- The words for a kind of connectedness. -/
def Connectedness.describe : Connectedness → String
  | unconnected => "unconnected"
  | weak => "weakly connected"
  | strong => "strongly connected"

/-- Why a move is refused. -/
inductive Refusal where
  /-- No node has the number. -/
  | noNode (id : Nat)
  /-- No clause has the number. -/
  | noClause (id : Nat)
  /-- The node has children. -/
  | notLeaf (id : Nat)
  /-- The branch is closed already. -/
  | alreadyClosed (id : Nat)
  /-- An empty clause leaves no branch to go on with. -/
  | emptyClause
  /-- An atom of the clause would stand twice on a branch. -/
  | irregular (atom : String)
  /-- The clause is not connected to the branch. -/
  | disconnected (kind : Connectedness)
  /-- The second node does not stand above the leaf. -/
  | notAncestor (id leaf : Nat)
  /-- One of the nodes is the root, which has no atom. -/
  | rootNode
  /-- The atoms have the same sign. -/
  | sameSign (left right : String)
  /-- The atoms are different literals. -/
  | notComplementary (left right : String)
  /-- A substitution must be given. -/
  | substitutionNeeded
  /-- The literals have no common instance. -/
  | notUnifiable (left right : String) (cause : UnifyError)
  /-- The proof does not keep its moves. -/
  | noBacktracking
  /-- There is no move to take back. -/
  | nothingToUndo
  deriving DecidableEq, Repr

/-- The wording of a refusal. -/
def Refusal.message : Refusal → String
  | noNode id => "Node with ID " ++ Decimal.render id ++ " does not exist"
  | noClause id => "Clause with ID " ++ Decimal.render id ++ " does not exist"
  | notLeaf id => "Node '" ++ Decimal.render id ++ "' is not a leaf"
  | alreadyClosed id => "Node '" ++ Decimal.render id ++ "' is already closed"
  | emptyClause => "Cannot expand an empty clause"
  | irregular atom =>
    "Expanding this clause would introduce a duplicate node '" ++ atom ++
      "' on the branch, making the tree irregular"
  | disconnected kind =>
    "Expanding this clause would violate the " ++ kind.describe ++ " property"
  | notAncestor id leaf =>
    "Node '" ++ Decimal.render id ++ "' is not an ancestor of leaf '" ++ Decimal.render leaf ++ "'"
  | rootNode => "Cannot close a branch with the root node"
  | sameSign left right =>
    "Nodes '" ++ left ++ "' and '" ++ right ++ "' do not have opposite polarity"
  | notComplementary left right =>
    "Nodes '" ++ left ++ "' and '" ++ right ++ "' are not complementary"
  | substitutionNeeded => "Please specify a variable instantiation"
  | notUnifiable left right cause =>
    "Could not unify '" ++ left ++ "' and '" ++ right ++ "': " ++ cause.message
  | noBacktracking => "Backtracking is not enabled for this proof"
  | nothingToUndo => "Can't undo in initial state"

end Deduction.Tableau
