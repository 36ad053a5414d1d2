import Deduction.Rules
import Deduction.Text.Quoted

/-!
# The sequent calculus

A proof is a tree of sequents with the sequent to prove at its root. A rule
applies to one formula of an open leaf and adds one or two sequents below it. A
leaf with a formula on both sides is closed by adding the same sequent once
more. Equivalences are written as two implications before the proof starts, and
no side of a sequent repeats a formula.
-/

namespace Deduction.SequentProof

/-- The rules for connectives. -/
inductive Rule where
  | notLeft
  | notRight
  | andLeft
  | andRight
  | orLeft
  | orRight
  | impLeft
  | impRight
  deriving DecidableEq, Repr

/-- The rules for quantifiers. -/
inductive QuantifierRule where
  | allLeft
  | allRight
  | exLeft
  | exRight
  deriving DecidableEq, Repr

/-- A move in the sequent calculus. The formula is chosen by its position on the side of the
rule. -/
inductive Move where
  /-- Close a leaf with a formula on both sides. -/
  | ax (id : Nat)
  /-- Decompose a connective. -/
  | connective (rule : Rule) (id index : Nat)
  /-- Instantiate a quantifier; the constant is given under the name of the variable. -/
  | quantifier (rule : QuantifierRule) (id index : Nat) (assignment : KeyMap String String)
  /-- Take the last move back. -/
  | undo
  deriving DecidableEq

/-- The name of a rule for a connective. -/
def Rule.name : Rule → String
  | notLeft => "NotLeft"
  | notRight => "NotRight"
  | andLeft => "AndLeft"
  | andRight => "AndRight"
  | orLeft => "OrLeft"
  | orRight => "OrRight"
  | impLeft => "ImpLeft"
  | impRight => "ImpRight"

/-- The side on which a rule for a connective applies. -/
def Rule.side : Rule → Side
  | notLeft => .left
  | andLeft => .left
  | orLeft => .left
  | impLeft => .left
  | notRight => .right
  | andRight => .right
  | orRight => .right
  | impRight => .right

/-- The sequents that a rule adds for a formula, given the sequent without that formula. -/
def Rule.premisses (rule : Rule) (f : Formula) (s : Sequent) : Option (List Sequent) :=
  match rule, f with
  | notLeft, .not f => some [⟨s.left, s.right ++ [f]⟩]
  | notRight, .not f => some [⟨s.left ++ [f], s.right⟩]
  | andLeft, .and f g => some [⟨s.left ++ [f, g], s.right⟩]
  | andRight, .and f g => some [⟨s.left, s.right ++ [f]⟩, ⟨s.left, s.right ++ [g]⟩]
  | orLeft, .or f g => some [⟨s.left ++ [f], s.right⟩, ⟨s.left ++ [g], s.right⟩]
  | orRight, .or f g => some [⟨s.left, s.right ++ [f, g]⟩]
  | impLeft, .imp f g => some [⟨s.left, s.right ++ [f]⟩, ⟨s.left ++ [g], s.right⟩]
  | impRight, .imp f g => some [⟨s.left ++ [f], s.right ++ [g]⟩]
  | _, _ => none

namespace QuantifierRule

/-- The name of a rule for a quantifier. -/
def name : QuantifierRule → String
  | allLeft => "AllLeft"
  | allRight => "AllRight"
  | exLeft => "ExLeft"
  | exRight => "ExRight"

/-- The side on which a rule for a quantifier applies. -/
def side : QuantifierRule → Side
  | allLeft => .left
  | allRight => .right
  | exLeft => .left
  | exRight => .right

/-- Whether a rule is for universal quantifiers. -/
def universal : QuantifierRule → Bool
  | allLeft => true
  | allRight => true
  | exLeft => false
  | exRight => false

/-- Whether the constant must be new and the formula is used up. -/
def eigenvariable : QuantifierRule → Bool
  | allLeft => false
  | allRight => true
  | exLeft => true
  | exRight => false

/-- The variable and the body of the quantifier that a rule applies to. -/
def matches? (rule : QuantifierRule) (f : Formula) : Option (String × Formula) :=
  match f with
  | .all x body => if rule.universal then some (x, body) else none
  | .ex x body => if rule.universal then none else some (x, body)
  | _ => none

end QuantifierRule

/-- What a node says. -/
structure Label where
  /-- The sequent. -/
  sequent : Sequent
  /-- The move that added the node. -/
  lastMove : Option Move
  deriving DecidableEq

/-- A proof in the sequent calculus. -/
structure State where
  /-- The tree. -/
  tree : Tree Label
  /-- The moves made so far. -/
  history : List Move
  /-- Whether the user is shown the applicable rules only. -/
  onlyApplicable : Bool
  deriving DecidableEq

/-- The parameters of a proof. -/
structure Params where
  /-- Whether the user is shown the applicable rules only. -/
  onlyApplicable : Bool := false
  deriving DecidableEq, Repr

/-- Refuse a move. -/
def refuse {α : Type} (cause : Refusal) : Outcome α := .error (.move (.sequent cause))

/-- Refuse what is no name of a constant: it starts with a lower-case letter and goes on with
letters, digits and underscores. -/
def checkConstant (name : String) : Outcome Unit :=
  match name.toList with
  | [] => refuse .emptyConstant
  | c :: cs =>
    if !c.isLower then refuse (.notLowercase name)
    else
      match (c :: cs).findIdx? fun c => !Grammar.isIdentifierChar c with
      | some position => refuse (.badCharacter position name)
      | none => return ()

namespace State

/-- The proof of a sequent before the first move. -/
def initial (s : Sequent) (onlyApplicable : Bool) : State :=
  ⟨Tree.single ⟨s.splitIff.distinct, none⟩, [], onlyApplicable⟩

/-- The same proof before the first move. -/
def fresh (s : State) : Outcome State := do
  let n ← Outcome.ofReference (s.tree.get? Tree.root)
  return initial n.label.sequent s.onlyApplicable

/-- The sequent of the open leaf with an id. -/
def leaf (s : State) (id : Nat) : Outcome Sequent := do
  let n ← Outcome.ofLookup (.sequent (.noNode id)) (s.tree.named? id)
  if !n.isLeaf then refuse (.notLeaf n.label.sequent)
  if n.isClosed then refuse (.alreadyClosed n.label.sequent)
  return n.label.sequent

/-- The sequent of an open leaf and the formula at a position of a side. -/
def chosen (s : State) (id : Nat) (side : Side) (index : Nat) : Outcome (Sequent × Formula) := do
  let sequent ← s.leaf id
  match (sequent.onSide side)[index]? with
  | some f => return (sequent, f)
  | none => refuse (.noFormula index side sequent)

/-- Add sequents below a leaf and keep the move. -/
def grow (s : State) (id : Nat) (sequents : List Sequent) (m : Move) : State :=
  { s with
    tree := sequents.foldl (fun t q => Tree.grow t id ⟨q.distinct, some m⟩) s.tree
    history := s.history ++ [m] }

/-- Close a leaf with a formula on both sides: its sequent is added below it, and what the last id
then names is closed. -/
def ax (s : State) (id : Nat) : Outcome State := do
  let sequent ← s.leaf id
  if !sequent.left.any fun f => sequent.right.contains f then
    refuse (.noSharedFormula sequent)
  let s' := s.grow id [sequent] (.ax id)
  let tree ← Outcome.ofReference (s'.tree.lastId?.bind (Tree.closeLeaf s'.tree))
  return { s' with tree := tree }

/-- Decompose a connective. -/
def connective (s : State) (rule : Rule) (id index : Nat) : Outcome State := do
  let (sequent, f) ← s.chosen id rule.side index
  match rule.premisses f (sequent.eraseAt index rule.side) with
  | some sequents => return s.grow id sequents (.connective rule id index)
  | none => refuse (.wrongConnective rule.name f)

/-- Instantiate a quantifier with a constant. -/
def quantifier (s : State) (rule : QuantifierRule) (id index : Nat)
    (assignment : KeyMap String String) : Outcome State := do
  let (sequent, f) ← s.chosen id rule.side index
  match rule.matches? f with
  | none => refuse (.wrongQuantifier rule.name rule.universal)
  | some (x, body) =>
    match assignment.get? x with
    | none => refuse (.noConstant x)
    | some name =>
      checkConstant name
      let used := sequent.formulas.flatMap Formula.symbols
      if rule.eigenvariable && used.contains name then refuse (.usedConstant name)
      let kept := if rule.eigenvariable then sequent.eraseAt index rule.side else sequent
      let added := kept.add (Formula.instantiateBound x body (.const name)) rule.side
      return s.grow id [added] (.quantifier rule id index assignment)

/-- The proof before the first move and the moves without the last one. -/
def earlier (s : State) : Outcome (State × List Move) := do
  if s.history.isEmpty then refuse .nothingToUndo
  return (← s.fresh, s.history.dropLast)

/-- Whether the proof is finished. -/
def verdict (s : State) (logic : Logic) : Outcome Verdict :=
  let word := match logic with
    | .propositional => "propositional"
    | .firstOrder => "first-order"
  Verdict.ofRoot s.tree ("The proof is closed and valid in " ++ word ++ " sequent calculus")
    "The proof is not closed"

end State

/-- Start the proof of a sequent. -/
def start (logic : Logic) (params : Params) (text : String) : Outcome State := do
  let sequent ← Outcome.ofText (Sequent.parse logic text)
  return .initial sequent params.onlyApplicable

/-- Make a move that takes none back; quantifier rules are there in first-order logic only. -/
def advance (logic : Logic) (s : State) : Move → Outcome State
  | .ax id => s.ax id
  | .connective rule id index => s.connective rule id index
  | .quantifier rule id index assignment =>
    match logic with
    | .propositional => refuse (.unavailable rule.name)
    | .firstOrder => s.quantifier rule id index assignment
  | .undo => .error .brokenState

/-- The rules of the calculus. -/
def rules (logic : Logic) : Rules State Move :=
  ⟨advance logic, .undo, State.history, State.earlier⟩

/-- Make a move. -/
def step (logic : Logic) (s : State) (m : Move) : Outcome State := (rules logic).step s m

/-- The text of a move in sealed texts. -/
def Move.sealText : Move → String
  | ax id => "Ax \x7b node: " ++ Decimal.render id ++ " \x7d"
  | connective rule id index =>
    rule.name ++ "(RuleTarget \x7b node: " ++ Decimal.render id ++ ", list_index: " ++
      Decimal.render index ++ " \x7d)"
  | quantifier rule id index assignment =>
    rule.name ++ "(Instantiation \x7b node: " ++ Decimal.render id ++ ", list_index: " ++
      Decimal.render index ++ ", var_assign: " ++ Quoted.map assignment ++ " \x7d)"
  | undo => "Undo"

/-- The text of a node in sealed texts. -/
def nodeSealText (n : Node Label) : String :=
  "(" ++ Quoted.option Quoted.id n.parent ++ ";" ++ n.label.sequent.render ++ ";" ++
    Quoted.bool n.isClosed ++ ";" ++ Quoted.option Move.sealText n.label.lastMove ++ ";" ++
    Quoted.list Quoted.id n.children ++ ")"

/-- The text over which a proof is sealed. -/
def State.sealText (s : State) : String :=
  "sequentstate|" ++ Quoted.bool s.onlyApplicable ++ "|[" ++
    String.join (s.tree.items.map nodeSealText) ++ "]|" ++ Quoted.list Move.sealText s.history

end Deduction.SequentProof
