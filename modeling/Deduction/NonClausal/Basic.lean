import Deduction.Formula.NegationNormal
import Deduction.Rules
import Deduction.Text.Quoted

/-!
# Non-clausal tableaux

A non-clausal tableau decomposes a closed first-order formula in negation normal
form. A rule applies to the formula of a node and extends every open branch
through it: conjunctions add both parts one below the other, disjunctions split
the branch, universal quantifiers add an instance with a new variable and
existential ones an instance with a Skolem term. A leaf is closed against a
complementary relation above it after the whole tree has been instantiated.
-/

namespace Deduction.NonClausal

/-- A move in a non-clausal tableau. -/
inductive Move where
  /-- Decompose a conjunction. -/
  | alpha (id : Nat)
  /-- Decompose a disjunction. -/
  | beta (id : Nat)
  /-- Instantiate a universal quantifier. -/
  | gamma (id : Nat)
  /-- Instantiate an existential quantifier. -/
  | delta (id : Nat)
  /-- Close a leaf against a node above it, under a substitution if one is given. -/
  | close (leaf partner : Nat) (assignment : Option (KeyMap String String))
  /-- Take the last move back. -/
  | undo
  deriving DecidableEq

/-- What a node says. -/
structure Label where
  /-- The formula. -/
  formula : Formula
  /-- The node against which a leaf is closed. -/
  closeRef : Option Nat
  deriving DecidableEq, Repr

/-- A non-clausal tableau. -/
structure State where
  /-- The formula to refute. -/
  formula : Formula
  /-- Whether moves are kept and can be taken back. -/
  backtracking : Bool
  /-- The tree. -/
  tree : Tree Label
  /-- The moves made so far. -/
  history : List Move
  /-- The number of the last variable handed out. -/
  variableCount : Nat
  /-- The number of the last Skolem symbol handed out. -/
  symbolCount : Nat
  deriving DecidableEq

/-- The parameters of a proof. -/
structure Params where
  /-- Whether moves are kept and can be taken back. -/
  backtracking : Bool := true
  deriving DecidableEq, Repr

/-- Refuse a move. -/
def refuse {α : Type} (cause : Refusal) : Outcome α := .error (.move (.nonClausal cause))

/-- The first number from `n` on whose name is not in use. Among one more names than are in use
one is free, so no more need to be tried. -/
def firstFree (used : List String) (name : Nat → String) : Nat → Nat → Nat
  | 0, n => n
  | tries + 1, n => if name n ∈ used then firstFree used name tries (n + 1) else n

/-- The relations of a leaf and of a node above it, one of which must be negated. -/
def complementary (leaf partner : Formula) : Outcome (Relation × Relation) :=
  match leaf, partner with
  | .not (.rel l), .rel r => .ok (l, r)
  | .not (.rel _), _ => refuse (.partnerNotRelation partner)
  | .not _, _ => refuse (.leafNotNegatedRelation leaf)
  | .rel l, .not (.rel r) => .ok (l, r)
  | _, .not (.rel _) => refuse (.leafNotRelation leaf)
  | _, .not _ => refuse (.partnerNotNegatedRelation partner)
  | _, _ => refuse (.noneNegated leaf partner)

namespace State

/-- The tableau before the first move. -/
def initial (f : Formula) (backtracking : Bool) : State :=
  ⟨f, backtracking, Tree.single ⟨f, none⟩, [], 0, 0⟩

/-- The node with an id. -/
def node (s : State) (id : Nat) : Outcome (Node Label) :=
  .ofLookup (.nonClausal (.noNode id)) (s.tree.named? id)

/-- The formulas of all nodes. -/
def formulas (s : State) : List Formula := s.tree.items.map fun n => n.label.formula

/-- The open leaves that a rule on a node extends. -/
def targets (s : State) (id : Nat) (f : Formula) : Outcome (List Nat) := do
  let leaves ← Outcome.ofReference (Tree.openLeaves s.tree id)
  if leaves.isEmpty then refuse (.noOpenLeaves f)
  return leaves

/-- Extend a leaf by two nodes, the second below the id of the first. -/
def growChain (f g : Formula) (t : Tree Label) (leaf : Nat) : Tree Label :=
  Tree.grow (Tree.grow t leaf ⟨f, none⟩) (Arena.nextId t) ⟨g, none⟩

/-- Extend a leaf by two nodes side by side. -/
def growFork (f g : Formula) (t : Tree Label) (leaf : Nat) : Tree Label :=
  Tree.grow (Tree.grow t leaf ⟨f, none⟩) leaf ⟨g, none⟩

/-- Extend a leaf by one node. -/
def growOne (f : Formula) (t : Tree Label) (leaf : Nat) : Tree Label :=
  Tree.grow t leaf ⟨f, none⟩

/-- Decompose a conjunction. -/
def alpha (s : State) (id : Nat) : Outcome State := do
  let n ← s.node id
  match n.label.formula with
  | .and f g =>
    let leaves ← s.targets id n.label.formula
    return { s with tree := leaves.foldl (growChain f g) s.tree }
  | other => refuse (.notAnd other)

/-- Decompose a disjunction. -/
def beta (s : State) (id : Nat) : Outcome State := do
  let n ← s.node id
  match n.label.formula with
  | .or f g =>
    let leaves ← s.targets id n.label.formula
    return { s with tree := leaves.foldl (growFork f g) s.tree }
  | other => refuse (.notOr other)

/-- Instantiate a universal quantifier with a new variable. -/
def gamma (s : State) (id : Nat) : Outcome State := do
  let n ← s.node id
  match n.label.formula with
  | .all x body =>
    let leaves ← s.targets id n.label.formula
    let used := s.formulas.flatMap Formula.varNames
    let name := fun k : Nat => x ++ "_" ++ Decimal.render k
    let k ← Outcome.ofCount (firstFree used name used.length (s.variableCount + 1))
    let f := Formula.instantiateBound x body (.var (name k))
    return { s with tree := leaves.foldl (growOne f) s.tree, variableCount := k }
  | other => refuse (.notAll other)

/-- Instantiate an existential quantifier with a Skolem term over the free variables. -/
def delta (s : State) (id : Nat) : Outcome State := do
  let n ← s.node id
  match n.label.formula with
  | .ex x body =>
    let leaves ← s.targets id n.label.formula
    let used := s.formulas.flatMap Formula.symbols
    let name := fun k : Nat => "sk" ++ Decimal.render k
    let k ← Outcome.ofCount (firstFree used name used.length (s.symbolCount + 1))
    let free := (Formula.ex x body).freeVars
    let t : Term := if free.isEmpty then .const (name k) else .app (name k) (free.map .var)
    let f := Formula.instantiateBound x body t
    return { s with tree := leaves.foldl (growOne f) s.tree, symbolCount := k }
  | other => refuse (.notEx other)

/-- The substitution under which a leaf is closed: the given one, or else the most general. -/
def closingSubstitution (l r : Relation) (assignment : Option (KeyMap String String)) :
    Outcome Substitution :=
  match assignment with
  | some assignment => .ofText (Substitution.parse assignment)
  | none =>
    match unify l r with
    | .ok σ => .ok σ
    | .error e => refuse (.notUnifiable l r e)

/-- The tableau with every formula instantiated. -/
def instantiate (s : State) (σ : Substitution) : State :=
  { s with
    tree := Tree.mapLabels s.tree fun label =>
      { label with formula := label.formula.instantiate σ } }

/-- Keep a move, if moves are kept. -/
def record (s : State) (m : Move) : State :=
  { s with history := keepMove s.backtracking s.history m }

/-- Close a leaf against a node above it. -/
def close (s : State) (leaf partner : Nat) (assignment : Option (KeyMap String String)) :
    Outcome State := do
  let n ← s.node leaf
  let other ← s.node partner
  if !n.isLeaf then refuse (.notLeaf n.label.formula)
  if n.isClosed then refuse (.alreadyClosed n.label.formula)
  if !(← Outcome.ofReference ((Tree.ancestors s.tree leaf).any (· == partner))) then
    refuse (.notAncestor other.label.formula n.label.formula)
  let (l, r) ← complementary n.label.formula other.label.formula
  let σ ← closingSubstitution l r assignment
  let (l', r') ← complementary (n.label.formula.instantiate σ) (other.label.formula.instantiate σ)
  if l' ≠ r' then refuse (.notEqual l' r')
  let tree := (s.instantiate σ).tree.modify leaf fun n =>
    { n with label := { n.label with closeRef := some partner } }
  let tree ← Outcome.ofReference (Tree.closeLeaf tree leaf)
  return { s with tree := tree }.record (.close leaf partner (some σ.texts))

/-- The tableau before the first move and the moves without the last one; if there is none, there
is nothing to change. -/
def earlier (s : State) : Outcome (State × List Move) := do
  if !s.backtracking then refuse .noBacktracking
  if s.history.isEmpty then return (s, [])
  return (.initial s.formula s.backtracking, s.history.dropLast)

/-- Whether the proof is finished. -/
def verdict (s : State) : Outcome Verdict :=
  let backtracking := if s.backtracking then "with" else "without"
  Verdict.ofRoot s.tree ("The proof is closed and valid in non-clausal tableaux " ++ backtracking ++
    " backtracking") "The proof tree is not closed"

end State

/-- Start a proof from a closed formula. -/
def start (params : Params) (text : String) : Outcome State := do
  let f ← Outcome.ofText (Formula.parse .firstOrder text)
  return .initial f.negationNormal params.backtracking

/-- Make a move that takes none back. -/
def advance (s : State) : Move → Outcome State
  | .alpha id => do return (← s.alpha id).record (.alpha id)
  | .beta id => do return (← s.beta id).record (.beta id)
  | .gamma id => do return (← s.gamma id).record (.gamma id)
  | .delta id => do return (← s.delta id).record (.delta id)
  | .close leaf partner assignment => s.close leaf partner assignment
  | .undo => .error .brokenState

/-- The rules of the calculus. -/
def rules : Rules State Move := ⟨advance, .undo, State.history, State.earlier⟩

/-- Make a move. -/
def step (s : State) (m : Move) : Outcome State := rules.step s m

/-- The text of a move in sealed texts. -/
def Move.sealText : Move → String
  | alpha id => "Alpha \x7b node: " ++ Decimal.render id ++ " \x7d"
  | beta id => "Beta \x7b node: " ++ Decimal.render id ++ " \x7d"
  | gamma id => "Gamma \x7b node: " ++ Decimal.render id ++ " \x7d"
  | delta id => "Delta \x7b node: " ++ Decimal.render id ++ " \x7d"
  | close leaf partner assignment =>
    "Close \x7b leaf: " ++ Decimal.render leaf ++ ", partner: " ++ Decimal.render partner ++
      ", var_assign: " ++ Quoted.option Quoted.map assignment ++ " \x7d"
  | undo => "Undo"

/-- The text of a node in sealed texts. -/
def nodeSealText (n : Node Label) : String :=
  "(" ++ Quoted.option Quoted.id n.parent ++ ";" ++ n.label.formula.render ++ ";" ++
    Quoted.bool n.isClosed ++ ";" ++ Quoted.option Quoted.id n.label.closeRef ++ ";" ++
    Quoted.list Quoted.id n.children ++ ")"

/-- The text over which a tableau is sealed. -/
def State.sealText (s : State) : String :=
  "nctableauxstate|" ++ s.formula.render ++ "|" ++ Quoted.bool s.backtracking ++ "|" ++
    Decimal.render s.variableCount ++ "|" ++ Decimal.render s.symbolCount ++ "|[" ++
    String.join (s.tree.items.map nodeSealText) ++ "]|" ++ Quoted.list Move.sealText s.history

end Deduction.NonClausal
