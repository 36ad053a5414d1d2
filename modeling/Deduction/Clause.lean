import Deduction.Text.Suffix

/-!
# Atoms, clauses and clause sets

A clause is a disjunction of signed literals. Literals are propositional
variables or relations, the two instances of `Literal`. Two clauses are the same
if they have the same atoms with the same multiplicities; the order of atoms
matters only for display.
-/

namespace Deduction

/-- What stands in an atom: a propositional variable or a relation. -/
class Literal (L : Type) where
  /-- The logic that the literals belong to. -/
  logic : Logic
  /-- The text of a literal. -/
  render : L → String
  /-- The literal that an atomic formula stands for. -/
  ofFormula? : Formula → Option L

instance : Literal String where
  logic := .propositional
  render := id
  ofFormula?
    | .var name => some name
    | _ => none

instance : Literal Relation where
  logic := .firstOrder
  render := Relation.render
  ofFormula?
    | .rel r => some r
    | _ => none

/-- A literal with a sign. -/
structure Atom (L : Type) where
  /-- The literal. -/
  lit : L
  /-- Whether it is negated. -/
  negated : Bool
  deriving DecidableEq, Repr, Inhabited

namespace Atom

variable {L : Type}

/-- The atom with the other sign. -/
def complement (a : Atom L) : Atom L := ⟨a.lit, !a.negated⟩

/-- The text of an atom. -/
def render [Literal L] (a : Atom L) : String :=
  if a.negated then "!" ++ Literal.render a.lit else Literal.render a.lit

/-- The instance of an atom under a substitution. -/
def instantiate (a : Atom Relation) (s : Substitution) : Atom Relation :=
  ⟨a.lit.instantiate s, a.negated⟩

/-- An atom with all its variables under a suffix. -/
def withSuffix (suffix : String) (a : Atom Relation) : Atom Relation :=
  ⟨a.lit.withSuffix suffix, a.negated⟩

end Atom

/-- A disjunction of atoms. -/
structure Clause (L : Type) where
  /-- The atoms in the order in which they are shown. -/
  atoms : List (Atom L)
  deriving DecidableEq, Repr, Inhabited

namespace Clause

variable {L : Type}

/-- Whether a clause has no atoms. -/
def isEmpty (c : Clause L) : Bool := c.atoms.isEmpty

/-- Whether no atom of a clause is negated. -/
def isPositive (c : Clause L) : Bool := c.atoms.all fun a => !a.negated

/-- Whether an atom occurs in a clause. -/
def contains [DecidableEq L] (c : Clause L) (a : Atom L) : Bool := c.atoms.contains a

/-- Whether an atom of a list occurs again behind it. -/
def hasRepeat [DecidableEq L] : List (Atom L) → Bool
  | [] => false
  | a :: as => as.contains a || hasRepeat as

/-- Whether some atom of a clause occurs more than once. -/
def isFactorizable [DecidableEq L] (c : Clause L) : Bool := hasRepeat c.atoms

/-- The clause without later repetitions of an atom. -/
def factorized [DecidableEq L] (c : Clause L) : Clause L := ⟨c.atoms.eraseDups⟩

/-- Whether two clauses have the same atoms, each equally often. -/
def same [DecidableEq L] (c d : Clause L) : Bool :=
  c.atoms.length == d.atoms.length && c.atoms.all fun a => c.atoms.count a == d.atoms.count a

/-- The text of a clause: its atoms between braces. -/
def render [Literal L] (c : Clause L) : String :=
  "\x7b" ++ String.intercalate ", " (c.atoms.map Atom.render) ++ "\x7d"

/-- The instance of a clause under a substitution. -/
def instantiate (c : Clause Relation) (s : Substitution) : Clause Relation :=
  ⟨c.atoms.map (·.instantiate s)⟩

/-- A clause with all its variables under a suffix. -/
def withSuffix (suffix : String) (c : Clause Relation) : Clause Relation :=
  ⟨c.atoms.map (Atom.withSuffix suffix)⟩

end Clause

/-- A conjunction of clauses. -/
structure ClauseSet (L : Type) where
  /-- The clauses in order. -/
  clauses : List (Clause L)
  deriving DecidableEq, Repr, Inhabited

namespace ClauseSet

variable {L : Type}

/-- The set without clauses. -/
def empty : ClauseSet L := ⟨[]⟩

/-- Append a clause. -/
def add (s : ClauseSet L) (c : Clause L) : ClauseSet L := ⟨s.clauses ++ [c]⟩

/-- Append all clauses of another set. -/
def unite (s t : ClauseSet L) : ClauseSet L := ⟨s.clauses ++ t.clauses⟩

/-- The number of clauses. -/
def size (s : ClauseSet L) : Nat := s.clauses.length

/-- The clause at a position. -/
def get? (s : ClauseSet L) (i : Nat) : Option (Clause L) := s.clauses[i]?

/-- Whether one of the clauses is empty, which no valuation satisfies. -/
def hasEmptyClause (s : ClauseSet L) : Bool := s.clauses.any Clause.isEmpty

/-- Whether two sets have the same clauses in the same order. -/
def same [DecidableEq L] (s t : ClauseSet L) : Bool :=
  s.size == t.size && (s.clauses.zip t.clauses).all fun p => p.1.same p.2

/-- The text of a clause set. -/
def render [Literal L] (s : ClauseSet L) : String :=
  String.intercalate ", " (s.clauses.map Clause.render)

end ClauseSet

end Deduction
