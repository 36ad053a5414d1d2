import Deduction.KeyMap
import Deduction.Term

/-!
# Substitutions

A substitution sends finitely many variables to terms and leaves all others
alone. It lists its bindings by variable name, which fixes the order in which
they are shown.
-/

namespace Deduction

/-- Finitely many variables with the terms that replace them. -/
abbrev Substitution := KeyMap String Term

namespace Substitution

/-- The term that replaces a variable: the variable itself where nothing is bound. -/
def apply (s : Substitution) (x : String) : Term := (s.get? x).getD (.var x)

/-- Replace a variable by a term in every value, then bind the variable itself. -/
def extend (s : Substitution) (x : String) (t : Term) : Substitution :=
  (s.mapValues (Term.bind (Term.single x t))).insert x t

/-- The bindings as pairs of variable and text of the term. -/
def texts (s : Substitution) : KeyMap String String := s.mapValues Term.render

end Substitution

/-- The instance of a term under a substitution. -/
def Term.instantiate (t : Term) (s : Substitution) : Term := t.bind s.apply

/-- The instance of a relation under a substitution. -/
def Relation.instantiate (r : Relation) (s : Substitution) : Relation := r.bind s.apply

end Deduction
