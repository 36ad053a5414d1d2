import Deduction.Grammar.Identifier
import Deduction.Term

/-!
# The grammar of terms and relations

A name that starts with an upper-case letter is a variable. Any other name is a
function if arguments in brackets follow it, and a constant if not; a bracket
that does not hold a list of terms is left unread. A relation has an upper-case
name, and its brackets may be empty.
-/

namespace Deduction.Grammar

open Scan

mutual

/-- Read a term. -/
def term (cs : List Char) : Result Term cs :=
  match identifier cs with
  | .error e => .error e
  | .ok (name, ⟨r, hr⟩) =>
    if startsUpper name then .ok (.var name, ⟨r, hr⟩)
    else
      match token '(' [] r with
      | .error _ => .ok (.const name, ⟨r, hr⟩)
      | .ok ⟨r₁, h₁⟩ =>
        match terms r₁ with
        | .error _ => .ok (.const name, ⟨r, hr⟩)
        | .ok (args, ⟨r₂, h₂⟩) =>
          match token ')' [] r₂ with
          | .error _ => .ok (.const name, ⟨r, hr⟩)
          | .ok ⟨r₃, h₃⟩ => .ok (.app name args, ⟨r₃, by omega⟩)
termination_by (cs.length, 0)
decreasing_by exact Prod.Lex.left _ _ (by omega)

/-- Read one or more terms with commas between them. -/
def terms (cs : List Char) : Result (List Term) cs :=
  match term cs with
  | .error e => .error e
  | .ok (t, ⟨r, hr⟩) =>
    let (ts, ⟨r', hr'⟩) := termsTail r
    .ok (t :: ts, ⟨r', by omega⟩)
termination_by (cs.length, 1)
decreasing_by
  · exact Prod.Lex.right _ (by omega)
  · exact Prod.Lex.left _ _ (by omega)

/-- Read further terms, each behind a comma. -/
def termsTail (cs : List Char) : List Term × Remainder cs :=
  match token ',' [] cs with
  | .error _ => ([], .whole cs)
  | .ok ⟨r, hr⟩ =>
    match term r with
    | .error _ => ([], .whole cs)
    | .ok (t, ⟨r', hr'⟩) =>
      let (ts, ⟨r'', hr''⟩) := termsTail r'
      (t :: ts, ⟨r'', length_le_of_lt_of_lt hr hr' hr''⟩)
termination_by (cs.length, 0)
decreasing_by all_goals exact Prod.Lex.left _ _ (by omega)

end

/-- Read a relation. -/
def relation (cs : List Char) : Result Relation cs :=
  match upperIdentifier cs with
  | .error e => .error e
  | .ok (name, ⟨r, hr⟩) =>
    match token '(' [] r with
    | .error e => .error e
    | .ok ⟨r₁, h₁⟩ =>
      let (args, ⟨r₂, h₂⟩) := list0 (token ',' []) term r₁
      match token ')' [] r₂ with
      | .error e => .error e
      | .ok ⟨r₃, h₃⟩ => .ok (⟨name, args⟩, ⟨r₃, by omega⟩)

end Deduction.Grammar
