import Deduction.Grammar.Term
import Deduction.Formula

/-!
# The grammar of formulas

From the loosest to the tightest connective: equivalence `<=>` and disjunction
`|` and conjunction `&` group to the left, implication `->` or `-->` to the
right; negation `!` and the quantifiers `\all X:` and `\ex X:` apply to the
formula right behind them. An operator without a right-hand side is left unread.
-/

namespace Deduction.Grammar

open Scan

/-- Read an atomic formula: a propositional variable or a relation. -/
def atom (logic : Logic) (cs : List Char) : Result Formula cs :=
  match logic with
  | .propositional =>
    match identifier cs with
    | .error e => .error e
    | .ok (name, rest) => .ok (.var name, rest)
  | .firstOrder =>
    match relation cs with
    | .error e => .error e
    | .ok (r, rest) => .ok (.rel r, rest)

/-- Read an atomic formula from the first character that is not a blank. -/
def blankedAtom (logic : Logic) (cs : List Char) : Result Formula cs :=
  match atom logic (skip cs) with
  | .error e => .error e
  | .ok (f, ⟨r, hr⟩) => .ok (f, ⟨r, Nat.lt_of_lt_of_le hr (length_skip_le cs)⟩)

/-- Read a quantifier word: true for a universal quantifier. -/
def quantifierWord (cs : List Char) : Option (Bool × Rest cs) :=
  match token '\\' ['a', 'l', 'l'] cs with
  | .ok rest => some (true, rest)
  | .error _ =>
    match token '\\' ['e', 'x'] cs with
    | .ok rest => some (false, rest)
    | .error _ => none

/-- Read a quantifier with its variable and colon. Propositional logic has none. -/
def quantifier (logic : Logic) (cs : List Char) : Option ((Formula → Formula) × Rest cs) :=
  match logic with
  | .propositional => none
  | .firstOrder =>
    match quantifierWord cs with
    | none => none
    | some (universal, ⟨r, hr⟩) =>
      match upperIdentifier r with
      | .error _ => none
      | .ok (x, ⟨r₁, h₁⟩) =>
        match token ':' [] r₁ with
        | .error _ => none
        | .ok ⟨r₂, h₂⟩ =>
          some (if universal then Formula.all x else Formula.ex x, ⟨r₂, by omega⟩)

/-- Read an implication arrow of either length. -/
def arrow (cs : List Char) : Except (List Char) (Rest cs) :=
  match token '-' ['-', '>'] cs with
  | .ok rest => .ok rest
  | .error _ => token '-' ['>'] cs

mutual

/-- Read one or more implications with `<=>` between them. -/
def equivalence (logic : Logic) (cs : List Char) : Result Formula cs :=
  match implication logic cs with
  | .error e => .error e
  | .ok (f, ⟨r, hr⟩) =>
    let (g, ⟨r', hr'⟩) := equivalenceTail logic f r
    .ok (g, ⟨r', by omega⟩)
termination_by (cs.length, 4)
decreasing_by
  · exact Prod.Lex.right _ (by omega)
  · exact Prod.Lex.left _ _ (by omega)

/-- Extend an equivalence to the right. -/
def equivalenceTail (logic : Logic) (left : Formula) (cs : List Char) : Formula × Remainder cs :=
  match token '<' ['=', '>'] cs with
  | .error _ => (left, .whole cs)
  | .ok ⟨r, hr⟩ =>
    match implication logic r with
    | .error _ => (left, .whole cs)
    | .ok (right, ⟨r', hr'⟩) =>
      let (f, ⟨r'', hr''⟩) := equivalenceTail logic (.iff left right) r'
      (f, ⟨r'', length_le_of_lt_of_lt hr hr' hr''⟩)
termination_by (cs.length, 0)
decreasing_by all_goals exact Prod.Lex.left _ _ (by omega)

/-- Read a disjunction, and an implication if an arrow with a right-hand side follows. -/
def implication (logic : Logic) (cs : List Char) : Result Formula cs :=
  match disjunction logic cs with
  | .error e => .error e
  | .ok (left, ⟨r, hr⟩) =>
    match arrow r with
    | .error _ => .ok (left, ⟨r, hr⟩)
    | .ok ⟨r₁, h₁⟩ =>
      match implication logic r₁ with
      | .error _ => .ok (left, ⟨r, hr⟩)
      | .ok (right, ⟨r₂, h₂⟩) => .ok (.imp left right, ⟨r₂, by omega⟩)
termination_by (cs.length, 3)
decreasing_by
  · exact Prod.Lex.right _ (by omega)
  · exact Prod.Lex.left _ _ (by omega)

/-- Read one or more conjunctions with `|` between them. -/
def disjunction (logic : Logic) (cs : List Char) : Result Formula cs :=
  match conjunction logic cs with
  | .error e => .error e
  | .ok (f, ⟨r, hr⟩) =>
    let (g, ⟨r', hr'⟩) := disjunctionTail logic f r
    .ok (g, ⟨r', by omega⟩)
termination_by (cs.length, 2)
decreasing_by
  · exact Prod.Lex.right _ (by omega)
  · exact Prod.Lex.left _ _ (by omega)

/-- Extend a disjunction to the right. -/
def disjunctionTail (logic : Logic) (left : Formula) (cs : List Char) : Formula × Remainder cs :=
  match token '|' [] cs with
  | .error _ => (left, .whole cs)
  | .ok ⟨r, hr⟩ =>
    match conjunction logic r with
    | .error _ => (left, .whole cs)
    | .ok (right, ⟨r', hr'⟩) =>
      let (f, ⟨r'', hr''⟩) := disjunctionTail logic (.or left right) r'
      (f, ⟨r'', length_le_of_lt_of_lt hr hr' hr''⟩)
termination_by (cs.length, 0)
decreasing_by all_goals exact Prod.Lex.left _ _ (by omega)

/-- Read one or more unary formulas with `&` between them. -/
def conjunction (logic : Logic) (cs : List Char) : Result Formula cs :=
  match unary logic cs with
  | .error e => .error e
  | .ok (f, ⟨r, hr⟩) =>
    let (g, ⟨r', hr'⟩) := conjunctionTail logic f r
    .ok (g, ⟨r', by omega⟩)
termination_by (cs.length, 1)
decreasing_by
  · exact Prod.Lex.right _ (by omega)
  · exact Prod.Lex.left _ _ (by omega)

/-- Extend a conjunction to the right. -/
def conjunctionTail (logic : Logic) (left : Formula) (cs : List Char) : Formula × Remainder cs :=
  match token '&' [] cs with
  | .error _ => (left, .whole cs)
  | .ok ⟨r, hr⟩ =>
    match unary logic r with
    | .error _ => (left, .whole cs)
    | .ok (right, ⟨r', hr'⟩) =>
      let (f, ⟨r'', hr''⟩) := conjunctionTail logic (.and left right) r'
      (f, ⟨r'', length_le_of_lt_of_lt hr hr' hr''⟩)
termination_by (cs.length, 0)
decreasing_by all_goals exact Prod.Lex.left _ _ (by omega)

/-- Read a negation, a quantified formula, a formula in brackets or an atomic formula. Where
none of the first three succeeds, the failure is that of an atomic formula. -/
def unary (logic : Logic) (cs : List Char) : Result Formula cs :=
  match token '!' [] cs with
  | .ok ⟨r, hr⟩ =>
    match unary logic r with
    | .ok (f, ⟨r', hr'⟩) => .ok (.not f, ⟨r', by omega⟩)
    | .error _ => blankedAtom logic cs
  | .error _ =>
    match quantifier logic cs with
    | some (quantify, ⟨r, hr⟩) =>
      match unary logic r with
      | .ok (f, ⟨r', hr'⟩) => .ok (quantify f, ⟨r', by omega⟩)
      | .error _ => blankedAtom logic cs
    | none =>
      match token '(' [] cs with
      | .ok ⟨r, hr⟩ =>
        match equivalence logic r with
        | .ok (f, ⟨r₁, h₁⟩) =>
          match token ')' [] r₁ with
          | .ok ⟨r₂, h₂⟩ => .ok (f, ⟨r₂, by omega⟩)
          | .error _ => blankedAtom logic cs
        | .error _ => blankedAtom logic cs
      | .error _ => blankedAtom logic cs
termination_by (cs.length, 0)
decreasing_by all_goals exact Prod.Lex.left _ _ (by omega)

end

end Deduction.Grammar
