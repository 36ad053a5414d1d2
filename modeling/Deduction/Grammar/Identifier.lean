import Deduction.Text.Scan

/-!
# Identifiers

Names are made of ASCII letters, digits and underscores. A name that starts with
an upper-case letter is a variable or a relation, any other one a constant, a
function or a propositional variable.
-/

namespace Deduction.Grammar

open Scan

/-- Whether a character may stand in an identifier: an ASCII letter, a digit or an underscore. -/
def isIdentifierChar (c : Char) : Bool := c.isAlphanum || c == '_'

/-- Whether a name starts with an upper-case ASCII letter. -/
def startsUpper (name : String) : Bool := (name.toList.head?.map Char.isUpper).getD false

/-- Read an identifier, which is taken as long as possible, behind any blanks. -/
def identifier (cs : List Char) : Result String cs :=
  match h : skip cs with
  | [] => .error []
  | c :: r =>
    if isIdentifierChar c then
      .ok (String.ofList (c :: r.takeWhile isIdentifierChar),
        ⟨r.dropWhile isIdentifierChar, Nat.lt_of_le_of_lt
          (List.dropWhile_sublist isIdentifierChar).length_le (length_lt_of_skip_eq h)⟩)
    else .error (c :: r)

/-- Read an identifier that starts with an upper-case letter. One that does not is refused at
the blanks before it. -/
def upperIdentifier (cs : List Char) : Result String cs :=
  match identifier cs with
  | .ok (name, rest) => if startsUpper name then .ok (name, rest) else .error cs
  | .error e => .error e

end Deduction.Grammar
