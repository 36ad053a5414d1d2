import Deduction.Grammar.Identifier
import Deduction.Text.Space
import Deduction.Clause

/-!
# Clause notation

Atoms are written with commas between them, negated ones with `!` in front, and
clauses are separated by semicolons or line breaks, as in `a, !b; c`. A text with
no other characters than these, identifiers and white space is clause notation.
-/

namespace Deduction.Grammar

open Scan

/-- Read an atom of a clause. -/
def clauseAtom (cs : List Char) : Result (Atom String) cs :=
  match token '!' [] cs with
  | .ok ⟨r, hr⟩ =>
    match identifier r with
    | .error e => .error e
    | .ok (name, ⟨r', hr'⟩) => .ok (⟨name, true⟩, ⟨r', length_lt_trans hr hr'⟩)
  | .error _ =>
    match identifier cs with
    | .error e => .error e
    | .ok (name, rest) => .ok (⟨name, false⟩, rest)

/-- Read a clause: one or more atoms. -/
def clause (cs : List Char) : Result (Clause String) cs :=
  match list1 (token ',' []) clauseAtom cs with
  | .error e => .error e
  | .ok (atoms, rest) => .ok (⟨atoms⟩, rest)

/-- Whether a character is a space or a tab. -/
def isInlineBlank (c : Char) : Bool := c == ' ' || c == '\t'

/-- Read a clause separator: a semicolon or a line break behind any spaces and tabs. -/
def clauseSeparator (cs : List Char) : Except (List Char) (Rest cs) :=
  match h : cs.dropWhile isInlineBlank with
  | ';' :: r => .ok ⟨r, length_lt_of_dropWhile_eq h⟩
  | '\n' :: r => .ok ⟨r, length_lt_of_dropWhile_eq h⟩
  | '\r' :: '\n' :: r => .ok ⟨r, Nat.lt_of_succ_lt (length_lt_of_dropWhile_eq h)⟩
  | _ => .error cs

/-- Read one or more clauses. -/
def clauses (cs : List Char) : Result (List (Clause String)) cs := list1 clauseSeparator clause cs

/-- Whether a text has only characters of clause notation. -/
def isClauseText (cs : List Char) : Bool :=
  cs.all fun c => isIdentifierChar c || Text.isSpace c || c == '!' || c == ',' || c == ';'

end Deduction.Grammar
