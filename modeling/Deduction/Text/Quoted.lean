import Deduction.KeyMap
import Deduction.Text.Decimal
import Deduction.Text.Printable

/-!
# Unambiguous texts of values

The text that is sealed must tell different states apart. Strings stand in
quotation marks with escapes for the mark, the backslash and all characters that
are not printable; optional values, lists and maps are marked as such.
-/

namespace Deduction.Quoted

/-- The digits of a code point to base sixteen, without leading zeros. -/
def hexDigits (n : Nat) : List Char :=
  if n < 16 then [Nat.digitChar n] else hexDigits (n / 16) ++ [Nat.digitChar (n % 16)]

/-- A character as it stands between quotation marks. -/
def char (c : Char) : List Char :=
  if c = '"' then ['\\', '"']
  else if c = '\\' then ['\\', '\\']
  else if c = '\n' then ['\\', 'n']
  else if c = '\r' then ['\\', 'r']
  else if c = '\t' then ['\\', 't']
  else if c.toNat = 0 then ['\\', '0']
  else if Text.isPrintable c then [c]
  else ['\\', 'u', '\x7b'] ++ hexDigits c.toNat ++ ['\x7d']

/-- A string in quotation marks. -/
def string (s : String) : String := "\"" ++ String.ofList (s.toList.flatMap char) ++ "\""

/-- A truth value. -/
def bool (b : Bool) : String := if b then "true" else "false"

/-- An optional value. -/
def option {α : Type} (f : α → String) : Option α → String
  | none => "None"
  | some a => "Some(" ++ f a ++ ")"

/-- A list of values. -/
def list {α : Type} (f : α → String) (as : List α) : String :=
  "[" ++ String.intercalate ", " (as.map f) ++ "]"

/-- A map from strings to strings. -/
def map (m : KeyMap String String) : String :=
  let entries := m.entries.map fun e => string e.1 ++ ": " ++ string e.2
  "\x7b" ++ String.intercalate ", " entries ++ "\x7d"

/-- A reference to a node. -/
def id (n : Nat) : String := "id:" ++ Decimal.render n

end Deduction.Quoted
