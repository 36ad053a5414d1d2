/-!
# Decimal numerals

Natural numbers are written with the digits 0 to 9 and without leading zeros.
Reading accepts leading zeros and refuses an empty text and any other character.
-/

namespace Deduction.Decimal

/-- Whether a character is one of the ten digits. -/
def isDigit (c : Char) : Bool := '0' ≤ c && c ≤ '9'

/-- The number that a digit stands for. -/
def value (c : Char) : Nat := c.toNat - '0'.toNat

/-- The digits of a number, most significant first. -/
def digits (n : Nat) : List Char :=
  if n < 10 then [Nat.digitChar n] else digits (n / 10) ++ [Nat.digitChar (n % 10)]

/-- The text of a number. -/
def render (n : Nat) : String := String.ofList (digits n)

/-- The number that a run of digits stands for. -/
def ofDigits (cs : List Char) : Nat := cs.foldl (fun n c => 10 * n + value c) 0

/-- Read a number from a text of digits. -/
def read? (cs : List Char) : Option Nat :=
  if !cs.isEmpty && cs.all isDigit then some (ofDigits cs) else none

/-- Read a number of 64 bits, which may have a plus sign. -/
def readWord? (cs : List Char) : Option Nat := do
  let n ← read? (if cs.head? = some '+' then cs.tail else cs)
  if n < UInt64.size then some n else none

end Deduction.Decimal
