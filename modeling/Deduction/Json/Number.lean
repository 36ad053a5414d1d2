import Deduction.Text.Decimal

/-!
# The range of double precision

A decimal is read by collecting digits as long as they fit in 64 bits and
scaling the result by a power of ten, both rounded to 53 binary digits. The
number is out of range if the product rounds to no finite double.
-/

namespace Deduction.Json

/-- A natural number rounded to 53 binary digits, halves to even. -/
def round53 (n : Nat) : Nat :=
  let k := n.log2 - 52
  let unit := 1 <<< k
  let q := n / unit
  let r := n % unit
  let up := decide (unit < 2 * r) || (unit == 2 * r && q % 2 == 1)
  (if up then q + 1 else q) * unit

/-- The least number that rounds to infinity. -/
def infinity : Nat := 1 <<< 1024 - 1 <<< 970

/-- Collect the digits before the point. Once one does not fit, it and the later ones only
count towards the power of ten. -/
def collectInteger (significand : Nat) : List Char → Nat × Int
  | [] => (significand, 0)
  | c :: cs =>
    let next := 10 * significand + Decimal.value c
    if next < UInt64.size then collectInteger next cs else (significand, cs.length + 1)

/-- Collect the digits behind the point up to the first one that does not fit. -/
def collectFraction (significand : Nat) (exponent : Int) : List Char → Nat × Int
  | [] => (significand, exponent)
  | c :: cs =>
    let next := 10 * significand + Decimal.value c
    if next < UInt64.size then collectFraction next (exponent - 1) cs else (significand, exponent)

/-- Whether a number with the given digits before and behind the point and the given power of
ten is out of range. -/
def outOfRange (integer fraction : List Char) (power : Int) : Bool :=
  let (s, e) := collectInteger 0 integer
  let (s, e) := collectFraction s e fraction
  match e + power with
  | .ofNat k =>
    s != 0 && (decide (308 < k) || decide (infinity ≤ round53 s * round53 (Nat.pow 10 k)))
  | .negSucc _ => false

end Deduction.Json
