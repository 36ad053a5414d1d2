import Deduction.Formula.Variables
import Deduction.Text.Decimal

/-!
# Numbered variable names

A variable is renamed apart by a suffix after an underscore. A name that already
ends in an underscore and digits loses them first, so `X` and `X_3` both become
`X_7` under the suffix `7`.
-/

namespace Deduction

/-- A name without its last underscore and the digits behind it, if there are any digits and
something stands before them. -/
def stem (name : String) : String :=
  let back := name.toList.reverse
  match back.dropWhile Decimal.isDigit with
  | '_' :: c :: rest =>
    if (back.takeWhile Decimal.isDigit).isEmpty then name else String.ofList (c :: rest).reverse
  | _ => name

/-- The name under a suffix. -/
def withSuffix (suffix name : String) : String := stem name ++ "_" ++ suffix

/-- A term with all its variables under a suffix. -/
def Term.withSuffix (suffix : String) (t : Term) : Term :=
  t.bind fun x => .var (Deduction.withSuffix suffix x)

/-- A relation with all its variables under a suffix. -/
def Relation.withSuffix (suffix : String) (r : Relation) : Relation :=
  r.bind fun x => .var (Deduction.withSuffix suffix x)

/-- A formula with all variable occurrences under a suffix; quantifiers keep their names. -/
def Formula.withSuffix (suffix : String) (f : Formula) : Formula :=
  f.rename (Deduction.withSuffix suffix)

end Deduction
