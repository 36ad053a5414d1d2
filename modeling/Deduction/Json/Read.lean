import Deduction.Json
import Deduction.Json.Number
import Deduction.Text.Scan

/-!
# Reading JSON

The reader takes exactly the JSON grammar: no comments, no trailing commas, no
control characters in strings. A literal that stands for no value is read as
`Json.unusable`; whether it may stand where it does is decided by whoever uses
the value.
-/

namespace Deduction.Json

open Scan

/-- The number that a hexadecimal digit stands for. -/
def hexValue (c : Char) : Option Nat :=
  if '0' ≤ c && c ≤ '9' then some (c.toNat - '0'.toNat)
  else if 'a' ≤ c && c ≤ 'f' then some (c.toNat - 'a'.toNat + 10)
  else if 'A' ≤ c && c ≤ 'F' then some (c.toNat - 'A'.toNat + 10)
  else none

/-- Four hexadecimal digits and what stands behind them. -/
def hex4 : List Char → Option (Nat × List Char)
  | a :: b :: c :: d :: cs => do
    let a ← hexValue a
    let b ← hexValue b
    let c ← hexValue c
    let d ← hexValue d
    return (((a * 16 + b) * 16 + c) * 16 + d, cs)
  | _ => none

/-- The second half of a surrogate pair, written as an escape. -/
def lowSurrogate (cs : List Char) : Option (Nat × List Char) :=
  match cs with
  | '\\' :: 'u' :: cs =>
    match hex4 cs with
    | some (n, rest) => if 0xDC00 ≤ n && n ≤ 0xDFFF then some (n, rest) else none
    | none => none
  | _ => none

/-- The character of an escape, read from behind the backslash. There is none for half of a
surrogate pair. -/
def escape : List Char → Option (Option Char × List Char)
  | '"' :: cs => some (some '"', cs)
  | '\\' :: cs => some (some '\\', cs)
  | '/' :: cs => some (some '/', cs)
  | 'b' :: cs => some (some '\x08', cs)
  | 'f' :: cs => some (some '\x0c', cs)
  | 'n' :: cs => some (some '\n', cs)
  | 'r' :: cs => some (some '\r', cs)
  | 't' :: cs => some (some '\t', cs)
  | 'u' :: cs =>
    match hex4 cs with
    | none => none
    | some (n, rest) =>
      if 0xD800 ≤ n && n ≤ 0xDBFF then
        match lowSurrogate rest with
        | some (m, rest') =>
          some (some (Char.ofNat (0x10000 + (n - 0xD800) * 0x400 + (m - 0xDC00))), rest')
        | none => some (none, rest)
      else if 0xDC00 ≤ n && n ≤ 0xDFFF then some (none, rest)
      else some (some (Char.ofNat n), rest)
  | _ => none

theorem length_of_hex4 {cs rest : List Char} {n : Nat} (h : hex4 cs = some (n, rest)) :
    rest.length < cs.length := by
  unfold hex4 at h
  split at h
  · simp only [bind, Option.bind_eq_some_iff, pure, Option.some.injEq, Prod.mk.injEq] at h
    obtain ⟨_, _, _, _, _, _, _, _, _, rfl⟩ := h
    simp only [List.length_cons]
    omega
  · simp at h

theorem length_of_lowSurrogate {cs rest : List Char} {n : Nat}
    (h : lowSurrogate cs = some (n, rest)) : rest.length < cs.length := by
  unfold lowSurrogate at h
  split at h
  · split at h
    next hx =>
      have := length_of_hex4 hx
      split at h
      · cases h
        simp only [List.length_cons]
        omega
      · simp at h
    next => simp at h
  · simp at h

theorem length_of_escape {cs rest : List Char} {c : Option Char}
    (h : escape cs = some (c, rest)) : rest.length < cs.length := by
  unfold escape at h
  split at h
  case h_9 =>
    split at h
    next => simp at h
    next hx =>
      have := length_of_hex4 hx
      split at h
      · split at h
        next hl =>
          have := length_of_lowSurrogate hl
          cases h
          simp only [List.length_cons]
          omega
        next =>
          cases h
          simp only [List.length_cons]
          omega
      · split at h <;> cases h <;> simp only [List.length_cons] <;> omega
  case h_10 => simp at h
  all_goals
    cases h
    simp

/-- Read a string from behind its opening quotation mark. `back` holds the characters read so
far, last first, or nothing once an escape stood for no character. -/
def stringBody (back : Option (List Char)) (cs : List Char) :
    Option (Option String × List Char) :=
  match cs with
  | [] => none
  | '"' :: rest => some (back.map fun b => String.ofList b.reverse, rest)
  | '\\' :: rest =>
    match _h : escape rest with
    | none => none
    | some (c, rest') => stringBody (back.bind fun b => c.map (· :: b)) rest'
  | c :: rest => if c.toNat < 0x20 then none else stringBody (back.map (c :: ·)) rest
termination_by cs.length
decreasing_by
  · have := length_of_escape _h
    simp only [List.length_cons]
    omega
  · simp

theorem length_of_stringBody {back : Option (List Char)} {cs rest : List Char}
    {s : Option String} (h : stringBody back cs = some (s, rest)) : rest.length < cs.length := by
  fun_induction stringBody back cs with
  | case1 => simp at h
  | case2 =>
    cases h
    simp
  | case3 => simp at h
  | case4 back rest' c rest'' he ih =>
    have := ih h
    have := length_of_escape he
    simp only [List.length_cons]
    omega
  | case5 => simp at h
  | case6 back c rest' _ _ _ ih =>
    have := ih h
    simp only [List.length_cons]
    omega

/-- Read a string behind any blanks. -/
def string (cs : List Char) : Option (Option String × Rest cs) :=
  match hs : skip cs with
  | '"' :: r =>
    match h : stringBody (some []) r with
    | none => none
    | some (s, rest) => some (s, ⟨rest, by
        have := length_of_stringBody h
        have := length_lt_of_skip_eq hs
        omega⟩)
  | _ => none

/-- Whether the digits before the point are one zero or start with another digit. -/
def validInteger : List Char → Bool
  | [] => false
  | ['0'] => true
  | c :: _ => c != '0'

/-- The digits behind a point, if there is one. A point needs digits. -/
def fractionPart (cs : List Char) : Option (List Char × List Char) :=
  match cs with
  | '.' :: r =>
    let digits := r.takeWhile Decimal.isDigit
    if digits.isEmpty then none else some (digits, r.dropWhile Decimal.isDigit)
  | _ => some ([], cs)

/-- The power of ten behind an exponent mark, read from behind the mark. -/
def powerPart (cs : List Char) : Option (Int × List Char) :=
  let (sign, r) : Int × List Char :=
    match cs with
    | '+' :: r => (1, r)
    | '-' :: r => (-1, r)
    | _ => (1, cs)
  let digits := r.takeWhile Decimal.isDigit
  if digits.isEmpty then none
  else some (sign * Decimal.ofDigits digits, r.dropWhile Decimal.isDigit)

/-- The exponent, if there is one. -/
def exponentPart (cs : List Char) : Option (Option Int × List Char) :=
  match cs with
  | 'e' :: r => (powerPart r).map fun (p, rest) => (some p, rest)
  | 'E' :: r => (powerPart r).map fun (p, rest) => (some p, rest)
  | _ => some (none, cs)

/-- The text of a number with a sign, a point or an exponent. -/
def numberText (negative : Bool) (integer fraction : List Char) (power : Option Int) : String :=
  let sign := if negative then "-" else ""
  let point := if fraction.isEmpty then "" else "." ++ String.ofList fraction
  let exponent := match power with
    | none => ""
    | some (.ofNat n) => "e" ++ Decimal.render n
    | some (.negSucc n) => "e-" ++ Decimal.render (n + 1)
  sign ++ String.ofList integer ++ point ++ exponent

/-- The value of a number with the given parts. -/
def numberValue (negative : Bool) (integer fraction : List Char) (power : Option Int) : Json :=
  if outOfRange integer fraction (power.getD 0) then .unusable
  else if !negative && fraction.isEmpty && power.isNone then .nat (Decimal.ofDigits integer)
  else .decimal (numberText negative integer fraction power)

/-- Read a number without its sign. -/
def unsigned (negative : Bool) (cs : List Char) : Option (Json × List Char) :=
  let integer := cs.takeWhile Decimal.isDigit
  if !validInteger integer then none
  else
    match fractionPart (cs.dropWhile Decimal.isDigit) with
    | none => none
    | some (fraction, r) =>
      match exponentPart r with
      | none => none
      | some (power, rest) =>
        some (numberValue negative integer fraction power, rest)

/-- Read a number from its first character. -/
def number (cs : List Char) : Option (Json × List Char) :=
  match cs with
  | '-' :: r => unsigned true r
  | _ => unsigned false cs

theorem length_of_fractionPart {cs digits rest : List Char}
    (h : fractionPart cs = some (digits, rest)) : rest.length ≤ cs.length := by
  unfold fractionPart at h
  split at h
  next r =>
    dsimp only at h
    split at h
    · simp at h
    · have := (List.dropWhile_sublist Decimal.isDigit (l := r)).length_le
      cases h
      simp only [List.length_cons]
      omega
  next =>
    cases h
    exact Nat.le_refl _

theorem length_of_powerPart {cs rest : List Char} {p : Int}
    (h : powerPart cs = some (p, rest)) : rest.length ≤ cs.length := by
  unfold powerPart at h
  split at h
  next sign r hr =>
    have hle : r.length ≤ cs.length := by
      split at hr <;> cases hr <;> simp
    have := (List.dropWhile_sublist Decimal.isDigit (l := r)).length_le
    dsimp only at h
    split at h
    · simp at h
    · cases h
      omega

theorem length_of_exponentPart {cs rest : List Char} {p : Option Int}
    (h : exponentPart cs = some (p, rest)) : rest.length ≤ cs.length := by
  unfold exponentPart at h
  split at h
  · obtain ⟨⟨q, r⟩, hq, he⟩ := Option.map_eq_some_iff.1 h
    have := length_of_powerPart hq
    cases he
    simp only [List.length_cons]
    omega
  · obtain ⟨⟨q, r⟩, hq, he⟩ := Option.map_eq_some_iff.1 h
    have := length_of_powerPart hq
    cases he
    simp only [List.length_cons]
    omega
  · cases h
    exact Nat.le_refl _

theorem length_of_unsigned {negative : Bool} {cs rest : List Char} {v : Json}
    (h : unsigned negative cs = some (v, rest)) : rest.length < cs.length := by
  unfold unsigned at h
  dsimp only at h
  split at h
  · simp at h
  · next hv =>
    have hlt : (cs.dropWhile Decimal.isDigit).length < cs.length := by
      cases cs with
      | nil => simp [validInteger] at hv
      | cons c cs =>
        by_cases hc : Decimal.isDigit c
        · have := (List.dropWhile_sublist Decimal.isDigit (l := cs)).length_le
          simp only [List.dropWhile_cons, hc, if_true, List.length_cons]
          omega
        · simp [hc, validInteger] at hv
    split at h
    · simp at h
    · next hf =>
      have := length_of_fractionPart hf
      split at h
      · simp at h
      · next he =>
        have := length_of_exponentPart he
        cases h
        omega

theorem length_of_number {cs rest : List Char} {v : Json} (h : number cs = some (v, rest)) :
    rest.length < cs.length := by
  unfold number at h
  split at h
  · have := length_of_unsigned h
    simp only [List.length_cons]
    omega
  · exact length_of_unsigned h

/-- Read one of the literal words. -/
def word (cs : List Char) : Option (Json × List Char) :=
  match dropLiteral ['n', 'u', 'l', 'l'] cs with
  | some r => some (.null, r)
  | none =>
    match dropLiteral ['t', 'r', 'u', 'e'] cs with
    | some r => some (.bool true, r)
    | none =>
      match dropLiteral ['f', 'a', 'l', 's', 'e'] cs with
      | some r => some (.bool false, r)
      | none => none

theorem length_of_word {cs rest : List Char} {v : Json} (h : word cs = some (v, rest)) :
    rest.length < cs.length := by
  unfold word at h
  split at h
  next hw =>
    have := length_of_dropLiteral hw
    cases h
    simp only [List.length_cons] at this
    omega
  next =>
    split at h
    next hw =>
      have := length_of_dropLiteral hw
      cases h
      simp only [List.length_cons] at this
      omega
    next =>
      split at h
      next hw =>
        have := length_of_dropLiteral hw
        cases h
        simp only [List.length_cons] at this
        omega
      next => simp at h

/-- Read a word or a number behind any blanks. -/
def scalar (cs : List Char) : Option (Json × Rest cs) :=
  match hw : word (skip cs) with
  | some (v, rest) =>
    some (v, ⟨rest, Nat.lt_of_lt_of_le (length_of_word hw) (length_skip_le cs)⟩)
  | none =>
    match hn : number (skip cs) with
    | some (v, rest) =>
      some (v, ⟨rest, Nat.lt_of_lt_of_le (length_of_number hn) (length_skip_le cs)⟩)
    | none => none

/-- The object with the given fields, which is unusable if a key is. -/
def ofFields (fields : List (Option String × Json)) : Json :=
  match fields.mapM fun (k, v) => k.map fun k => (k, v) with
  | some fields => .obj fields
  | none => .unusable

mutual

/-- Read a value behind any blanks. -/
def value (cs : List Char) : Option (Json × Rest cs) :=
  match token '[' [] cs with
  | .ok ⟨r, hr⟩ =>
    match token ']' [] r with
    | .ok ⟨r', hr'⟩ => some (.arr [], ⟨r', by omega⟩)
    | .error _ =>
      match items r with
      | none => none
      | some (vs, ⟨r', hr'⟩) => some (.arr vs, ⟨r', by omega⟩)
  | .error _ =>
    match token '\x7b' [] cs with
    | .ok ⟨r, hr⟩ =>
      match token '\x7d' [] r with
      | .ok ⟨r', hr'⟩ => some (.obj [], ⟨r', by omega⟩)
      | .error _ =>
        match fields r with
        | none => none
        | some (fs, ⟨r', hr'⟩) => some (ofFields fs, ⟨r', by omega⟩)
    | .error _ =>
      match string cs with
      | some (some s, rest) => some (.str s, rest)
      | some (none, rest) => some (.unusable, rest)
      | none => scalar cs
termination_by (cs.length, 0)
decreasing_by all_goals exact Prod.Lex.left _ _ (by omega)

/-- Read the items of an array and its closing bracket. -/
def items (cs : List Char) : Option (List Json × Rest cs) :=
  match value cs with
  | none => none
  | some (v, ⟨r, hr⟩) =>
    match token ']' [] r with
    | .ok ⟨r', hr'⟩ => some ([v], ⟨r', by omega⟩)
    | .error _ =>
      match token ',' [] r with
      | .error _ => none
      | .ok ⟨r', hr'⟩ =>
        match items r' with
        | none => none
        | some (vs, ⟨r'', hr''⟩) => some (v :: vs, ⟨r'', by omega⟩)
termination_by (cs.length, 1)
decreasing_by
  · exact Prod.Lex.right _ (by omega)
  · exact Prod.Lex.left _ _ (by omega)

/-- Read the fields of an object and its closing brace. -/
def fields (cs : List Char) : Option (List (Option String × Json) × Rest cs) :=
  match string cs with
  | none => none
  | some (key, ⟨r, hr⟩) =>
    match token ':' [] r with
    | .error _ => none
    | .ok ⟨r₁, h₁⟩ =>
      match value r₁ with
      | none => none
      | some (v, ⟨r₂, h₂⟩) =>
        match token '\x7d' [] r₂ with
        | .ok ⟨r₃, h₃⟩ => some ([(key, v)], ⟨r₃, by omega⟩)
        | .error _ =>
          match token ',' [] r₂ with
          | .error _ => none
          | .ok ⟨r₃, h₃⟩ =>
            match fields r₃ with
            | none => none
            | some (fs, ⟨r₄, h₄⟩) => some ((key, v) :: fs, ⟨r₄, by omega⟩)
termination_by (cs.length, 1)
decreasing_by all_goals exact Prod.Lex.left _ _ (by omega)

end

/-- Read a value from the front of a text; the second part tells whether only blanks follow. -/
def readFront (text : String) : Option (Json × Bool) :=
  match value text.toList with
  | some (v, ⟨rest, _⟩) => some (v, (skip rest).isEmpty)
  | none => none

/-- Read a text that holds one value and blanks around it. -/
def read (text : String) : Option Json :=
  match readFront text with
  | some (v, true) => some v
  | _ => none

end Deduction.Json
