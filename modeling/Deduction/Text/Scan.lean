/-!
# Scanning text

A scanner reads from the front of a text and hands on what is left. What is left
is shorter than what was there, and the type says so, which is why the parsers
built from scanners terminate. A failed scan hands on the text at the place
where it failed. Space, tab, carriage return and line feed may stand before
every token.
-/

namespace Deduction.Scan

/-- What is left of a text after something was read from it. -/
abbrev Rest (cs : List Char) := { rest : List Char // rest.length < cs.length }

/-- What is left of a text after something or nothing was read from it. -/
abbrev Remainder (cs : List Char) := { rest : List Char // rest.length ≤ cs.length }

/-- Nothing was read from a text. -/
def Remainder.whole (cs : List Char) : Remainder cs := ⟨cs, Nat.le_refl _⟩

/-- What is left of the rest of a text is left of the text. -/
theorem length_lt_trans {cs r r' : List Char} (h : r.length < cs.length)
    (h' : r'.length < r.length) : r'.length < cs.length := Nat.lt_trans h' h

/-- What is left behind a separator, an item and more items is left of the text. -/
theorem length_le_of_lt_of_lt {cs r r' r'' : List Char} (h : r.length < cs.length)
    (h' : r'.length < r.length) (h'' : r''.length ≤ r'.length) : r''.length ≤ cs.length :=
  Nat.le_trans h'' (Nat.le_of_lt (length_lt_trans h h'))

/-- A value and the rest of the text, or the text at the place of failure. -/
abbrev Result (α : Type) (cs : List Char) := Except (List Char) (α × Rest cs)

/-- Whether a character is a blank between tokens. -/
def isBlank (c : Char) : Bool := c == ' ' || c == '\t' || c == '\r' || c == '\n'

/-- The text without leading blanks. -/
def skip (cs : List Char) : List Char := cs.dropWhile isBlank

theorem length_lt_of_dropWhile_eq {p : Char → Bool} {cs rest : List Char} {c : Char}
    (h : cs.dropWhile p = c :: rest) : rest.length < cs.length := by
  have := (List.dropWhile_sublist p (l := cs)).length_le
  rw [h] at this
  exact this

theorem length_skip_le (cs : List Char) : (skip cs).length ≤ cs.length :=
  (List.dropWhile_sublist isBlank).length_le

theorem length_lt_of_skip_eq {cs rest : List Char} {c : Char} (h : skip cs = c :: rest) :
    rest.length < cs.length := length_lt_of_dropWhile_eq h

/-- The text behind a literal that it starts with. -/
def dropLiteral : List Char → List Char → Option (List Char)
  | [], cs => some cs
  | l :: ls, c :: cs => if l = c then dropLiteral ls cs else none
  | _ :: _, [] => none

theorem length_of_dropLiteral {lit cs rest : List Char} (h : dropLiteral lit cs = some rest) :
    lit.length + rest.length = cs.length := by
  induction lit generalizing cs with
  | nil =>
    cases h
    simp
  | cons l ls ih =>
    cases cs with
    | nil => simp [dropLiteral] at h
    | cons c cs =>
      simp only [dropLiteral] at h
      split at h
      · have := ih h
        simp only [List.length_cons]
        omega
      · simp at h

/-- Read a token, given by its first character and the others, behind any blanks. -/
def token (c : Char) (more : List Char) (cs : List Char) : Except (List Char) (Rest cs) :=
  match h : dropLiteral (c :: more) (skip cs) with
  | some rest => .ok ⟨rest, by
      have := length_of_dropLiteral h
      have := length_skip_le cs
      simp only [List.length_cons] at *
      omega⟩
  | none => .error (skip cs)

/-- Read separated items behind a first one, as long as a separator with an item follows. A
separator without an item is left unread. -/
def listTail {α : Type} (sep : (cs : List Char) → Except (List Char) (Rest cs))
    (item : (cs : List Char) → Result α cs) (cs : List Char) : List α × Remainder cs :=
  match sep cs with
  | .error _ => ([], .whole cs)
  | .ok ⟨r, hr⟩ =>
    match item r with
    | .error _ => ([], .whole cs)
    | .ok (x, ⟨r', hr'⟩) =>
      let (xs, ⟨r'', hr''⟩) := listTail sep item r'
      (x :: xs, ⟨r'', length_le_of_lt_of_lt hr hr' hr''⟩)
termination_by cs.length
decreasing_by omega

/-- Read one or more separated items. -/
def list1 {α : Type} (sep : (cs : List Char) → Except (List Char) (Rest cs))
    (item : (cs : List Char) → Result α cs) (cs : List Char) : Result (List α) cs :=
  match item cs with
  | .error e => .error e
  | .ok (x, ⟨r, hr⟩) =>
    let (xs, ⟨r', hr'⟩) := listTail sep item r
    .ok (x :: xs, ⟨r', by omega⟩)

/-- Read separated items, none if there is no first one. -/
def list0 {α : Type} (sep : (cs : List Char) → Except (List Char) (Rest cs))
    (item : (cs : List Char) → Result α cs) (cs : List Char) : List α × Remainder cs :=
  match list1 sep item cs with
  | .error _ => ([], .whole cs)
  | .ok (xs, ⟨r, hr⟩) => (xs, ⟨r, Nat.le_of_lt hr⟩)

/-- A scan of a whole text: only blanks may be left over. -/
def finish {α : Type} : Except (List Char) (α × List Char) → Except (List Char) α
  | .error e => .error e
  | .ok (x, rest) => if (skip rest).isEmpty then .ok x else .error (skip rest)

/-- A scan without the bound on what is left. -/
def Result.plain {α : Type} {cs : List Char} : Result α cs → Except (List Char) (α × List Char)
  | .error e => .error e
  | .ok (x, rest) => .ok (x, rest.1)

end Deduction.Scan
