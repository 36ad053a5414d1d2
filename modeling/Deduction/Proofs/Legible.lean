import Deduction.Text.Quoted

/-!
# Texts that can be read back

A way of writing values is legible if every text shows what it stands for and
where it ends. Some texts do so whatever stands behind them; names and numerals
do so if an end follows, which is one of a few characters or nothing at all.
Legible texts may be put together: in marks, in lists and one behind the other.
-/

namespace Deduction

/-- The characters that end a name or a numeral. -/
def ends : List Char := [' ', ')', ',', ':', ';', ']', '|', '\x7d']

/-- Whether a text is empty or starts with an end. -/
def Ended (x : List Char) : Prop := ∀ c ∈ x.head?, c ∈ ends

@[simp] theorem ended_nil : Ended [] := by simp [Ended]

@[simp] theorem ended_cons {c : Char} {x : List Char} : Ended (c :: x) ↔ c ∈ ends := by
  simp [Ended]

/-- Whether a text that stands between two others starts with an end. -/
def separates (separator : String) : Bool := separator.toList.head?.any fun c => c ∈ ends

theorem ended_append {separator : String} (h : separates separator = true) (x : List Char) :
    Ended (separator.toList ++ x) := by
  intro c hc
  cases hlist : separator.toList with
  | nil => simp [separates, hlist] at h
  | cons d ds =>
    simp only [hlist, List.cons_append, List.head?_cons, Option.mem_some_iff] at hc
    simpa [separates, hlist, hc] using h

/-- Any text at all. -/
def Anything (_ : List Char) : Prop := True

section Legible

variable {α β : Type} {after : List Char → Prop} {p : α → Prop} {f : α → String}

/-- Whether the text of one value cannot be mistaken for that of another one, with what may
stand behind them. -/
def LegibleAt (after : List Char → Prop) (p : α → Prop) (f : α → String) (a : α) : Prop :=
  ∀ b x y, p b → after x → after y → (f a).toList ++ x = (f b).toList ++ y → a = b ∧ x = y

/-- Whether no text can be mistaken for another one, with what may stand behind them. -/
def Legible (after : List Char → Prop) (p : α → Prop) (f : α → String) : Prop :=
  ∀ a, p a → LegibleAt after p f a

/-- Legible texts that are equal stand for the same. -/
theorem Legible.eq_of_eq (h : Legible Ended p f) {a b : α} (ha : p a) (hb : p b)
    (heq : f a = f b) : a = b :=
  (h a ha b [] [] hb ended_nil ended_nil (by rw [heq])).1

/-- What is legible before anything is legible before an end. -/
theorem Legible.of_anything (h : Legible Anything p f) : Legible after p f :=
  fun a ha b x y hb _ _ => h a ha b x y hb trivial trivial

/-- A legible text before a separator shows what it stands for and what stands behind the
separator. -/
theorem Legible.field_inj (h : Legible Ended (fun _ => True) f) {separator : String}
    (hends : separates separator = true) {a b : α} {x y : List Char}
    (heq : (f a).toList ++ (separator.toList ++ x) = (f b).toList ++ (separator.toList ++ y)) :
    a = b ∧ x = y := by
  obtain ⟨rfl, hrest⟩ := h a trivial b _ _ trivial (ended_append hends x) (ended_append hends y) heq
  exact ⟨rfl, List.append_cancel_left hrest⟩

/-- Whether no text is empty or starts with one of some characters. -/
def Opens (excluded : List Char) (p : α → Prop) (f : α → String) : Prop :=
  ∀ a, p a → ∃ c cs, (f a).toList = c :: cs ∧ c ∉ excluded

theorem exists_cons_of_head? {excluded cs : List Char} {c : Char} (h : cs.head? = some c)
    (hc : c ∉ excluded) : ∃ d ds, cs = d :: ds ∧ d ∉ excluded := by
  obtain ⟨ds, rfl⟩ := List.head?_eq_some_iff.mp h
  exact ⟨c, ds, rfl, hc⟩

/-- What stands behind the first item of a list that is closed by a character. -/
def moreItems (f : α → String) (k : Char) (x : List Char) : List α → List Char
  | [] => k :: x
  | a :: as => ',' :: ' ' :: ((f a).toList ++ moreItems f k x as)

theorem intercalate_cons_append (f : α → String) (k : Char) (x : List Char) (a : α)
    (as : List α) : (String.intercalate ", " ((a :: as).map f)).toList ++ k :: x =
      (f a).toList ++ moreItems f k x as := by
  induction as generalizing a with
  | nil => simp [moreItems]
  | cons b as ih =>
    rw [List.map_cons, List.map_cons, String.intercalate_cons_cons, ← List.map_cons,
      String.toList_append, String.toList_append, List.append_assoc, List.append_assoc, ih b]
    rfl

section Items

variable {k : Char} {as bs : List α} {x y : List Char}

private theorem exists_moreItems_eq (hk : k ∈ ends) (x : List Char) (as : List α) :
    ∃ c ∈ ends, ∃ cs, moreItems f k x as = c :: cs := by
  cases as with
  | nil => exact ⟨k, hk, x, rfl⟩
  | cons a as => exact ⟨',', by decide, _, rfl⟩

/-- Behind an item the number of further items shows, and so does each of them. -/
theorem moreItems_inj (hk : k ∈ ends) (hcomma : k ≠ ',')
    (hafter : ∀ c ∈ ends, ∀ x, after (c :: x)) (has : ∀ a ∈ as, LegibleAt after p f a)
    (hbs : ∀ b ∈ bs, p b) (h : moreItems f k x as = moreItems f k y bs) : as = bs ∧ x = y := by
  have hends : ∀ z (cs : List α), after (moreItems f k z cs) := by
    intro z cs
    obtain ⟨c, hc, _, heq⟩ := exists_moreItems_eq (f := f) hk z cs
    exact heq ▸ hafter c hc _
  induction as generalizing bs with
  | nil =>
    cases bs with
    | nil => exact ⟨rfl, (List.cons.inj h).2⟩
    | cons b bs => exact absurd (List.cons.inj h).1 hcomma
  | cons a as ih =>
    cases bs with
    | nil => exact absurd (List.cons.inj h).1.symm hcomma
    | cons b bs =>
      simp only [moreItems, List.cons.injEq, true_and] at h
      obtain ⟨rfl, hrest⟩ := has a List.mem_cons_self b _ _ (hbs b List.mem_cons_self)
        (hends x as) (hends y bs) h
      obtain ⟨rfl, rfl⟩ := ih (fun c hc => has c (List.mem_cons_of_mem a hc))
        (fun c hc => hbs c (List.mem_cons_of_mem a hc)) hrest
      exact ⟨rfl, rfl⟩

/-- A list of legible texts with commas between them is legible before an end that is no
comma. -/
theorem intercalate_inj (hk : k ∈ ends) (hcomma : k ≠ ',')
    (hafter : ∀ c ∈ ends, ∀ x, after (c :: x)) (hopens : Opens ends p f) (has : ∀ a ∈ as, p a)
    (hlegible : ∀ a ∈ as, LegibleAt after p f a) (hbs : ∀ b ∈ bs, p b)
    (h : (String.intercalate ", " (as.map f)).toList ++ k :: x =
      (String.intercalate ", " (bs.map f)).toList ++ k :: y) : as = bs ∧ x = y := by
  -- No item starts with the character behind the list, so an empty list shows.
  have hempty : ∀ {cs : List α} {c : α} {u v : List Char}, p c →
      k :: u ≠ (f c).toList ++ moreItems f k v cs := by
    intro cs c u v hc heq
    obtain ⟨d, ds, hd, hnot⟩ := hopens c hc
    rw [hd] at heq
    exact hnot ((List.cons.inj heq).1 ▸ hk)
  cases as with
  | nil =>
    cases bs with
    | nil => exact ⟨rfl, (List.cons.inj h).2⟩
    | cons b bs =>
      rw [intercalate_cons_append] at h
      exact absurd h (hempty (hbs b List.mem_cons_self))
  | cons a as =>
    cases bs with
    | nil =>
      rw [intercalate_cons_append] at h
      exact absurd h.symm (hempty (has a List.mem_cons_self))
    | cons b bs =>
      -- The first items are followed by what stands behind a comma and a blank.
      have hmore : moreItems f k x (a :: as) = moreItems f k y (b :: bs) := by
        rw [intercalate_cons_append, intercalate_cons_append] at h
        simp only [moreItems, h]
      exact moreItems_inj hk hcomma hafter hlegible hbs hmore

/-- Texts that are legible before anything may stand one behind the other. -/
theorem join_inj (hk : k ∈ ends) (hopens : Opens ends p f) (hlegible : Legible Anything p f)
    (has : ∀ a ∈ as, p a) (hbs : ∀ b ∈ bs, p b)
    (h : (String.join (as.map f)).toList ++ k :: x = (String.join (bs.map f)).toList ++ k :: y) :
    as = bs ∧ x = y := by
  simp only [String.toList_join, List.flatMap_map] at h
  induction as generalizing bs with
  | nil =>
    cases bs with
    | nil => exact ⟨rfl, (List.cons.inj h).2⟩
    | cons b bs =>
      obtain ⟨d, ds, hd, hnot⟩ := hopens b (hbs b List.mem_cons_self)
      simp only [List.flatMap_nil, List.flatMap_cons, hd] at h
      exact absurd ((List.cons.inj h).1 ▸ hk) hnot
  | cons a as ih =>
    have ha := has a List.mem_cons_self
    cases bs with
    | nil =>
      obtain ⟨d, ds, hd, hnot⟩ := hopens a ha
      simp only [List.flatMap_nil, List.flatMap_cons, hd] at h
      exact absurd ((List.cons.inj h).1 ▸ hk) hnot
    | cons b bs =>
      simp only [List.flatMap_cons, List.append_assoc] at h
      obtain ⟨rfl, hrest⟩ := hlegible a ha b _ _ (hbs b List.mem_cons_self) trivial trivial h
      obtain ⟨rfl, rfl⟩ := ih (fun c hc => has c (List.mem_cons_of_mem a hc))
        (fun c hc => hbs c (List.mem_cons_of_mem a hc)) hrest
      exact ⟨rfl, rfl⟩

end Items

end Legible

/-- Two texts have the same longest start of characters of one kind. -/
theorem append_inj_of_head {q : Char → Prop} {as bs x y : List Char} (has : ∀ c ∈ as, q c)
    (hbs : ∀ c ∈ bs, q c) (hx : ∀ c ∈ x.head?, ¬ q c) (hy : ∀ c ∈ y.head?, ¬ q c)
    (h : as ++ x = bs ++ y) : as = bs ∧ x = y := by
  induction as generalizing bs with
  | nil =>
    cases bs with
    | nil => exact ⟨rfl, h⟩
    | cons b bs =>
      rw [List.nil_append] at h
      exact absurd (hbs b List.mem_cons_self) (hx b (by rw [h]; rfl))
  | cons a as ih =>
    cases bs with
    | nil =>
      rw [List.nil_append] at h
      exact absurd (has a List.mem_cons_self) (hy a (by rw [← h]; rfl))
    | cons b bs =>
      obtain ⟨rfl, hrest⟩ := List.cons.inj h
      obtain ⟨rfl, rfl⟩ := ih (fun c hc => has c (List.mem_cons_of_mem a hc))
        (fun c hc => hbs c (List.mem_cons_of_mem a hc)) hrest
      exact ⟨rfl, rfl⟩

section Numerals

/-- The recursion by which numerals are written to a base. -/
def Positional (base : Nat) (digits : Nat → List Char) : Prop :=
  ∀ n, digits n =
    if n < base then [Nat.digitChar n] else digits (n / base) ++ [Nat.digitChar (n % base)]

theorem digitChar_inj : ∀ m < 16, ∀ n < 16, Nat.digitChar m = Nat.digitChar n → m = n := by
  decide

variable {base : Nat} {digits : Nat → List Char}

/-- Only digits of the base are written. -/
theorem Positional.exists_digitChar (h : Positional base digits) (hbase : 2 ≤ base) (n : Nat) :
    ∀ c ∈ digits n, ∃ k < base, c = Nat.digitChar k := by
  induction n using Nat.strongRecOn with
  | ind n ih =>
    intro c hc
    rw [h n] at hc
    split at hc
    next hn => exact ⟨n, hn, List.mem_singleton.mp hc⟩
    next hn =>
      rcases List.mem_append.mp hc with hc | hc
      · exact ih (n / base) (Nat.div_lt_self (by omega) hbase) c hc
      · exact ⟨n % base, Nat.mod_lt n (by omega), List.mem_singleton.mp hc⟩

theorem Positional.ne_nil (h : Positional base digits) (n : Nat) : digits n ≠ [] := by
  rw [h n]
  split <;> simp

/-- Different numbers have different numerals. -/
theorem Positional.injective (h : Positional base digits) (hbase : 2 ≤ base) (hle : base ≤ 16)
    {m n : Nat} (heq : digits m = digits n) : m = n := by
  induction m using Nat.strongRecOn generalizing n with
  | ind m ih =>
    rw [h m, h n] at heq
    split at heq <;> split at heq
    next hm hn =>
      exact digitChar_inj m (by omega) n (by omega) (List.cons.inj heq).1
    next hm hn =>
      have hlength := congrArg List.length heq
      have hpos := List.length_pos_iff.mpr (h.ne_nil (n / base))
      simp only [List.length_append, List.length_singleton] at hlength
      omega
    next hm hn =>
      have hlength := congrArg List.length heq
      have hpos := List.length_pos_iff.mpr (h.ne_nil (m / base))
      simp only [List.length_append, List.length_singleton] at hlength
      omega
    next hm hn =>
      obtain ⟨hdiv, hmod⟩ := List.append_inj' heq rfl
      have hquotient := ih (m / base) (Nat.div_lt_self (by omega) hbase) hdiv
      have hrest := digitChar_inj _ (Nat.lt_of_lt_of_le (Nat.mod_lt m (by omega)) hle) _
        (Nat.lt_of_lt_of_le (Nat.mod_lt n (by omega)) hle) (List.cons.inj hmod).1
      rw [← Nat.div_add_mod m base, ← Nat.div_add_mod n base, hquotient, hrest]

end Numerals

theorem Decimal.positional_digits : Positional 10 digits := fun n => by rw [digits]

theorem Quoted.positional_hexDigits : Positional 16 hexDigits := fun n => by rw [hexDigits]

/-- No digit is an end. -/
theorem Decimal.notMem_ends_of_mem_digits {n : Nat} {c : Char} (hc : c ∈ digits n) : c ∉ ends := by
  have hdigit : ∀ k < 10, Nat.digitChar k ∉ ends := by decide
  obtain ⟨k, hk, rfl⟩ := positional_digits.exists_digitChar (by decide) n c hc
  exact hdigit k hk

/-- A number is legible before an end. -/
theorem Decimal.legible_render : Legible Ended (fun _ => True) render := by
  intro m _ n x y _ hx hy h
  simp only [render, String.toList_ofList] at h
  obtain ⟨hdigits, hrest⟩ := append_inj_of_head (q := (· ∉ ends))
    (fun _ => notMem_ends_of_mem_digits) (fun _ => notMem_ends_of_mem_digits)
    (fun c hc hnot => hnot (hx c hc)) (fun c hc hnot => hnot (hy c hc)) h
  exact ⟨positional_digits.injective (by decide) (by decide) hdigits, hrest⟩

/-- Different numbers have different texts. -/
theorem Decimal.render_inj {m n : Nat} : render m = render n ↔ m = n :=
  ⟨legible_render.eq_of_eq trivial trivial, congrArg render⟩

/-- Numbers behind a text tell names apart. -/
theorem Decimal.numbered_injective (base : String) :
    Function.Injective fun k : Nat => base ++ render k := by
  intro m n h
  have hlist := congrArg String.toList h
  simp only [String.toList_append, List.append_cancel_left_eq, String.toList_inj] at hlist
  exact render_inj.mp hlist

theorem Decimal.ne_underscore_of_mem_digits {n : Nat} {c : Char} (hc : c ∈ digits n) :
    c ≠ '_' := by
  have hdigit : ∀ k < 10, Nat.digitChar k ≠ '_' := by decide
  obtain ⟨k, hk, rfl⟩ := positional_digits.exists_digitChar (by decide) n c hc
  exact hdigit k hk

/-- Names with a number behind an underscore differ in what stands before it or in the number. -/
theorem Decimal.underscored_inj {x y : String} {m n : Nat}
    (h : x ++ "_" ++ render m = y ++ "_" ++ render n) : x = y ∧ m = n := by
  -- Read from the end, the number stops at the underscore.
  have hback := congrArg (fun s : String => s.toList.reverse) h
  simp only [render, String.toList_append, String.toList_ofList, List.reverse_append] at hback
  obtain ⟨hdigits, hrest⟩ := append_inj_of_head (q := (· ≠ '_'))
    (fun _ hc => ne_underscore_of_mem_digits (List.mem_reverse.mp hc))
    (fun _ hc => ne_underscore_of_mem_digits (List.mem_reverse.mp hc)) (by simp) (by simp) hback
  refine ⟨?_, positional_digits.injective (by decide) (by decide) (List.reverse_inj.mp hdigits)⟩
  exact String.toList_inj.mp (List.reverse_inj.mp (List.append_cancel_left hrest))

end Deduction
