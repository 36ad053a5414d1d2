import Deduction.Json.Read
import Deduction.Json.Write
import Deduction.Proofs.Grammar.RoundTrip
import Mathlib.Data.List.Forall2

/-!
# Reading back JSON values

The text of a value without decimals and unusable literals is read up to its end and no
further, as long as a comma, a closing bracket or nothing stands behind it. What is read
has the same form. If the numbers in it have at most 64 bits, it is the value itself.
-/

namespace Deduction

/-! ### Numbers -/

namespace Decimal

private theorem isDigit_of_mem_digits {n : Nat} {c : Char} (hc : c ∈ digits n) :
    isDigit c = true := by
  have hdigit : ∀ k < 10, isDigit (Nat.digitChar k) = true := by decide
  obtain ⟨k, hk, rfl⟩ := positional_digits.exists_digitChar (by decide) n c hc
  exact hdigit k hk

theorem ofDigits_concat (cs : List Char) (c : Char) :
    ofDigits (cs ++ [c]) = 10 * ofDigits cs + value c := by
  rw [ofDigits, List.foldl_append]
  rfl

/-- A number is what its digits stand for. -/
theorem ofDigits_digits (n : Nat) : ofDigits (digits n) = n := by
  have hvalue : ∀ k < 10, value (Nat.digitChar k) = k := by decide
  induction n using digits.induct with
  | case1 n hn =>
    rw [digits, if_pos hn, ← List.nil_append [Nat.digitChar n], ofDigits_concat, hvalue n hn]
    exact Nat.zero_add n
  | case2 n hn ih =>
    rw [digits, if_neg hn, ofDigits_concat, ih, hvalue _ (Nat.mod_lt n (by decide))]
    exact Nat.div_add_mod n 10

private theorem head?_digits_ne {n : Nat} (hn : n ≠ 0) : (digits n).head? ≠ some '0' := by
  have hdigit : ∀ k < 10, k ≠ 0 → Nat.digitChar k ≠ '0' := by decide
  induction n using digits.induct with
  | case1 n hlt =>
    rw [digits, if_pos hlt]
    simpa using hdigit n hlt hn
  | case2 n hge ih =>
    obtain ⟨c, cs, hcs⟩ := List.exists_cons_of_ne_nil (positional_digits.ne_nil (n / 10))
    have hhead := ih (by omega)
    rw [hcs, List.head?_cons] at hhead
    rwa [digits, if_neg hge, hcs, List.cons_append, List.head?_cons]

end Decimal

namespace Json

open Scan Grammar

private theorem validInteger_digits (n : Nat) : validInteger (Decimal.digits n) = true := by
  by_cases hn : n = 0
  · rw [hn, Decimal.digits]
    rfl
  · have hhead := Decimal.head?_digits_ne hn
    cases hdigits : Decimal.digits n with
    | nil => exact absurd hdigits (Decimal.positional_digits.ne_nil n)
    | cons c cs =>
      have hc : c ≠ '0' := fun he => hhead (by rw [hdigits, he]; rfl)
      rw [validInteger]
      · simpa using hc
      · intro he
        exact absurd he hc

/-- Digits only make a number larger. -/
theorem le_foldl_digits (s : Nat) (cs : List Char) :
    s ≤ cs.foldl (fun n c => 10 * n + Decimal.value c) s := by
  induction cs generalizing s with
  | nil => exact Nat.le_refl s
  | cons c cs ih =>
    have := ih (10 * s + Decimal.value c)
    rw [List.foldl_cons]
    omega

/-- All digits are collected if the number fits. -/
theorem collectInteger_eq (s : Nat) (cs : List Char)
    (h : cs.foldl (fun n c => 10 * n + Decimal.value c) s < UInt64.size) :
    collectInteger s cs = (cs.foldl (fun n c => 10 * n + Decimal.value c) s, 0) := by
  induction cs generalizing s with
  | nil => rfl
  | cons c cs ih =>
    rw [List.foldl_cons] at h ⊢
    have hlt : 10 * s + Decimal.value c < UInt64.size := (le_foldl_digits _ cs).trans_lt h
    rw [collectInteger, if_pos hlt, ih _ h]

/-- Rounding at most doubles a number. -/
theorem round53_le (n : Nat) : round53 n ≤ 2 * n := by
  by_cases hn : n = 0
  · subst hn
    decide
  · have hunit : 1 <<< (n.log2 - 52) ≤ n := by
      rw [Nat.one_shiftLeft]
      exact (Nat.pow_le_pow_right (by decide) (Nat.sub_le _ _)).trans (Nat.log2_self_le hn)
    have hfloor := Nat.div_mul_le_self n (1 <<< (n.log2 - 52))
    rw [round53]
    split
    · rw [Nat.add_mul, Nat.one_mul]
      omega
    · omega

private theorem outOfRange_digits {n : Nat} (hn : n < UInt64.size) :
    outOfRange (Decimal.digits n) [] 0 = false := by
  have hcollect : collectInteger 0 (Decimal.digits n) = (n, 0) := by
    have hvalue : (Decimal.digits n).foldl (fun n c => 10 * n + Decimal.value c) 0 = n :=
      Decimal.ofDigits_digits n
    rw [collectInteger_eq _ _ (by rwa [hvalue]), hvalue]
  have hfinite : ¬ infinity ≤ round53 n * round53 (Nat.pow 10 0) := by
    have hone : round53 (Nat.pow 10 0) = 1 := by decide
    have hlarge : 2 * UInt64.size ≤ infinity := by decide
    have hround := round53_le n
    rw [hone, Nat.mul_one]
    omega
  simp only [outOfRange, hcollect, collectFraction]
  change (n != 0 && (decide (308 < 0) || decide (infinity ≤ _))) = false
  rw [decide_eq_false hfinite]
  exact Bool.and_false (n != 0)

/-- A text that may stand behind a value: nothing, or one that starts with a comma or a closing
bracket. -/
def Follows (rest : List Char) : Prop := ∀ c ∈ rest.head?, c = ',' ∨ c = ']' ∨ c = '\x7d'

theorem Follows.cons {c : Char} {cs : List Char} (h : Follows (c :: cs)) :
    c = ',' ∨ c = ']' ∨ c = '\x7d' :=
  h c rfl

theorem numberValue_digits {n : Nat} (hn : n < UInt64.size) :
    numberValue false (Decimal.digits n) [] none = .nat n := by
  simp [numberValue, outOfRange_digits hn, Decimal.ofDigits_digits]

/-- Digits are read as a number, which ends where they do. -/
theorem unsigned_digits (n : Nat) {rest : List Char} (hrest : Follows rest) :
    unsigned false (Decimal.digits n ++ rest) =
      some (numberValue false (Decimal.digits n) [] none, rest) := by
  have hdigits : ∀ c ∈ Decimal.digits n, Decimal.isDigit c = true :=
    fun c hc => Decimal.isDigit_of_mem_digits hc
  have hstop : rest.takeWhile Decimal.isDigit = [] ∧ rest.dropWhile Decimal.isDigit = rest ∧
      fractionPart rest = some ([], rest) ∧ exponentPart rest = some (none, rest) := by
    cases rest with
    | nil => exact ⟨rfl, rfl, rfl, rfl⟩
    | cons c cs => rcases hrest.cons with rfl | rfl | rfl <;> exact ⟨rfl, rfl, rfl, rfl⟩
  obtain ⟨htake, hdrop, hfraction, hexponent⟩ := hstop
  simp only [unsigned, List.takeWhile_append_of_pos hdigits, htake, List.append_nil,
    validInteger_digits, List.dropWhile_append_of_pos hdigits, hdrop, hfraction, hexponent]
  rfl

/-! ### Strings -/

/-- A control character is read from its escape. -/
theorem escape_control {c : Char} (hc : c.toNat < 0x20) (cs : List Char) :
    escape ('u' :: '0' :: '0' :: hexDigit (c.toNat / 16) :: hexDigit c.toNat :: cs) =
      some (some c, cs) := by
  have hdigits : ∀ n < 0x20, hexValue (hexDigit (n / 16)) = some (n / 16) ∧
      hexValue (hexDigit n) = some (n % 16) := by decide
  have hzero : hexValue '0' = some 0 := by decide
  have hread : hex4 ('0' :: '0' :: hexDigit (c.toNat / 16) :: hexDigit c.toNat :: cs) =
      some (c.toNat, cs) := by
    obtain ⟨hhigh, hlow⟩ := hdigits c.toNat hc
    have hsum : ((0 * 16 + 0) * 16 + c.toNat / 16) * 16 + c.toNat % 16 = c.toNat := by omega
    simp only [hex4, hzero, hhigh, hlow, bind, Option.bind_some, pure, hsum]
  have hhigh : (decide (0xD800 ≤ c.toNat) && decide (c.toNat ≤ 0xDBFF)) = false := by
    simp only [Bool.and_eq_false_iff, decide_eq_false_iff_not]
    omega
  have hlow : (decide (0xDC00 ≤ c.toNat) && decide (c.toNat ≤ 0xDFFF)) = false := by
    simp only [Bool.and_eq_false_iff, decide_eq_false_iff_not]
    omega
  simp only [escape, hread, hhigh, hlow, Char.ofNat_toNat, Bool.false_eq_true, if_false]

/-- A character is read from what is written for it. -/
theorem stringBody_escapeChar (back : List Char) (c : Char) (cs : List Char) :
    stringBody (some back) (escapeChar c ++ cs) = stringBody (some (c :: back)) cs := by
  have escaped {d : Char} {ds : List Char} (h : escape (d :: ds) = some (some c, cs)) :
      stringBody (some back) ('\\' :: d :: ds) = stringBody (some (c :: back)) cs := by
    rw [stringBody]
    split
    next hnone => cases h.symm.trans hnone
    next hsome =>
      cases h.symm.trans hsome
      rfl
  unfold escapeChar
  split_ifs with hquote hslash hback hfeed hline hreturn htab hcontrol
  · exact escaped (by rw [hquote]; rfl)
  · exact escaped (by rw [hslash]; rfl)
  · exact escaped (by rw [hback]; rfl)
  · exact escaped (by rw [hfeed]; rfl)
  · exact escaped (by rw [hline]; rfl)
  · exact escaped (by rw [hreturn]; rfl)
  · exact escaped (by rw [htab]; rfl)
  · exact escaped (escape_control hcontrol cs)
  · rw [List.singleton_append, stringBody, if_neg hcontrol]
    · rfl
    · exact hquote
    · exact hslash

/-- What is written between quotation marks is read as the string. -/
theorem stringBody_flatMap (back cs rest : List Char) :
    stringBody (some back) (cs.flatMap escapeChar ++ '"' :: rest) =
      some (some (String.ofList (back.reverse ++ cs)), rest) := by
  induction cs generalizing back with
  | nil => simp [stringBody]
  | cons c cs ih =>
    rw [List.flatMap_cons, List.append_assoc, stringBody_escapeChar, ih, List.reverse_cons,
      List.append_assoc]
    rfl

theorem quote_eq_cons (s : String) (rest : List Char) :
    (quote s).toList ++ rest = '"' :: (s.toList.flatMap escapeChar ++ '"' :: rest) := by
  simp [quote]

theorem string_quote (s : String) (rest : List Char) :
    ∃ hlt, string ((quote s).toList ++ rest) = some (some s, ⟨rest, hlt⟩) := by
  have hlt : rest.length < ((quote s).toList ++ rest).length := by
    rw [quote_eq_cons]
    simp only [List.length_cons, List.length_append]
    omega
  refine ⟨hlt, ?_⟩
  have hbody : stringBody (some []) (s.toList.flatMap escapeChar ++ '"' :: rest) =
      some (some s, rest) := by
    rw [stringBody_flatMap, List.reverse_nil, List.nil_append, String.ofList_toList]
  have hskip : skip ((quote s).toList ++ rest) =
      '"' :: (s.toList.flatMap escapeChar ++ '"' :: rest) := by
    rw [quote_eq_cons]
    exact skip_cons (by decide) _
  rw [string]
  split
  next r hr =>
    cases hskip.symm.trans hr
    split
    next hnone => cases hbody.symm.trans hnone
    next hsome =>
      cases hbody.symm.trans hsome
      rfl
  next hno => exact absurd hskip (hno _)

/-! ### Values -/

/-- Values that are written in full: there are no decimals and unusable literals. -/
inductive Plain : Json → Prop
  | null : Plain .null
  | bool (b : Bool) : Plain (.bool b)
  | nat (n : Nat) : Plain (.nat n)
  | str (s : String) : Plain (.str s)
  | arr {items : List Json} (h : ∀ v ∈ items, Plain v) : Plain (.arr items)
  | obj {fields : List (String × Json)} (h : ∀ f ∈ fields, Plain f.2) : Plain (.obj fields)

/-- Values that are written without loss: in addition numbers have at most 64 bits. -/
inductive Lossless : Json → Prop
  | null : Lossless .null
  | bool (b : Bool) : Lossless (.bool b)
  | nat {n : Nat} (hn : n < UInt64.size) : Lossless (.nat n)
  | str (s : String) : Lossless (.str s)
  | arr {items : List Json} (h : ∀ v ∈ items, Lossless v) : Lossless (.arr items)
  | obj {fields : List (String × Json)} (h : ∀ f ∈ fields, Lossless f.2) : Lossless (.obj fields)

theorem Lossless.plain {v : Json} (h : v.Lossless) : v.Plain := by
  induction h with
  | null => exact .null
  | bool b => exact .bool b
  | nat => exact .nat _
  | str s => exact .str s
  | arr _ ih => exact .arr ih
  | obj _ ih => exact .obj ih

/-- Whether another value is read from the text of a value, before what may follow. -/
def ReadAs (v w : Json) : Prop :=
  ∀ rest, Follows rest → ∃ hlt, value (v.render.toList ++ rest) = some (w, ⟨rest, hlt⟩)

/-- Whether a field is read as another one, which has the same name. -/
def FieldReadAs (f g : String × Json) : Prop := f.1 = g.1 ∧ f.2.ReadAs g.2

theorem exists_forall₂ {α β : Type} {R : α → β → Prop} {xs : List α}
    (h : ∀ x ∈ xs, ∃ y, R x y) : ∃ ys, List.Forall₂ R xs ys := by
  induction xs with
  | nil => exact ⟨[], .nil⟩
  | cons x xs ih =>
    obtain ⟨hx, hxs⟩ := List.forall_mem_cons.mp h
    obtain ⟨y, hy⟩ := hx
    obtain ⟨ys, hys⟩ := ih hxs
    exact ⟨y :: ys, .cons hy hys⟩

theorem exists_fieldReadAs {fs : List (String × Json)} (h : ∀ f ∈ fs, ∃ w, f.2.ReadAs w) :
    ∃ gs, List.Forall₂ FieldReadAs fs gs := by
  refine exists_forall₂ fun f hf => ?_
  obtain ⟨w, hw⟩ := h f hf
  exact ⟨(f.1, w), rfl, hw⟩

/-- The first characters of values: none of them is a blank or closes something. -/
def openers : List Char :=
  ['n', 't', 'f', '"', '[', '\x7b', '0', '1', '2', '3', '4', '5', '6', '7', '8', '9']

theorem Plain.render_eq_cons {v : Json} (h : v.Plain) :
    ∃ c cs, v.render.toList = c :: cs ∧ c ∈ openers := by
  cases h with
  | null => exact ⟨'n', _, rfl, by decide⟩
  | bool b => cases b <;> exact ⟨_, _, rfl, by decide⟩
  | nat n =>
    have hdigit : ∀ k < 10, Nat.digitChar k ∈ openers := by decide
    obtain ⟨c, cs, hcs⟩ := List.exists_cons_of_ne_nil (Decimal.positional_digits.ne_nil n)
    obtain ⟨k, hk, rfl⟩ := Decimal.positional_digits.exists_digitChar (by decide) n c
      (by rw [hcs]; exact List.mem_cons_self)
    exact ⟨_, cs, by rw [render, Decimal.render, String.toList_ofList, hcs], hdigit k hk⟩
  | str s =>
    have hquote := quote_eq_cons s []
    rw [List.append_nil] at hquote
    exact ⟨'"', _, hquote, by decide⟩
  | arr _ =>
    rw [render, String.toList_append, String.toList_append]
    exact ⟨'[', _, rfl, by decide⟩
  | obj _ =>
    rw [render, String.toList_append, String.toList_append]
    exact ⟨'\x7b', _, rfl, by decide⟩

/-- What stands behind the first of several texts with commas between them and a closing character
behind them. -/
def following (close : Char) (rest : List Char) : List String → List Char
  | [] => close :: rest
  | t :: ts => ',' :: (t.toList ++ following close rest ts)

theorem intercalate_append (close : Char) (rest : List Char) (t : String) (ts : List String) :
    (String.intercalate "," (t :: ts)).toList ++ close :: rest =
      t.toList ++ following close rest ts := by
  induction ts generalizing t with
  | nil => simp [following]
  | cons u ts ih =>
    rw [String.intercalate_cons_cons, String.toList_append, String.toList_append,
      List.append_assoc, List.append_assoc, ih u]
    rfl

/-- A character is read where it stands. -/
theorem token_cons {c : Char} (hblank : isBlank c = false) (cs : List Char) :
    ∃ hlt, token c [] (c :: cs) = .ok ⟨cs, hlt⟩ :=
  token_eq_ok.mpr (skip_cons hblank cs)

/-- Where a character stands no other one is read. -/
theorem token_cons_ne {c d : Char} (hblank : isBlank c = false) (hne : c ≠ d) (cs : List Char) :
    ∃ e, token d [] (c :: cs) = .error e := by
  refine token_eq_error [] fun e he => ?_
  rw [skip_cons hblank] at he
  cases he
  exact hne

private theorem isBlank_of_mem_openers {c : Char} (hc : c ∈ openers) : isBlank c = false := by
  have hall : (openers.all fun c => !isBlank c) = true := by decide
  simpa using List.all_eq_true.mp hall c hc

/-- A text is not taken for the end of an array or object where a value starts. -/
theorem Plain.token_close {v : Json} (h : v.Plain) {close : Char}
    (hclose : close = ']' ∨ close = '\x7d') (rest : List Char) :
    ∃ e, token close [] (v.render.toList ++ rest) = .error e := by
  obtain ⟨c, cs, hcs, hc⟩ := h.render_eq_cons
  rw [hcs]
  refine token_cons_ne (isBlank_of_mem_openers hc) ?_ _
  rintro rfl
  rcases hclose with rfl | rfl <;> exact absurd hc (by decide)

/-- The items of an array are read up to its end. -/
theorem items_eq {v w : Json} {vs ws : List Json} (hv : v.ReadAs w)
    (hvs : List.Forall₂ ReadAs vs ws) (rest : List Char) :
    ∃ hlt, items (v.render.toList ++ following ']' rest (renderItems vs)) =
      some (w :: ws, ⟨rest, hlt⟩) := by
  induction hvs generalizing v w with
  | nil =>
    rw [renderItems, following]
    obtain ⟨h₁, hv⟩ := hv (']' :: rest) (by simp [Follows])
    obtain ⟨h₂, hclose⟩ := token_cons (c := ']') (by decide) rest
    refine ⟨by omega, ?_⟩
    rw [items]
    simp only [hv, hclose]
  | @cons v' w' vs ws hv' _ ih =>
    have hmore := ih hv'
    rw [renderItems, following]
    generalize v'.render.toList ++ following ']' rest (renderItems vs) = more at hmore ⊢
    obtain ⟨h₁, hv⟩ := hv (',' :: more) (by simp [Follows])
    obtain ⟨e, hno⟩ := token_cons_ne (c := ',') (d := ']') (by decide) (by decide) more
    obtain ⟨h₂, hcomma⟩ := token_cons (c := ',') (by decide) more
    obtain ⟨h₃, hmore⟩ := hmore
    refine ⟨by omega, ?_⟩
    rw [items]
    simp only [hv, hno, hcomma, hmore]

/-- A field consists of a key, a colon and a value. -/
theorem field_append (k : String) (v : Json) (rest : List Char) :
    (quote k ++ ":" ++ v.render).toList ++ rest =
      (quote k).toList ++ ':' :: (v.render.toList ++ rest) := by
  simp

/-- The fields of an object are read up to its end. -/
theorem fields_eq {k : String} {v w : Json} {fs gs : List (String × Json)} (hv : v.ReadAs w)
    (hfs : List.Forall₂ FieldReadAs fs gs) (rest : List Char) :
    ∃ hlt, fields ((quote k ++ ":" ++ v.render).toList ++ following '\x7d' rest (renderFields fs)) =
      some (((k, w) :: gs).map fun f => (some f.1, f.2), ⟨rest, hlt⟩) := by
  induction hfs generalizing k v w with
  | nil =>
    rw [renderFields, following, field_append]
    obtain ⟨h₁, hkey⟩ := string_quote k (':' :: (v.render.toList ++ '\x7d' :: rest))
    obtain ⟨h₂, hcolon⟩ := token_cons (c := ':') (by decide) (v.render.toList ++ '\x7d' :: rest)
    obtain ⟨h₃, hvalue⟩ := hv ('\x7d' :: rest) (by simp [Follows])
    obtain ⟨h₄, hclose⟩ := token_cons (c := '\x7d') (by decide) rest
    refine ⟨by omega, ?_⟩
    rw [fields]
    simp only [hkey, hcolon, hvalue, hclose, List.map_cons, List.map_nil]
  | @cons f g fs gs hfg _ ih =>
    obtain ⟨f, v'⟩ := f
    obtain ⟨_, w'⟩ := g
    obtain ⟨rfl, hv'⟩ := hfg
    have hmore := ih (k := f) hv'
    rw [renderFields, following, field_append]
    generalize (quote f ++ ":" ++ v'.render).toList ++ following '\x7d' rest (renderFields fs) =
      more at hmore ⊢
    obtain ⟨h₁, hkey⟩ := string_quote k (':' :: (v.render.toList ++ ',' :: more))
    obtain ⟨h₂, hcolon⟩ := token_cons (c := ':') (by decide) (v.render.toList ++ ',' :: more)
    obtain ⟨h₃, hvalue⟩ := hv (',' :: more) (by simp [Follows])
    obtain ⟨e, hno⟩ := token_cons_ne (c := ',') (d := '\x7d') (by decide) (by decide) more
    obtain ⟨h₄, hcomma⟩ := token_cons (c := ',') (by decide) more
    obtain ⟨h₅, hmore⟩ := hmore
    refine ⟨by omega, ?_⟩
    rw [fields]
    simp only [hkey, hcolon, hvalue, hno, hcomma, hmore, List.map_cons]

theorem readAs_arr {vs ws : List Json} (hplain : ∀ v ∈ vs, v.Plain)
    (h : List.Forall₂ ReadAs vs ws) : (Json.arr vs).ReadAs (.arr ws) := by
  intro rest _
  cases h with
  | nil =>
    have htext : (Json.arr []).render.toList ++ rest = '[' :: ']' :: rest := by
      simp [render, renderItems]
    rw [htext]
    obtain ⟨h₁, hopen⟩ := token_cons (c := '[') (by decide) (']' :: rest)
    obtain ⟨h₂, hclose⟩ := token_cons (c := ']') (by decide) rest
    refine ⟨by omega, ?_⟩
    rw [value]
    simp only [hopen, hclose]
  | @cons v w vs ws hv hvs =>
    have htext : (Json.arr (v :: vs)).render.toList ++ rest =
        '[' :: (v.render.toList ++ following ']' rest (renderItems vs)) := by
      rw [← intercalate_append]
      simp [render, renderItems]
    rw [htext]
    obtain ⟨h₁, hopen⟩ := token_cons (c := '[') (by decide)
      (v.render.toList ++ following ']' rest (renderItems vs))
    obtain ⟨e, hno⟩ := (hplain v List.mem_cons_self).token_close (.inl rfl)
      (following ']' rest (renderItems vs))
    obtain ⟨h₂, hitems⟩ := items_eq hv hvs rest
    refine ⟨by omega, ?_⟩
    rw [value]
    simp only [hopen, hno, hitems]

/-- An object whose keys have been read is usable. -/
theorem ofFields_map (fs : List (String × Json)) :
    ofFields (fs.map fun f => (some f.1, f.2)) = .obj fs := by
  have hkeys : (fs.map fun f => (some f.1, f.2)).mapM
      (fun p : Option String × Json => p.1.map fun k => (k, p.2)) = some fs := by
    induction fs with
    | nil => rfl
    | cons f fs ih =>
      rw [List.map_cons, List.mapM_cons, ih]
      rfl
  rw [ofFields, hkeys]

theorem readAs_obj {fs gs : List (String × Json)} (h : List.Forall₂ FieldReadAs fs gs) :
    (Json.obj fs).ReadAs (.obj gs) := by
  intro rest _
  cases h with
  | nil =>
    have htext : (Json.obj []).render.toList ++ rest = '\x7b' :: '\x7d' :: rest := by
      simp [render, renderFields]
    rw [htext]
    obtain ⟨e, hno⟩ := token_cons_ne (c := '\x7b') (d := '[') (by decide) (by decide)
      ('\x7d' :: rest)
    obtain ⟨h₁, hopen⟩ := token_cons (c := '\x7b') (by decide) ('\x7d' :: rest)
    obtain ⟨h₂, hclose⟩ := token_cons (c := '\x7d') (by decide) rest
    refine ⟨by omega, ?_⟩
    rw [value]
    simp only [hno, hopen, hclose]
  | @cons f g fs gs hfg hfs =>
    obtain ⟨k, v⟩ := f
    obtain ⟨_, w⟩ := g
    obtain ⟨rfl, hv⟩ := hfg
    have hfields := fields_eq (k := k) hv hfs rest
    have hnoClose : ∃ e, token '\x7d' [] ((quote k ++ ":" ++ v.render).toList ++
        following '\x7d' rest (renderFields fs)) = .error e := by
      rw [field_append, quote_eq_cons]
      exact token_cons_ne (by decide) (by decide) _
    have htext : (Json.obj ((k, v) :: fs)).render.toList ++ rest = '\x7b' ::
        ((quote k ++ ":" ++ v.render).toList ++ following '\x7d' rest (renderFields fs)) := by
      rw [← intercalate_append]
      simp [render, renderFields]
    rw [htext]
    generalize (quote k ++ ":" ++ v.render).toList ++ following '\x7d' rest (renderFields fs) =
      inside at hfields hnoClose ⊢
    obtain ⟨e₁, hnoArray⟩ := token_cons_ne (c := '\x7b') (d := '[') (by decide) (by decide) inside
    obtain ⟨h₁, hopen⟩ := token_cons (c := '\x7b') (by decide) inside
    obtain ⟨e₂, hnoClose⟩ := hnoClose
    obtain ⟨h₂, hfields⟩ := hfields
    refine ⟨by omega, ?_⟩
    rw [value]
    simp only [hnoArray, hopen, hnoClose, hfields, ofFields_map]

/-- Where no bracket and no quotation mark stands, a word or a number is read. -/
theorem value_eq_scalar {c : Char} (hblank : isBlank c = false)
    (hc : c ∉ ['[', '\x7b', '"']) (cs : List Char) : value (c :: cs) = scalar (c :: cs) := by
  simp only [List.mem_cons, List.not_mem_nil, or_false, not_or] at hc
  obtain ⟨e₁, hnoArray⟩ := token_cons_ne hblank hc.1 cs
  obtain ⟨e₂, hnoObject⟩ := token_cons_ne hblank hc.2.1 cs
  have hnoString : string (c :: cs) = none := by
    rw [string]
    split
    next r hr =>
      rw [skip_cons hblank] at hr
      exact absurd (List.cons.inj hr).1 hc.2.2
    next => rfl
  rw [value]
  simp only [hnoArray, hnoObject, hnoString]

theorem scalar_of_word {cs rest : List Char} {v : Json} (h : word (skip cs) = some (v, rest)) :
    ∃ hlt, scalar cs = some (v, ⟨rest, hlt⟩) := by
  refine ⟨(length_of_word h).trans_le (length_skip_le cs), ?_⟩
  rw [scalar]
  split
  next hw =>
    cases h.symm.trans hw
    rfl
  next hw => cases h.symm.trans hw

theorem scalar_of_number {cs rest : List Char} {v : Json} (hword : word (skip cs) = none)
    (h : number (skip cs) = some (v, rest)) : ∃ hlt, scalar cs = some (v, ⟨rest, hlt⟩) := by
  refine ⟨(length_of_number h).trans_le (length_skip_le cs), ?_⟩
  rw [scalar]
  split
  next hw => cases hword.symm.trans hw
  next =>
    split
    next hn =>
      cases h.symm.trans hn
      rfl
    next hn => cases h.symm.trans hn

theorem readAs_null : Json.null.ReadAs .null := by
  intro rest _
  have htext : Json.null.render.toList ++ rest = 'n' :: 'u' :: 'l' :: 'l' :: rest := rfl
  rw [htext, value_eq_scalar (by decide) (by decide)]
  exact scalar_of_word rfl

theorem readAs_bool (b : Bool) : (Json.bool b).ReadAs (.bool b) := by
  intro rest _
  cases b with
  | false =>
    have htext : (Json.bool false).render.toList ++ rest =
        'f' :: 'a' :: 'l' :: 's' :: 'e' :: rest := rfl
    rw [htext, value_eq_scalar (by decide) (by decide)]
    exact scalar_of_word rfl
  | true =>
    have htext : (Json.bool true).render.toList ++ rest = 't' :: 'r' :: 'u' :: 'e' :: rest := rfl
    rw [htext, value_eq_scalar (by decide) (by decide)]
    exact scalar_of_word rfl

theorem readAs_nat (n : Nat) :
    (Json.nat n).ReadAs (numberValue false (Decimal.digits n) [] none) := by
  intro rest hrest
  have hdigit : ∀ k < 10, isBlank (Nat.digitChar k) = false ∧
      Nat.digitChar k ∉ ['[', '\x7b', '"'] ∧ Nat.digitChar k ∉ ['n', 't', 'f', '-'] := by decide
  obtain ⟨c, cs, hcs⟩ := List.exists_cons_of_ne_nil (Decimal.positional_digits.ne_nil n)
  obtain ⟨k, hk, rfl⟩ := Decimal.positional_digits.exists_digitChar (by decide) n c
    (by rw [hcs]; exact List.mem_cons_self)
  obtain ⟨hblank, hopen, hword⟩ := hdigit k hk
  simp only [List.mem_cons, List.not_mem_nil, or_false, not_or] at hword
  have hread := unsigned_digits n hrest
  generalize numberValue false (Decimal.digits n) [] none = w at hread ⊢
  have htext : (Json.nat n).render.toList ++ rest = Nat.digitChar k :: (cs ++ rest) := by
    rw [render, Decimal.render, String.toList_ofList, hcs]
    rfl
  rw [hcs, List.cons_append] at hread
  rw [htext, value_eq_scalar hblank hopen]
  refine scalar_of_number ?_ ?_
  · rw [skip_cons hblank]
    simp [word, dropLiteral, Ne.symm hword.1, Ne.symm hword.2.1, Ne.symm hword.2.2.1]
  · rw [skip_cons hblank, number, hread]
    intro r he
    exact absurd (List.cons.inj he).1 hword.2.2.2

theorem readAs_str (s : String) : (Json.str s).ReadAs (.str s) := by
  intro rest _
  obtain ⟨hlt, hstring⟩ := string_quote s rest
  have hnoArray : ∃ e, token '[' [] ((quote s).toList ++ rest) = .error e := by
    rw [quote_eq_cons]
    exact token_cons_ne (by decide) (by decide) _
  have hnoObject : ∃ e, token '\x7b' [] ((quote s).toList ++ rest) = .error e := by
    rw [quote_eq_cons]
    exact token_cons_ne (by decide) (by decide) _
  obtain ⟨e₁, hnoArray⟩ := hnoArray
  obtain ⟨e₂, hnoObject⟩ := hnoObject
  refine ⟨hlt, ?_⟩
  rw [value]
  simp only [render, hnoArray, hnoObject, hstring]

/-- From the text of a plain value some value is read. -/
theorem Plain.exists_readAs {v : Json} (h : v.Plain) : ∃ w, v.ReadAs w := by
  induction h with
  | null => exact ⟨_, readAs_null⟩
  | bool b => exact ⟨_, readAs_bool b⟩
  | nat n => exact ⟨_, readAs_nat n⟩
  | str s => exact ⟨_, readAs_str s⟩
  | arr hitems ih =>
    obtain ⟨ws, hws⟩ := exists_forall₂ ih
    exact ⟨_, readAs_arr hitems hws⟩
  | obj _ ih =>
    obtain ⟨gs, hgs⟩ := exists_fieldReadAs ih
    exact ⟨_, readAs_obj hgs⟩

/-- A lossless value is read from its text, before what may follow. -/
theorem Lossless.readAs {v : Json} (h : v.Lossless) : v.ReadAs v := by
  induction h with
  | null => exact readAs_null
  | bool b => exact readAs_bool b
  | @nat n hn =>
    have hread := readAs_nat n
    rwa [numberValue_digits hn] at hread
  | str s => exact readAs_str s
  | arr hitems ih => exact readAs_arr (fun v hv => (hitems v hv).plain) (List.forall₂_same.mpr ih)
  | obj _ ih => exact readAs_obj (List.forall₂_same.mpr fun f hf => ⟨rfl, ih f hf⟩)

theorem ReadAs.readFront_render {v w : Json} (h : v.ReadAs w) :
    readFront v.render = some (w, true) := by
  have hread := h [] (by simp [Follows])
  rw [List.append_nil] at hread
  obtain ⟨hlt, hvalue⟩ := hread
  simp only [readFront, hvalue]
  rfl

theorem ReadAs.read_render {v w : Json} (h : v.ReadAs w) : read v.render = some w := by
  rw [read, h.readFront_render]

end Json

end Deduction
