import Deduction.Proofs.Legible

/-!
# Sealed values are legible

Strings in quotation marks, truth values, optional values, lists and maps are
legible whatever stands behind them. Nothing is asked of the strings: a quotation
mark or a backslash inside is escaped.
-/

namespace Deduction.Quoted

/-- The characters with a short escape, each with its letter. -/
def shortEscapes : List (Char × Char) :=
  [('"', '"'), ('\\', '\\'), ('\n', 'n'), ('\r', 'r'), ('\t', 't'), ('\x00', '0')]

private theorem char_of_mem_shortEscapes : ∀ p ∈ shortEscapes, char p.1 = ['\\', p.2] := by
  decide

/-- Every other character is written as itself or as a numbered escape. -/
theorem char_of_notMem_shortEscapes {c : Char} (h : ∀ e, (c, e) ∉ shortEscapes) :
    char c = if Text.isPrintable c then [c]
      else ['\\', 'u', '\x7b'] ++ hexDigits c.toNat ++ ['\x7d'] := by
  have hzero : c.toNat ≠ 0 := by
    intro hzero
    have hc : c = '\x00' := Char.toNat_inj.mp hzero
    exact h '0' (by rw [hc]; decide)
  have hne : ∀ p ∈ shortEscapes, c ≠ p.1 := by
    rintro ⟨d, e⟩ hp rfl
    exact h e hp
  rw [char, if_neg (hne ('"', '"') (by decide)), if_neg (hne ('\\', '\\') (by decide)),
    if_neg (hne ('\n', 'n') (by decide)), if_neg (hne ('\r', 'r') (by decide)),
    if_neg (hne ('\t', 't') (by decide)), if_neg hzero]

/-- A character is written as a short escape, as itself, or as a numbered escape. -/
theorem char_cases (c : Char) :
    (∃ e, (c, e) ∈ shortEscapes ∧ char c = ['\\', e]) ∨
      (c ≠ '"' ∧ c ≠ '\\' ∧ char c = [c]) ∨
      char c = '\\' :: 'u' :: '\x7b' :: (hexDigits c.toNat ++ ['\x7d']) := by
  by_cases h : ∃ e, (c, e) ∈ shortEscapes
  · obtain ⟨e, he⟩ := h
    exact Or.inl ⟨e, he, char_of_mem_shortEscapes _ he⟩
  · have hnot : ∀ e, (c, e) ∉ shortEscapes := fun e he => h ⟨e, he⟩
    have hchar := char_of_notMem_shortEscapes hnot
    right
    split at hchar
    next =>
      refine Or.inl ⟨?_, ?_, hchar⟩
      · rintro rfl
        exact hnot '"' (by decide)
      · rintro rfl
        exact hnot '\\' (by decide)
    next => exact Or.inr hchar

/-- A short escape shows its character, and none is taken for a numbered escape. -/
theorem shortEscapes_inj :
    (∀ p ∈ shortEscapes, p.2 ≠ 'u') ∧
      ∀ p ∈ shortEscapes, ∀ q ∈ shortEscapes, p.2 = q.2 → p.1 = q.1 := by
  decide

/-- The digits of a numbered escape show the character. -/
theorem hexDigits_inj {c d : Char} {x y : List Char}
    (h : hexDigits c.toNat ++ '\x7d' :: x = hexDigits d.toNat ++ '\x7d' :: y) : c = d ∧ x = y := by
  have hdigit : ∀ k < 16, Nat.digitChar k ≠ '\x7d' := by decide
  have hdigits : ∀ n, ∀ e ∈ hexDigits n, e ≠ '\x7d' := by
    intro n e he
    obtain ⟨k, hk, rfl⟩ := positional_hexDigits.exists_digitChar (by decide) n e he
    exact hdigit k hk
  obtain ⟨heq, hrest⟩ := append_inj_of_head (q := (· ≠ '\x7d')) (hdigits c.toNat)
    (hdigits d.toNat) (by simp) (by simp) h
  exact ⟨Char.toNat_inj.mp (positional_hexDigits.injective (by decide) (by decide) heq),
    (List.cons.inj hrest).2⟩

/-- A written character shows which one it is and where it ends. -/
theorem char_append_inj {c d : Char} {x y : List Char} (h : char c ++ x = char d ++ y) :
    c = d ∧ x = y := by
  obtain ⟨hnotU, hinj⟩ := shortEscapes_inj
  rcases char_cases c with ⟨e, he, hc⟩ | ⟨-, hslash, hc⟩ | hc <;>
    rcases char_cases d with ⟨e', he', hd⟩ | ⟨-, hslash', hd⟩ | hd <;>
    simp only [hc, hd, List.cons_append, List.nil_append, List.append_assoc,
      List.cons.injEq, true_and] at h
  · exact ⟨hinj _ he _ he' h.1, h.2⟩
  · exact absurd h.1.symm hslash'
  · exact absurd h.1 (hnotU _ he)
  · exact absurd h.1 hslash
  · exact h
  · exact absurd h.1 hslash
  · exact absurd h.1.symm (hnotU _ he')
  · exact absurd h.1.symm hslash'
  · exact hexDigits_inj h

/-- No character is written with a quotation mark in front. -/
theorem exists_char_eq (c : Char) : ∃ e es, char c = e :: es ∧ e ≠ '"' := by
  rcases char_cases c with ⟨e, -, hc⟩ | ⟨hquote, -, hc⟩ | hc
  · exact ⟨'\\', [e], hc, by decide⟩
  · exact ⟨c, [], hc, hquote⟩
  · exact ⟨'\\', _, hc, by decide⟩

private theorem flatMap_char_inj {cs ds x y : List Char}
    (h : cs.flatMap char ++ '"' :: x = ds.flatMap char ++ '"' :: y) : cs = ds ∧ x = y := by
  induction cs generalizing ds with
  | nil =>
    cases ds with
    | nil => exact ⟨rfl, (List.cons.inj h).2⟩
    | cons d ds =>
      obtain ⟨e, es, hd, hne⟩ := exists_char_eq d
      rw [List.flatMap_cons, hd] at h
      exact absurd (List.cons.inj h).1.symm hne
  | cons c cs ih =>
    cases ds with
    | nil =>
      obtain ⟨e, es, hc, hne⟩ := exists_char_eq c
      rw [List.flatMap_cons, hc] at h
      exact absurd (List.cons.inj h).1 hne
    | cons d ds =>
      rw [List.flatMap_cons, List.flatMap_cons, List.append_assoc, List.append_assoc] at h
      obtain ⟨rfl, hrest⟩ := char_append_inj h
      obtain ⟨rfl, rfl⟩ := ih hrest
      exact ⟨rfl, rfl⟩

/-- A string in quotation marks is legible before anything. -/
theorem legible_string : Legible Anything (fun _ => True) string := by
  intro s _ t x y _ _ _ h
  simp only [string, String.toList_append, String.toList_ofList, List.append_assoc,
    List.append_cancel_left_eq] at h
  obtain ⟨heq, hrest⟩ := flatMap_char_inj h
  exact ⟨String.toList_inj.mp heq, hrest⟩

theorem legible_bool : Legible Ended (fun _ => True) bool := by
  intro a _ b x y _ _ _ h
  cases a <;> cases b
  · exact ⟨rfl, List.append_cancel_left h⟩
  · cases h
  · cases h
  · exact ⟨rfl, List.append_cancel_left h⟩

section Combinators

variable {α : Type} {f : α → String}

/-- An optional value is legible if the value is. -/
theorem legible_option (h : Legible Ended (fun _ => True) f) :
    Legible Ended (fun _ => True) (option f) := by
  intro o _ o' x y _ _ _ heq
  cases o with
  | none =>
    cases o' with
    | none => exact ⟨rfl, List.append_cancel_left heq⟩
    | some b => simp [option] at heq
  | some a =>
    cases o' with
    | none => simp [option] at heq
    | some b =>
      simp only [option, String.toList_append, List.append_assoc,
        List.append_cancel_left_eq] at heq
      obtain ⟨rfl, hrest⟩ := h.field_inj (by decide) heq
      exact ⟨rfl, hrest⟩

/-- A list is legible if its items are. -/
theorem legible_list (hopens : Opens ends (fun _ => True) f)
    (h : Legible Ended (fun _ => True) f) : Legible Ended (fun _ => True) (list f) := by
  intro as _ bs x y _ _ _ heq
  simp only [list, String.toList_append, List.append_assoc, List.append_cancel_left_eq] at heq
  exact intercalate_inj (k := ']') (by decide) (by decide) (fun _ hc _ => ended_cons.mpr hc)
    hopens (fun _ _ => trivial) (fun a _ => h a trivial) (fun _ _ => trivial) heq

end Combinators

/-- A written entry shows its key and its value. -/
theorem legible_entry : Legible Anything (fun _ => True)
    fun e : String × String => string e.1 ++ ": " ++ string e.2 := by
  rintro ⟨k, v⟩ _ ⟨k', v'⟩ x y _ _ _ h
  simp only [String.toList_append, List.append_assoc] at h
  obtain ⟨rfl, hvalue⟩ := legible_string k trivial k' _ _ trivial trivial trivial h
  obtain ⟨rfl, hrest⟩ := legible_string v trivial v' _ _ trivial trivial trivial
    (List.append_cancel_left hvalue)
  exact ⟨rfl, hrest⟩

/-- A map is legible before anything. -/
theorem legible_map : Legible Anything (fun _ => True) map := by
  intro m _ n x y _ _ _ h
  have hopens : Opens ends (fun _ => True)
      fun e : String × String => string e.1 ++ ": " ++ string e.2 := fun _ _ =>
    exists_cons_of_head? (c := '"') (by simp [string]) (by decide)
  simp only [map, String.toList_append, List.append_assoc, List.append_cancel_left_eq] at h
  obtain ⟨hentries, hrest⟩ := intercalate_inj (k := '\x7d') (by decide) (by decide)
    (fun _ _ _ => trivial) hopens (fun _ _ => trivial) (fun e _ => legible_entry e trivial)
    (fun _ _ => trivial) h
  exact ⟨KeyMap.ext hentries, hrest⟩

/-- A reference is legible before an end. -/
theorem legible_id : Legible Ended (fun _ => True) id := by
  intro m _ n x y _ hx hy h
  simp only [id, String.toList_append, List.append_assoc, List.append_cancel_left_eq] at h
  exact Decimal.legible_render m trivial n x y trivial hx hy h

theorem opens_id : Opens ends (fun _ => True) id := fun _ _ =>
  exists_cons_of_head? (c := 'i') (by simp [id]) (by decide)

end Deduction.Quoted
