import Deduction.Error
import Deduction.Proofs.Grammar.Recognition

/-!
# The language of clause notation

A text in clause notation is that of one or more clauses with separators between them, and
a clause is one or more atoms with commas between them. Blanks may stand before every
name, comma and `!`. A line break is a blank as well, so the same character ends a clause
or stands inside one; which of the two it does is told by what comes behind the blanks. A
comma goes on with the clause, and a name or a `!` starts the next one.

The parser reads exactly the texts of this language, each as the clauses that it is written
from, and no such text is taken for a formula.
-/

namespace Deduction

namespace Scan

/-- Whether a text is that of one or more items with separators between them. -/
inductive Separated {α : Type} (Item : α → List Char → Prop) (Sep : List Char → Prop) :
    List α → List Char → Prop
  | single {x : α} {u : List Char} (hx : Item x u) : Separated Item Sep [x] u
  | cons {x : α} {xs : List α} {u o v : List Char} (hx : Item x u) (ho : Sep o)
    (hxs : Separated Item Sep xs v) : Separated Item Sep (x :: xs) (u ++ o ++ v)

section Separated

variable {α : Type} {Item : α → List Char → Prop} {Sep : List Char → Prop} {xs : List α}
  {u : List Char}

/-- A text of items starts with the first one. -/
theorem Separated.exists_first (h : Separated Item Sep xs u) :
    ∃ x v w, Item x v ∧ u = v ++ w := by
  cases h with
  | @single x u hx => exact ⟨x, u, [], hx, (List.append_nil u).symm⟩
  | cons hx ho hxs => exact ⟨_, _, _, hx, List.append_assoc ..⟩

/-- Items that can be written one by one can be written as a list. -/
theorem exists_separated {o : List Char} (ho : Sep o) (hne : xs ≠ [])
    (hxs : ∀ x ∈ xs, ∃ u, Item x u) : ∃ u, Separated Item Sep xs u := by
  induction xs with
  | nil => exact absurd rfl hne
  | cons x xs ih =>
    obtain ⟨⟨u, hu⟩, hxs⟩ := List.forall_mem_cons.mp hxs
    by_cases hnil : xs = []
    · exact ⟨u, hnil ▸ .single hu⟩
    · obtain ⟨v, hv⟩ := ih hnil hxs
      exact ⟨_, .cons hu ho hv⟩

/-- What is written has items, all of which are written. -/
theorem Separated.items (h : Separated Item Sep xs u) : xs ≠ [] ∧ ∀ x ∈ xs, ∃ v, Item x v := by
  induction h with
  | single hx => exact ⟨List.cons_ne_nil _ _, List.forall_mem_singleton.mpr ⟨_, hx⟩⟩
  | cons hx _ _ ih => exact ⟨List.cons_ne_nil _ _, List.forall_mem_cons.mpr ⟨⟨_, hx⟩, ih.2⟩⟩

/-- What holds of all characters of items and separators holds of all characters of the text. -/
theorem Separated.all_chars {p : Char → Bool} (hitem : ∀ x u, Item x u → u.all p = true)
    (hsep : ∀ o, Sep o → o.all p = true) (h : Separated Item Sep xs u) : u.all p = true := by
  induction h with
  | single hx => exact hitem _ _ hx
  | cons hx ho _ ih => simp only [List.all_append, hitem _ _ hx, hsep _ ho, ih, Bool.and_self]

variable {sep : (cs : List Char) → Except (List Char) (Rest cs)}
  {item : (cs : List Char) → Result α cs}

/-- Separated items are read from texts of separated items. -/
theorem separated_of_list1
    (hitem : ∀ cs x r, item cs = .ok (x, r) → ∃ u, cs = u ++ r.1 ∧ Item x u)
    (hsep : ∀ cs r, sep cs = .ok r → ∃ o, cs = o ++ r.1 ∧ Sep o) {cs : List Char} {r : Rest cs}
    (h : list1 sep item cs = .ok (xs, r)) : ∃ u, cs = u ++ r.1 ∧ Separated Item Sep xs u := by
  have htail : ∀ cs x u, Item x u → ∃ v, cs = v ++ (listTail sep item cs).2.1 ∧
      Separated Item Sep (x :: (listTail sep item cs).1) (u ++ v) := by
    intro cs
    fun_induction listTail sep item cs with
    | case1 cs | case2 cs =>
      intro x u hx
      exact ⟨[], rfl, (List.append_nil u).symm ▸ .single hx⟩
    | case3 cs r hr hread y r' hr' hy ys r'' hr'' hys ih =>
      intro x u hx
      obtain ⟨o, hcs, ho⟩ := hsep cs _ hread
      obtain ⟨v, hrest, hv⟩ := hitem r y _ hy
      obtain ⟨w, hrest', hw⟩ := ih y v hv
      rw [hys] at hrest' hw
      refine ⟨o ++ (v ++ w), ?_, List.append_assoc u o (v ++ w) ▸ .cons hx ho hw⟩
      calc cs = o ++ r := hcs
        _ = o ++ (v ++ r') := by rw [← hrest]
        _ = o ++ (v ++ (w ++ r'')) := by rw [← hrest']
        _ = o ++ (v ++ w) ++ r'' := by simp only [List.append_assoc]
  rw [list1] at h
  split at h
  · cases h
  next x r' _ hx =>
    cases h
    obtain ⟨u, hcs, hu⟩ := hitem cs x _ hx
    obtain ⟨v, hrest, hv⟩ := htail r' x u hu
    exact ⟨u ++ v, by rw [List.append_assoc, ← hrest, ← hcs], hv⟩

/-- Separated items are read up to a text behind which no further item is read, if an item is read
wherever it ends and the separators end it. -/
theorem Separated.read {Ends : List Char → Prop}
    (hitem : ∀ x u rest, Item x u → Ends rest → ∃ hlt, item (u ++ rest) = .ok (x, ⟨rest, hlt⟩))
    (hsep : ∀ o rest, Sep o → ∃ hlt, sep (o ++ rest) = .ok ⟨rest, hlt⟩)
    (hends : ∀ o x u rest, Sep o → Item x u → Ends (o ++ (u ++ rest)))
    (h : Separated Item Sep xs u) {rest : List Char} (hrest : Ends rest)
    (hlast : listTail sep item rest = ([], .whole rest)) :
    ∃ hlt, list1 sep item (u ++ rest) = .ok (xs, ⟨rest, hlt⟩) := by
  induction h with
  | single hx =>
    obtain ⟨hlt, hread⟩ := hitem _ _ rest hx hrest
    refine ⟨hlt, ?_⟩
    rw [list1, hread]
    simp only [hlast]
    rfl
  | @cons x xs u o v hx ho hxs ih =>
    rw [List.append_assoc, List.append_assoc]
    obtain ⟨y, v', w, hy, hv⟩ := hxs.exists_first
    have hend : Ends (o ++ (v ++ rest)) := by
      rw [hv, List.append_assoc]
      exact hends o y v' (w ++ rest) ho hy
    obtain ⟨hlt, hread⟩ := hitem x u _ hx hend
    obtain ⟨h₁, hread_sep⟩ := hsep o (v ++ rest) ho
    obtain ⟨h₂, hread_more⟩ := ih
    obtain ⟨hle, htail⟩ := Grammar.listTail_of_list1 hread_sep hread_more
    refine ⟨by omega, ?_⟩
    rw [list1, hread]
    simp only [htail]

end Separated

end Scan

namespace Grammar

open Scan

/-- Whether a text is that of an atom: its name, behind a `!` if the atom is negated. -/
inductive ClauseAtomWritten : Atom String → List Char → Prop
  | positive {name : String} {u : List Char} (hname : IsIdentifier name)
    (hu : Spelled name.toList u) : ClauseAtomWritten ⟨name, false⟩ u
  | negative {name : String} {o u : List Char} (hname : IsIdentifier name)
    (ho : Spelled ['!'] o) (hu : Spelled name.toList u) : ClauseAtomWritten ⟨name, true⟩ (o ++ u)

theorem written_of_clauseAtom {cs : List Char} {a : Atom String} {r : Rest cs}
    (h : clauseAtom cs = .ok (a, r)) : ∃ u, cs = u ++ r.1 ∧ ClauseAtomWritten a u := by
  rw [clauseAtom] at h
  split at h
  next hnot =>
    split at h
    · cases h
    next hread =>
      cases h
      obtain ⟨o, hcs, ho⟩ := spelled_of_token hnot
      obtain ⟨hname, u, hr, hu⟩ := spelled_of_identifier hread
      exact ⟨o ++ u, by simp [hcs, hr], .negative hname ho hu⟩
  · split at h
    · cases h
    next hread =>
      cases h
      obtain ⟨hname, u, hcs, hu⟩ := spelled_of_identifier hread
      exact ⟨u, hcs, .positive hname hu⟩

/-- An atom starts with a character of a name or with `!`. -/
theorem ClauseAtomWritten.head {a : Atom String} {u : List Char} (h : ClauseAtomWritten a u)
    (rest : List Char) : ∀ d ∈ (skip (u ++ rest)).head?, isIdentifierChar d = true ∨ d = '!' := by
  cases h with
  | positive hname hu => exact fun d hd => Or.inl ((hname.skip_append hu rest).2 d hd)
  | negative hname ho hu =>
    rw [List.append_assoc, ho.skip_append (by decide)]
    rintro d ⟨⟩
    exact Or.inr rfl

/-- An atom is read up to a character that cannot belong to its name. -/
theorem ClauseAtomWritten.read {a : Atom String} {u rest : List Char} (h : ClauseAtomWritten a u)
    (hrest : ∀ c ∈ rest.head?, isIdentifierChar c = false) :
    ∃ hlt, clauseAtom (u ++ rest) = .ok (a, ⟨rest, hlt⟩) := by
  cases h with
  | positive hname hu =>
    obtain ⟨hskip, hhead⟩ := hname.skip_append hu rest
    obtain ⟨e, hnot⟩ : ∃ e, token '!' [] (u ++ rest) = .error e := by
      refine token_eq_error [] fun d hd => ?_
      rintro rfl
      exact absurd (hhead _ hd) (by decide)
    obtain ⟨hlt, hread⟩ := identifier_eq_ok hname hskip hrest
    exact ⟨hlt, by rw [clauseAtom, hnot]; simp only [hread]⟩
  | @negative name o u hname ho hu =>
    rw [List.append_assoc]
    obtain ⟨h₁, hnot⟩ := token_eq_ok.mpr (ho.skip_append (by decide) (u ++ rest))
    obtain ⟨h₂, hread⟩ := identifier_eq_ok hname (hname.skip_append hu rest).1 hrest
    refine ⟨by omega, ?_⟩
    rw [clauseAtom, hnot]
    simp only [hread]

/-- No atom is read where only blanks are left. -/
theorem clauseAtom_eq_error {cs : List Char} (h : skip cs = []) :
    ∃ e, clauseAtom cs = .error e := by
  obtain ⟨e, hnot⟩ : ∃ e, token '!' [] cs = .error e := token_eq_error [] (by simp [h])
  obtain ⟨e', hread⟩ : ∃ e, identifier cs = .error e := identifier_eq_error (by simp [h])
  exact ⟨e', by rw [clauseAtom, hnot]; simp only [hread]⟩

/-- Whether a text is that of a clause: its atoms with commas between them. -/
def ClauseWritten (c : Clause String) (u : List Char) : Prop :=
  Separated ClauseAtomWritten (Spelled [',']) c.atoms u

/-- The marks between clauses: a semicolon and the line breaks. -/
def clauseMarks : List (List Char) := [[';'], ['\n'], ['\r', '\n']]

/-- Whether a text may stand between clauses: a mark behind any spaces and tabs. -/
def SeparatorWritten (o : List Char) : Prop :=
  ∃ blanks mark, (∀ c ∈ blanks, isInlineBlank c = true) ∧ mark ∈ clauseMarks ∧ o = blanks ++ mark

theorem written_of_clause {cs : List Char} {c : Clause String} {r : Rest cs}
    (h : clause cs = .ok (c, r)) : ∃ u, cs = u ++ r.1 ∧ ClauseWritten c u := by
  rw [clause] at h
  split at h
  · cases h
  next hatoms =>
    cases h
    exact separated_of_list1 (fun _ _ _ => written_of_clauseAtom) (fun _ _ => spelled_of_token)
      hatoms

/-- A clause is read before a text that ends a name and does not go on with a comma. -/
theorem ClauseWritten.read {c : Clause String} {u rest : List Char} (h : ClauseWritten c u)
    (hrest : Stops [','] rest) : ∃ hlt, clause (u ++ rest) = .ok (c, ⟨rest, hlt⟩) := by
  have hlast : listTail (token ',' []) clauseAtom rest = ([], .whole rest) := by
    obtain ⟨e, hcomma⟩ := token_eq_error [] (hrest.ne (c := ',') (by simp))
    rw [listTail, hcomma]
  obtain ⟨hlt, hatoms⟩ := Separated.read (fun _ _ _ hx hends => hx.read hends)
    (fun o rest ho => token_eq_ok.mpr (ho.skip_append (by decide) rest))
    (fun o _ u rest ho _ =>
      (stops_of_spelled ho (by decide) (by decide) List.not_mem_nil (u ++ rest)).name)
    h hrest.name hlast
  exact ⟨hlt, by rw [clause, hatoms]⟩

private theorem isBlank_of_isInlineBlank {c : Char} (h : isInlineBlank c = true) :
    isBlank c = true := by
  simp only [isInlineBlank, Bool.or_eq_true, beq_iff_eq] at h
  rcases h with rfl | rfl <;> rfl

/-- A separator is a mark behind blanks. -/
theorem SeparatorWritten.spelled {o : List Char} (h : SeparatorWritten o) :
    ∃ mark ∈ clauseMarks, Spelled mark o := by
  obtain ⟨blanks, mark, hinline, hmark, rfl⟩ := h
  exact ⟨mark, hmark, blanks, fun c hc => isBlank_of_isInlineBlank (hinline c hc), rfl⟩

/-- A separator is read if a mark stands behind the spaces and tabs. -/
theorem clauseSeparator_eq_ok {cs rest : List Char} :
    (∃ hlt, clauseSeparator cs = .ok ⟨rest, hlt⟩) ↔
      ∃ mark ∈ clauseMarks, cs.dropWhile isInlineBlank = mark ++ rest := by
  rw [clauseSeparator]
  simp only [clauseMarks, List.mem_cons, List.not_mem_nil, or_false]
  constructor
  · rintro ⟨hlt, h⟩
    split at h
    next hr => cases h; exact ⟨_, .inl rfl, hr⟩
    next hr => cases h; exact ⟨_, .inr (.inl rfl), hr⟩
    next hr => cases h; exact ⟨_, .inr (.inr rfl), hr⟩
    · cases h
  · rintro ⟨mark, hmark, hdrop⟩
    have hlen := (List.dropWhile_suffix (l := cs) isInlineBlank).length_le
    rw [hdrop] at hlen
    rcases hmark with rfl | rfl | rfl <;> split <;> grind

theorem written_of_clauseSeparator {cs : List Char} {r : Rest cs}
    (h : clauseSeparator cs = .ok r) : ∃ o, cs = o ++ r.1 ∧ SeparatorWritten o := by
  obtain ⟨mark, hmark, hdrop⟩ := clauseSeparator_eq_ok.mp ⟨r.2, h⟩
  refine ⟨cs.takeWhile isInlineBlank ++ mark, ?_, _, mark, ?_, hmark, rfl⟩
  · rw [List.append_assoc, ← hdrop, List.takeWhile_append_dropWhile]
  · exact fun c hc => List.mem_takeWhile_imp hc

/-- A separator is read wherever it stands. -/
theorem SeparatorWritten.read {o : List Char} (h : SeparatorWritten o) (rest : List Char) :
    ∃ hlt, clauseSeparator (o ++ rest) = .ok ⟨rest, hlt⟩ := by
  obtain ⟨blanks, mark, hinline, hmark, rfl⟩ := h
  refine clauseSeparator_eq_ok.mpr ⟨mark, hmark, ?_⟩
  rw [List.append_assoc, List.dropWhile_append_of_pos hinline]
  simp only [clauseMarks, List.mem_cons, List.not_mem_nil, or_false] at hmark
  rcases hmark with rfl | rfl | rfl <;> rfl

/-- A clause starts with a character of a name or with `!`. -/
theorem ClauseWritten.head {c : Clause String} {u : List Char} (h : ClauseWritten c u)
    (rest : List Char) : ∀ d ∈ (skip (u ++ rest)).head?, isIdentifierChar d = true ∨ d = '!' := by
  obtain ⟨a, v, w, ha, rfl⟩ := h.exists_first
  rw [List.append_assoc]
  exact ha.head (w ++ rest)

/-- A separator with a clause behind it ends the clause before it: the first character that is no
blank is the semicolon, or it starts the next clause. -/
theorem SeparatorWritten.stops {o : List Char} (ho : SeparatorWritten o) {c : Clause String}
    {u : List Char} (hu : ClauseWritten c u) (rest : List Char) :
    Stops [','] (o ++ (u ++ rest)) := by
  obtain ⟨mark, hmark, blanks, hblanks, rfl⟩ := ho.spelled
  -- A line break is skipped like the blanks before it.
  have hbreak : (∀ c ∈ mark, isBlank c = true) → mark ≠ [] →
      Stops [','] (blanks ++ mark ++ (u ++ rest)) := by
    intro hmark hne
    have hall : ∀ c ∈ blanks ++ mark, isBlank c = true :=
      fun c hc => (List.mem_append.mp hc).elim (hblanks c) (hmark c)
    refine ⟨fun d hd => ?_, fun d hd => ?_⟩
    · rw [List.head?_append_of_ne_nil _ (by simp [hne])] at hd
      exact isIdentifierChar_eq_false (hall d (List.mem_of_mem_head? hd))
    · rw [skip, List.dropWhile_append_of_pos hall] at hd
      rcases hu.head rest d hd with hname | rfl
      · rw [List.mem_singleton]
        rintro rfl
        exact absurd hname (by decide)
      · decide
  simp only [clauseMarks, List.mem_cons, List.not_mem_nil, or_false] at hmark
  rcases hmark with rfl | rfl | rfl
  · exact stops_of_spelled ⟨blanks, hblanks, rfl⟩ (by decide) (by decide) (by decide) _
  · exact hbreak (by simp [isBlank]) (by decide)
  · exact hbreak (by simp [isBlank]) (by decide)

/-- Behind the last clause only blanks are left, even where a line break among them could stand
before another clause. -/
theorem listTail_clause_of_blanks {rest : List Char} (h : ∀ c ∈ rest, isBlank c = true) :
    listTail clauseSeparator clause rest = ([], .whole rest) := by
  rw [listTail]
  split
  · rfl
  next r hr hsep =>
    obtain ⟨o, hrest, -⟩ := written_of_clauseSeparator hsep
    have hskip : skip r = [] := by
      refine List.dropWhile_eq_nil_iff.mpr fun c hc => h c ?_
      rw [hrest]
      exact List.mem_append_right o hc
    obtain ⟨e, hread⟩ := clauseAtom_eq_error hskip
    have hclause : clause r = .error e := by rw [clause, list1, hread]
    rw [hclause]

theorem isClauseText_append (u v : List Char) :
    isClauseText (u ++ v) = (isClauseText u && isClauseText v) :=
  List.all_append

theorem isClauseText_of_blanks {u : List Char} (h : ∀ c ∈ u, isBlank c = true) :
    isClauseText u = true := by
  refine List.all_eq_true.mpr fun c hc => ?_
  have hblank := h c hc
  simp only [isBlank, Bool.or_eq_true, beq_iff_eq] at hblank
  rcases hblank with ((rfl | rfl) | rfl) | rfl <;> decide

theorem isClauseText_of_identifier {name : String} (h : IsIdentifier name) :
    isClauseText name.toList = true :=
  List.all_eq_true.mpr fun c hc => by simp [h.chars c hc]

theorem isClauseText_of_spelled {tok u : List Char} (h : Spelled tok u)
    (htok : isClauseText tok = true) : isClauseText u = true := by
  obtain ⟨blanks, hblanks, rfl⟩ := h
  rw [isClauseText_append, isClauseText_of_blanks hblanks, htok, Bool.and_self]

theorem ClauseAtomWritten.isClauseText {a : Atom String} {u : List Char}
    (h : ClauseAtomWritten a u) : isClauseText u = true := by
  cases h with
  | positive hname hu => exact isClauseText_of_spelled hu (isClauseText_of_identifier hname)
  | negative hname ho hu =>
    rw [isClauseText_append, isClauseText_of_spelled ho (by decide),
      isClauseText_of_spelled hu (isClauseText_of_identifier hname), Bool.and_self]

theorem ClauseWritten.isClauseText {c : Clause String} {u : List Char} (h : ClauseWritten c u) :
    isClauseText u = true :=
  Separated.all_chars (fun _ _ ha => ha.isClauseText)
    (fun _ ho => isClauseText_of_spelled ho (by decide)) h

theorem SeparatorWritten.isClauseText {o : List Char} (h : SeparatorWritten o) :
    isClauseText o = true := by
  obtain ⟨mark, hmark, ho⟩ := h.spelled
  refine isClauseText_of_spelled ho ?_
  clear ho
  revert mark
  decide

end Grammar

namespace ClauseSet

open Grammar Scan

/-- Whether a whole text is that of a clause set. Blanks may stand behind its last token. -/
def WrittenAs (s : ClauseSet String) (text : String) : Prop :=
  ∃ u blanks, text.toList = u ++ blanks ∧ Separated ClauseWritten SeparatorWritten s.clauses u ∧
    ∀ c ∈ blanks, isBlank c = true

/-- A text is read as clauses exactly if it is a text of these clauses. -/
theorem writtenAs_iff_parse {s : ClauseSet String} {text : String} :
    s.WrittenAs text ↔ ClauseSet.parse text = .ok s := by
  simp only [ClauseSet.parse, Outcome.bind_eq_ok, whole_eq_ok, Outcome.pure_eq_ok]
  constructor
  · rintro ⟨u, blanks, htext, hu, hblanks⟩
    obtain ⟨hlt, hread⟩ := Separated.read (fun _ _ _ hc hends => ClauseWritten.read hc hends)
      (fun o rest ho => ho.read rest) (fun o c u rest ho hu => ho.stops hu rest) hu
      (stops_of_blanks hblanks _) (listTail_clause_of_blanks hblanks)
    refine ⟨s.clauses, ⟨blanks, ?_, List.dropWhile_eq_nil_iff.mpr hblanks⟩, rfl⟩
    rw [htext]
    exact Result.plain_eq_ok.mpr ⟨hlt, hread⟩
  · rintro ⟨clauses, ⟨rest, hread, hrest⟩, rfl⟩
    obtain ⟨hlt, hread⟩ := Result.plain_eq_ok.mp hread
    obtain ⟨u, htext, hu⟩ := separated_of_list1 (fun _ _ _ => written_of_clause)
      (fun _ _ => written_of_clauseSeparator) hread
    exact ⟨u, rest, htext, hu, List.dropWhile_eq_nil_iff.mp hrest⟩

theorem WrittenAs.isClauseText {s : ClauseSet String} {text : String} (h : s.WrittenAs text) :
    isClauseText text.toList = true := by
  obtain ⟨u, blanks, htext, hu, hblanks⟩ := h
  have hclauses : Grammar.isClauseText u = true :=
    hu.all_chars (fun _ _ hc => hc.isClauseText) (fun _ ho => ho.isClauseText)
  rw [htext, isClauseText_append, hclauses, isClauseText_of_blanks hblanks, Bool.and_self]

/-- The clause sets that can be written have clauses, and these have atoms with names. -/
theorem exists_writtenAs_iff {s : ClauseSet String} :
    (∃ text, s.WrittenAs text) ↔
      s.clauses ≠ [] ∧ ∀ c ∈ s.clauses, c.atoms ≠ [] ∧ ∀ a ∈ c.atoms, IsIdentifier a.lit := by
  have hatom (a : Atom String) : (∃ u, ClauseAtomWritten a u) ↔ IsIdentifier a.lit := by
    constructor
    · rintro ⟨u, hu⟩
      cases hu <;> assumption
    · obtain ⟨name, negated⟩ := a
      intro hname
      cases negated with
      | false => exact ⟨_, .positive hname (spelled_self _)⟩
      | true => exact ⟨_, .negative hname (spelled_self _) (spelled_self _)⟩
  have hclause (c : Clause String) : (∃ u, ClauseWritten c u) ↔
      c.atoms ≠ [] ∧ ∀ a ∈ c.atoms, IsIdentifier a.lit := by
    simp only [← hatom]
    exact ⟨fun ⟨_, hu⟩ => hu.items, fun ⟨hne, h⟩ => exists_separated (spelled_self [',']) hne h⟩
  simp only [← hclause]
  constructor
  · rintro ⟨_, _, _, -, hu, -⟩
    exact hu.items
  · rintro ⟨hne, h⟩
    have hmark : SeparatorWritten [';'] := ⟨[], [';'], by simp, by decide, rfl⟩
    obtain ⟨u, hu⟩ := exists_separated hmark hne h
    exact ⟨String.ofList u, u, [], by simp, hu, by simp⟩

/-- Clause notation is read back: a text of clauses is never taken for a formula, whatever the
strategy, and gives exactly these clauses. No other text is read as them, and the clauses that
have a text are the non-empty lists of non-empty clauses over names. -/
theorem ofText_iff_written (s : ClauseSet String) :
    (∀ text, s.WrittenAs text ↔
      isClauseText text.toList = true ∧ ClauseSet.parse text = .ok s ∧
        ∀ strategy, ClauseSet.ofText strategy text = .ok s) ∧
    ((∃ text, s.WrittenAs text) ↔
      s.clauses ≠ [] ∧ ∀ c ∈ s.clauses, c.atoms ≠ [] ∧ ∀ a ∈ c.atoms, IsIdentifier a.lit) := by
  refine ⟨fun text => ⟨fun h => ?_, fun h => writtenAs_iff_parse.mpr h.2.1⟩, exists_writtenAs_iff⟩
  have hread := writtenAs_iff_parse.mp h
  refine ⟨h.isClauseText, hread, fun strategy => ?_⟩
  rw [ofText, if_pos h.isClauseText, hread]
  rfl

-- The first line break stands inside a clause, and the other two between the clauses.
example : (⟨[⟨[⟨"a", true⟩, ⟨"b", false⟩]⟩, ⟨[⟨"a", false⟩]⟩]⟩ : ClauseSet String).WrittenAs
    "! a\n, b \r\n\n a" :=
  writtenAs_iff_parse.mpr (by decide +kernel)

end ClauseSet

end Deduction
