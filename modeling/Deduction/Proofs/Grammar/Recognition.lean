import Deduction.Proofs.Formula.Meaning
import Deduction.Proofs.Grammar.Readable
import Mathlib.Data.List.DropRight

/-!
# Recognising the language of formulas

The parsers read every text of the language. A text that may follow a name ends it,
and the next character that is not a blank tells whether a connective or a list goes on.
So the text of a term, a relation or a formula is read up to its end, and a whole text
is read as a formula exactly if it is a text of this formula with blanks behind it.
-/

namespace Deduction

namespace Grammar

open Scan

/-- Whether a text ends a name before it and does not go on, behind blanks, with one of some
characters. -/
structure Stops (further rest : List Char) : Prop where
  /-- The first character does not belong to a name. -/
  name : ∀ c ∈ rest.head?, isIdentifierChar c = false
  /-- The first character that is no blank is none of those. -/
  next : ∀ c ∈ (skip rest).head?, c ∉ further

theorem isBlank_eq_false {c : Char} (h : isIdentifierChar c = true) : isBlank c = false := by
  by_contra hblank
  simp only [isBlank, Bool.not_eq_false, Bool.or_eq_true, beq_iff_eq] at hblank
  rcases hblank with ((rfl | rfl) | rfl) | rfl <;> exact absurd h (by decide)

theorem isIdentifierChar_eq_false {c : Char} (h : isBlank c = true) :
    isIdentifierChar c = false := by
  by_contra hname
  rw [isBlank_eq_false (by simpa using hname)] at h
  cases h

theorem Stops.mono {further fewer rest : List Char} (h : Stops further rest)
    (hsub : fewer ⊆ further) : Stops fewer rest :=
  ⟨h.name, fun c hc hmem => h.next c hc (hsub hmem)⟩

theorem Stops.ne {further rest : List Char} (h : Stops further rest) {c : Char}
    (hc : c ∈ further) : ∀ d ∈ (skip rest).head?, d ≠ c := by
  rintro d hd rfl
  exact h.next d hd hc

theorem stops_of_blanks {rest : List Char} (h : ∀ c ∈ rest, isBlank c = true)
    (further : List Char) : Stops further rest := by
  have hskip : skip rest = [] := List.dropWhile_eq_nil_iff.mpr h
  refine ⟨fun c hc => isIdentifierChar_eq_false (h c (List.mem_of_mem_head? hc)), fun c hc => ?_⟩
  rw [hskip] at hc
  cases hc

/-- A token ends a name. -/
theorem stops_of_spelled {c : Char} {more o : List Char} (h : Spelled (c :: more) o)
    (hblank : isBlank c = false) (hname : isIdentifierChar c = false) {further : List Char}
    (hc : c ∉ further) (rest : List Char) : Stops further (o ++ rest) := by
  have hskip := h.skip_append hblank rest
  refine ⟨?_, ?_⟩
  · obtain ⟨blanks, hblanks, rfl⟩ := h
    cases blanks with
    | nil =>
      rintro d ⟨⟩
      exact hname
    | cons b blanks =>
      rintro d ⟨⟩
      exact isIdentifierChar_eq_false (hblanks b List.mem_cons_self)
  · rw [hskip]
    rintro d ⟨⟩
    exact hc

/-- A name is read up to a character that cannot belong to it. -/
theorem identifier_eq_ok {name : String} (hname : IsIdentifier name) {cs rest : List Char}
    (hcs : skip cs = name.toList ++ rest)
    (hrest : ∀ c ∈ rest.head?, isIdentifierChar c = false) :
    ∃ hlt, identifier cs = .ok (name, ⟨rest, hlt⟩) := by
  obtain ⟨c, ds, hlist⟩ := List.exists_cons_of_ne_nil hname.nonempty
  have hchars := hname.chars
  rw [hlist] at hchars
  rw [hlist, List.cons_append] at hcs
  obtain ⟨hc, hds⟩ := List.forall_mem_cons.mp hchars
  have htake : rest.takeWhile isIdentifierChar = [] := by
    cases rest with
    | nil => rfl
    | cons d _ => simp [hrest d rfl]
  have hdrop : rest.dropWhile isIdentifierChar = rest := by
    cases rest with
    | nil => rfl
    | cons d _ => simp [hrest d rfl]
  have hlt : rest.length < cs.length := by
    have := length_lt_of_skip_eq hcs
    rw [List.length_append] at this
    omega
  refine ⟨hlt, ?_⟩
  rw [identifier]
  split
  next hnil => cases hcs.symm.trans hnil
  next d r hr =>
    cases hcs.symm.trans hr
    simp only [hc, if_true, List.takeWhile_append_of_pos hds, List.dropWhile_append_of_pos hds,
      htake, hdrop, List.append_nil, ← hlist, String.ofList_toList]

theorem upperIdentifier_eq_ok {name : String} (hname : IsVariableName name) {cs rest : List Char}
    (hcs : skip cs = name.toList ++ rest)
    (hrest : ∀ c ∈ rest.head?, isIdentifierChar c = false) :
    ∃ hlt, upperIdentifier cs = .ok (name, ⟨rest, hlt⟩) := by
  obtain ⟨hlt, hread⟩ := identifier_eq_ok hname.toIsIdentifier hcs hrest
  refine ⟨hlt, ?_⟩
  rw [upperIdentifier, hread]
  simp only [hname.upper, if_true]

/-- A name starts with one of its characters, which is no blank. -/
theorem IsIdentifier.skip_append {name : String} (h : IsIdentifier name) {u : List Char}
    (hu : Spelled name.toList u) (rest : List Char) :
    skip (u ++ rest) = name.toList ++ rest ∧
      ∀ d ∈ (skip (u ++ rest)).head?, isIdentifierChar d = true := by
  obtain ⟨c, ds, hlist⟩ := List.exists_cons_of_ne_nil h.nonempty
  have hc : isIdentifierChar c = true := h.chars c (by simp [hlist])
  rw [hlist] at hu ⊢
  rw [hu.skip_append (isBlank_eq_false hc) rest]
  refine ⟨rfl, ?_⟩
  rintro d ⟨⟩
  exact hc

/-- No name is read where another character stands. -/
theorem identifier_eq_error {cs : List Char}
    (h : ∀ d ∈ (skip cs).head?, isIdentifierChar d = false) : ∃ e, identifier cs = .error e := by
  rw [identifier]
  split
  · exact ⟨_, rfl⟩
  next c r hskip =>
    have hc : isIdentifierChar c = false := h c (by rw [hskip]; rfl)
    rw [hc]
    exact ⟨_, rfl⟩

/-- A list behind a separator is read as further items. -/
theorem listTail_of_list1 {α : Type} {sep : (cs : List Char) → Except (List Char) (Rest cs)}
    {item : (cs : List Char) → Result α cs} {cs r rest : List Char} {xs : List α}
    {hr : r.length < cs.length} {hlt : rest.length < r.length} (hsep : sep cs = .ok ⟨r, hr⟩)
    (hxs : list1 sep item r = .ok (xs, ⟨rest, hlt⟩)) :
    ∃ hle, listTail sep item cs = (xs, ⟨rest, hle⟩) := by
  refine ⟨by omega, ?_⟩
  rw [list1] at hxs
  split at hxs
  · cases hxs
  next hitem =>
    cases hxs
    rw [listTail, hsep]
    simp only [hitem]

/-- A list of terms behind a comma is read as further terms. -/
theorem termsTail_of_terms {cs r rest : List Char} {ts : List Term} {hr : r.length < cs.length}
    {hlt : rest.length < r.length} (hcomma : token ',' [] cs = .ok ⟨r, hr⟩)
    (hts : terms r = .ok (ts, ⟨rest, hlt⟩)) : ∃ hle, termsTail cs = (ts, ⟨rest, hle⟩) := by
  rw [termsTail_eq_listTail]
  exact listTail_of_list1 hcomma ((terms_eq_list1 r).symm.trans hts)

/-- Whether terms are read from a text up to its end. -/
structure TermsRead (ts : List Term) (u : List Char) : Prop where
  /-- A single term is read before a text that is not a list of arguments. -/
  single : ∀ t, ts = [t] → ∀ rest, Stops ['('] rest →
    ∃ hlt, term (u ++ rest) = .ok (t, ⟨rest, hlt⟩)
  /-- All terms are read before a text that does not go on with a further one. -/
  all : ∀ rest, Stops ['(', ','] rest → ∃ hlt, terms (u ++ rest) = .ok (ts, ⟨rest, hlt⟩)

theorem termsRead_singleton {t : Term} {u : List Char}
    (h : ∀ rest, Stops ['('] rest → ∃ hlt, term (u ++ rest) = .ok (t, ⟨rest, hlt⟩)) :
    TermsRead [t] u := by
  refine ⟨fun t' ht => List.singleton_inj.mp ht ▸ h, fun rest hrest => ?_⟩
  obtain ⟨hlt, hterm⟩ := h rest (hrest.mono (by simp))
  obtain ⟨e, hcomma⟩ := token_eq_error [] (hrest.ne (c := ',') (by simp))
  refine ⟨hlt, ?_⟩
  rw [terms, hterm]
  simp only [termsTail, hcomma]
  rfl

/-- The texts of terms are read. -/
theorem TermsWritten.read {ts : List Term} {u : List Char} (h : TermsWritten ts u) :
    TermsRead ts u := by
  induction h with
  | @var x u hx hu =>
    refine termsRead_singleton fun rest hrest => ?_
    obtain ⟨hlt, hname⟩ :=
      identifier_eq_ok hx.toIsIdentifier (hx.skip_append hu rest).1 hrest.name
    refine ⟨hlt, ?_⟩
    rw [term, hname]
    simp only [hx.upper, if_true]
  | @const a u ha hu =>
    refine termsRead_singleton fun rest hrest => ?_
    obtain ⟨hlt, hname⟩ :=
      identifier_eq_ok ha.toIsIdentifier (ha.skip_append hu rest).1 hrest.name
    obtain ⟨e, hopen⟩ := token_eq_error [] (hrest.ne (c := '(') (by simp))
    refine ⟨hlt, ?_⟩
    rw [term, hname]
    simp only [ha.lower, Bool.false_eq_true, if_false, hopen]
  | @app f args u o v c hf hu ho _ hc ih =>
    refine termsRead_singleton fun rest _ => ?_
    rw [List.append_assoc, List.append_assoc, List.append_assoc]
    have hafter : Stops [] (o ++ (v ++ (c ++ rest))) :=
      stops_of_spelled ho (by decide) (by decide) List.not_mem_nil _
    obtain ⟨hlt, hname⟩ := identifier_eq_ok hf.toIsIdentifier (hf.skip_append hu _).1 hafter.name
    obtain ⟨h₁, hopen⟩ := token_eq_ok.mpr (ho.skip_append (by decide) (v ++ (c ++ rest)))
    obtain ⟨h₂, hargs⟩ := ih.all (c ++ rest)
      (stops_of_spelled hc (by decide) (by decide) (by decide) rest)
    obtain ⟨h₃, hclose⟩ := token_eq_ok.mpr (hc.skip_append (by decide) rest)
    refine ⟨by omega, ?_⟩
    rw [term, hname]
    simp only [hf.lower, Bool.false_eq_true, if_false, hopen, hargs, hclose]
  | @cons t ts u o v _ ho hts iht ihts =>
    refine ⟨fun t' ht => absurd (List.cons.inj ht).2 hts.ne_nil, fun rest hrest => ?_⟩
    rw [List.append_assoc, List.append_assoc]
    obtain ⟨hlt, hterm⟩ := iht.single t rfl (o ++ (v ++ rest))
      (stops_of_spelled ho (by decide) (by decide) (by decide) _)
    obtain ⟨h₁, hcomma⟩ := token_eq_ok.mpr (ho.skip_append (by decide) (v ++ rest))
    obtain ⟨h₂, hterms⟩ := ihts.all rest hrest
    obtain ⟨hle, htail⟩ := termsTail_of_terms hcomma hterms
    refine ⟨by omega, ?_⟩
    rw [terms, hterm]
    simp only [htail]

/-- A relation is its name and its arguments in brackets. -/
theorem relation_eq_ok {name : String} {args : List Term} {u o : List Char}
    (hname : IsVariableName name) (hu : Spelled name.toList u) (ho : Spelled ['('] o)
    {cs r r' rest : List Char} (hcs : skip cs = skip (u ++ (o ++ r)))
    {hle : r'.length ≤ r.length} (hargs : list0 (token ',' []) term r = (args, ⟨r', hle⟩))
    (hclose : skip r' = [')'] ++ rest) : ∃ hlt, relation cs = .ok (⟨name, args⟩, ⟨rest, hlt⟩) := by
  have hafter : Stops [] (o ++ r) :=
    stops_of_spelled ho (by decide) (by decide) List.not_mem_nil r
  have hskip := hcs.trans (hname.skip_append hu (o ++ r)).1
  obtain ⟨hlt, hread⟩ := upperIdentifier_eq_ok hname hskip hafter.name
  obtain ⟨h₁, hopen⟩ := token_eq_ok.mpr (ho.skip_append (by decide) r)
  obtain ⟨h₂, hclose⟩ := token_eq_ok.mpr hclose
  refine ⟨by omega, ?_⟩
  rw [relation, hread]
  dsimp only
  rw [hopen]
  dsimp only
  rw [hargs]
  dsimp only
  rw [hclose]

/-- The text of a relation is read, whatever stands behind it. -/
theorem RelationWritten.read {r : Relation} {u : List Char} (h : RelationWritten r u)
    {cs rest : List Char} (hcs : skip cs = skip (u ++ rest)) :
    ∃ hlt, relation cs = .ok (r, ⟨rest, hlt⟩) := by
  cases h with
  | @bare name u o c hname hu ho hc =>
    rw [List.append_assoc, List.append_assoc] at hcs
    have hskip := hc.skip_append (by decide) rest
    -- No name starts with a bracket, so the list of terms is empty.
    obtain ⟨e, hnone⟩ : ∃ e, identifier (c ++ rest) = .error e := identifier_eq_error (by
      rw [hskip]
      rintro d ⟨⟩
      decide)
    have hargs : list0 (token ',' []) term (c ++ rest) = ([], .whole _) := by
      rw [list0, list1, term, hnone]
    exact relation_eq_ok hname hu ho hcs hargs hskip
  | @applied name args u o v c hname hu ho hargs hc =>
    rw [List.append_assoc, List.append_assoc, List.append_assoc] at hcs
    obtain ⟨hlt, hterms⟩ := hargs.read.all (c ++ rest)
      (stops_of_spelled hc (by decide) (by decide) (by decide) rest)
    have hlist : list0 (token ',' []) term (v ++ (c ++ rest)) =
        (args, ⟨c ++ rest, Nat.le_of_lt hlt⟩) := by
      rw [list0, ← terms_eq_list1, hterms]
    exact relation_eq_ok hname hu ho hcs hlist (hc.skip_append (by decide) rest)

/-- The text of an atomic formula is read before a text that ends a name. -/
theorem AtomWritten.read {logic : Logic} {f : Formula} {u : List Char}
    (h : AtomWritten logic f u) {rest : List Char}
    (hrest : ∀ c ∈ rest.head?, isIdentifierChar c = false) :
    ∃ hlt, blankedAtom logic (u ++ rest) = .ok (f, ⟨rest, hlt⟩) := by
  have hskip : skip (skip (u ++ rest)) = skip (u ++ rest) := List.dropWhile_idempotent _ _
  have hatom : ∃ hlt, atom logic (skip (u ++ rest)) = .ok (f, ⟨rest, hlt⟩) := by
    cases h with
    | var hname hu =>
      obtain ⟨hlt, hread⟩ :=
        identifier_eq_ok hname (hskip.trans (hname.skip_append hu rest).1) hrest
      exact ⟨hlt, by rw [atom, hread]⟩
    | rel hr =>
      obtain ⟨hlt, hread⟩ := hr.read hskip
      exact ⟨hlt, by rw [atom, hread]⟩
  obtain ⟨hlt, hatom⟩ := hatom
  exact ⟨hlt.trans_le (length_skip_le _), by rw [blankedAtom, hatom]⟩

/-- The text of an atomic formula starts with a character of a name. -/
theorem AtomWritten.head {logic : Logic} {f : Formula} {u : List Char}
    (h : AtomWritten logic f u) (rest : List Char) :
    ∀ d ∈ (skip (u ++ rest)).head?, isIdentifierChar d = true := by
  cases h with
  | var hname hu => exact (hname.skip_append hu rest).2
  | rel hr =>
    cases hr with
    | bare hname hu _ _ =>
      rw [List.append_assoc, List.append_assoc]
      exact (hname.skip_append hu _).2
    | applied hname hu _ _ _ =>
      rw [List.append_assoc, List.append_assoc, List.append_assoc]
      exact (hname.skip_append hu _).2

/-- The parser of a level. -/
def Level.parser (logic : Logic) : Level → (cs : List Char) → Result Formula cs
  | .equivalence => Grammar.equivalence logic
  | .implication => Grammar.implication logic
  | .disjunction => Grammar.disjunction logic
  | .conjunction => Grammar.conjunction logic
  | .unary => Grammar.unary logic

/-- What the parser of a level does behind a formula of this level: one that groups to the left
extends it to the right. -/
def Level.extend (logic : Logic) : Level → Formula → (cs : List Char) → Formula × Remainder cs
  | .equivalence => equivalenceTail logic
  | .disjunction => disjunctionTail logic
  | .conjunction => conjunctionTail logic
  | .implication | .unary => fun f cs => (f, .whole cs)

/-- The first characters of the connectives that may not follow a formula of a level, as the
formula would go on with them. -/
def Level.stops : Level → List Char
  | .equivalence => ['&', '|', '-', '<']
  | .implication => ['&', '|', '-']
  | .disjunction => ['&', '|']
  | .conjunction => ['&']
  | .unary => []

/-- The first characters of the connectives that would become part of the last item of a formula
of a level. -/
def Level.itemStops : Level → List Char
  | .implication => Level.implication.stops
  | l => l.tighter.stops

/-- Whether the parser of a level reads a formula from a text and goes on behind it. -/
def Reads (logic : Logic) (l : Level) (f : Formula) (u : List Char) : Prop :=
  ∀ rest, Stops l.itemStops rest → (l.parser logic (u ++ rest)).plain =
    .ok ((l.extend logic f rest).1, (l.extend logic f rest).2.1)

section Chain

variable {c : Char} {more : List Char} {item chain : (cs : List Char) → Result Formula cs}
  {join : Formula → Formula → Formula} {tail : Formula → (cs : List Char) → Formula × Remainder cs}

/-- A chain extends its first item. -/
theorem IsChain.plain_eq (h : IsChain c more item join chain tail) {cs rest : List Char}
    {f : Formula} (hf : (item cs).plain = .ok (f, rest)) :
    (chain cs).plain = .ok ((tail f rest).1, (tail f rest).2.1) := by
  obtain ⟨hlt, hf⟩ := Result.plain_eq_ok.mp hf
  rw [h.chain_eq, hf]
  rfl

/-- An item behind the token is joined. -/
theorem IsChain.tail_join (h : IsChain c more item join chain tail) {cs r rest : List Char}
    {f g : Formula} (hsep : skip cs = c :: more ++ r) (hg : (item r).plain = .ok (g, rest)) :
    ((tail f cs).1, (tail f cs).2.1) =
      ((tail (join f g) rest).1, (tail (join f g) rest).2.1) := by
  obtain ⟨hr, hsep⟩ := token_eq_ok.mpr hsep
  obtain ⟨hlt, hg⟩ := Result.plain_eq_ok.mp hg
  rw [h.tail_eq, hsep]
  dsimp only
  rw [hg]

/-- Without the token nothing is joined. -/
theorem IsChain.tail_of_ne (h : IsChain c more item join chain tail) {cs : List Char} {f : Formula}
    (hc : ∀ d ∈ (skip cs).head?, d ≠ c) : tail f cs = (f, .whole cs) := by
  obtain ⟨e, hsep⟩ := token_eq_error more hc
  rw [h.tail_eq, hsep]

end Chain

variable {logic : Logic} {l : Level} {f g : Formula} {u o v rest : List Char}

/-- Before a text that does not go on, a formula is read as it is. -/
theorem Reads.whole (h : Reads logic l f u) (hrest : Stops l.stops rest) :
    (l.parser logic (u ++ rest)).plain = .ok (f, rest) := by
  have hitem : Stops l.itemStops rest := by
    cases l <;> exact hrest.mono (by decide)
  have halone : l.extend logic f rest = (f, .whole rest) := by
    cases l with
    | equivalence => exact (isChain_equivalence logic).tail_of_ne (hrest.ne (by decide))
    | disjunction => exact (isChain_disjunction logic).tail_of_ne (hrest.ne (by decide))
    | conjunction => exact (isChain_conjunction logic).tail_of_ne (hrest.ne (by decide))
    | implication | unary => rfl
  rw [h rest hitem, halone]
  rfl

/-- Reading may end behind a formula that cannot be extended. -/
theorem reads_of_eq_ok (hl : ∀ cs, l.extend logic f cs = (f, .whole cs))
    (h : ∀ rest, Stops l.itemStops rest →
      ∃ hlt, l.parser logic (u ++ rest) = .ok (f, ⟨rest, hlt⟩)) : Reads logic l f u := by
  intro rest hrest
  rw [hl rest]
  exact Result.plain_eq_ok.mpr (h rest hrest)

/-- A formula of a chain is extended by an item behind the token of the chain. -/
theorem IsChain.reads_join {c : Char} {more : List Char} {join : Formula → Formula → Formula}
    (h : IsChain c more (l.tighter.parser logic) join (l.parser logic) (l.extend logic))
    (hstops : l.itemStops = l.tighter.stops) (hblank : isBlank c = false)
    (hname : isIdentifierChar c = false) (hc : c ∉ l.itemStops) (hf : Reads logic l f u)
    (ho : Spelled (c :: more) o) (hg : Reads logic l.tighter g v) :
    Reads logic l (join f g) (u ++ o ++ v) := by
  intro rest hrest
  have hafter := stops_of_spelled ho hblank hname hc (v ++ rest)
  have hitem := hg.whole (hstops ▸ hrest)
  rw [List.append_assoc, List.append_assoc, hf (o ++ (v ++ rest)) hafter]
  exact congrArg Except.ok (h.tail_join (ho.skip_append hblank (v ++ rest)) hitem)

/-- An item is a formula of its chain. -/
theorem IsChain.reads_item {c : Char} {more : List Char} {join : Formula → Formula → Formula}
    (h : IsChain c more (l.tighter.parser logic) join (l.parser logic) (l.extend logic))
    (hstops : l.itemStops = l.tighter.stops) (hf : Reads logic l.tighter f u) :
    Reads logic l f u := by
  intro rest hrest
  exact h.plain_eq (hf.whole (hstops ▸ hrest))

private theorem arrow_eq_ok (ho : Spelled ['-', '>'] o ∨ Spelled ['-', '-', '>'] o)
    (rest : List Char) :
    ∃ hlt, arrow (o ++ rest) = .ok ⟨rest, hlt⟩ := by
  rcases ho with ho | ho
  · have hskip := ho.skip_append (by decide) rest
    obtain ⟨hlt, hshort⟩ := token_eq_ok.mpr hskip
    refine ⟨hlt, ?_⟩
    rw [arrow]
    split
    next r hlong =>
      have hother := token_eq_ok.mp ⟨r.2, hlong⟩
      rw [hskip] at hother
      simp at hother
    · exact hshort
  · obtain ⟨hlt, hlong⟩ := token_eq_ok.mpr (ho.skip_append (by decide) rest)
    exact ⟨hlt, by rw [arrow, hlong]⟩

private theorem arrow_eq_error {cs : List Char} (h : ∀ d ∈ (skip cs).head?, d ≠ '-') :
    ∃ e, arrow cs = .error e := by
  obtain ⟨e₁, hlong⟩ := token_eq_error ['-', '>'] h
  obtain ⟨e₂, hshort⟩ := token_eq_error ['>'] h
  exact ⟨e₂, by rw [arrow, hlong]; exact hshort⟩

theorem reads_imp (hf : Reads logic .disjunction f u)
    (ho : Spelled ['-', '>'] o ∨ Spelled ['-', '-', '>'] o) (hg : Reads logic .implication g v) :
    Reads logic .implication (.imp f g) (u ++ o ++ v) := by
  refine reads_of_eq_ok (fun _ => rfl) fun rest hrest => ?_
  rw [Level.parser, List.append_assoc, List.append_assoc]
  have hafter : Stops Level.disjunction.stops (o ++ (v ++ rest)) := by
    rcases ho with ho | ho <;> exact stops_of_spelled ho (by decide) (by decide) (by decide) _
  obtain ⟨h₁, hleft⟩ := Result.plain_eq_ok.mp (hf.whole hafter)
  obtain ⟨h₂, harrow⟩ := arrow_eq_ok ho (v ++ rest)
  obtain ⟨h₃, hright⟩ := Result.plain_eq_ok.mp (hg.whole hrest)
  simp only [Level.parser] at hleft hright
  refine ⟨by omega, ?_⟩
  rw [implication, hleft]
  simp only [harrow, hright]

theorem reads_implication_of_disjunction (hf : Reads logic .disjunction f u) :
    Reads logic .implication f u := by
  refine reads_of_eq_ok (fun _ => rfl) fun rest hrest => ?_
  obtain ⟨hlt, hleft⟩ := Result.plain_eq_ok.mp (hf.whole (hrest.mono (by decide)))
  obtain ⟨e, harrow⟩ := arrow_eq_error (hrest.ne (by decide))
  simp only [Level.parser] at hleft ⊢
  refine ⟨hlt, ?_⟩
  rw [implication, hleft]
  simp only [harrow]

private theorem quantifierWord_eq_some {universal : Bool} {q : List Char}
    (hq : Spelled (quantifierText universal) q) (rest : List Char) :
    ∃ hlt, quantifierWord (q ++ rest) = some (universal, ⟨rest, hlt⟩) := by
  cases universal with
  | true =>
    obtain ⟨hlt, hall⟩ := token_eq_ok.mpr (hq.skip_append (by decide) rest)
    exact ⟨hlt, by rw [quantifierWord, hall]⟩
  | false =>
    have hskip := hq.skip_append (by decide) rest
    obtain ⟨hlt, hex⟩ := token_eq_ok.mpr hskip
    refine ⟨hlt, ?_⟩
    rw [quantifierWord]
    split
    next r hall =>
      have hother := token_eq_ok.mp ⟨r.2, hall⟩
      rw [hskip] at hother
      simp at hother
    · rw [hex]

theorem quantifier_eq_some {universal : Bool} {x : String} {q c : List Char}
    (hq : Spelled (quantifierText universal) q) (hx : IsVariableName x) (hv : Spelled x.toList v)
    (hc : Spelled [':'] c) (rest : List Char) :
    ∃ hlt, quantifier .firstOrder (q ++ (v ++ (c ++ rest))) =
      some (Formula.quantify universal x, ⟨rest, hlt⟩) := by
  have hafter : Stops [] (c ++ rest) :=
    stops_of_spelled hc (by decide) (by decide) List.not_mem_nil rest
  obtain ⟨h₁, hword⟩ := quantifierWord_eq_some hq (v ++ (c ++ rest))
  obtain ⟨h₂, hread⟩ := upperIdentifier_eq_ok hx (hx.skip_append hv (c ++ rest)).1 hafter.name
  obtain ⟨h₃, hcolon⟩ := token_eq_ok.mpr (hc.skip_append (by decide) rest)
  refine ⟨by omega, ?_⟩
  rw [quantifier, hword]
  simp only [hread, hcolon]
  cases universal <;> rfl

/-- Without a backslash there is no quantifier. -/
theorem quantifier_eq_none (logic : Logic) {cs : List Char} (h : ∀ d ∈ (skip cs).head?, d ≠ '\\') :
    quantifier logic cs = none := by
  cases logic with
  | propositional => rfl
  | firstOrder =>
    obtain ⟨e₁, hall⟩ := token_eq_error ['a', 'l', 'l'] h
    obtain ⟨e₂, hex⟩ := token_eq_error ['e', 'x'] h
    rw [quantifier, quantifierWord, hall]
    simp only [hex]

theorem reads_not (ho : Spelled ['!'] o) (hf : Reads logic .unary f u) :
    Reads logic .unary (.not f) (o ++ u) := by
  refine reads_of_eq_ok (fun _ => rfl) fun rest hrest => ?_
  rw [Level.parser, List.append_assoc]
  obtain ⟨h₁, hnot⟩ := token_eq_ok.mpr (ho.skip_append (by decide) (u ++ rest))
  obtain ⟨h₂, hread⟩ := Result.plain_eq_ok.mp (hf.whole hrest)
  rw [Level.parser] at hread
  refine ⟨by omega, ?_⟩
  rw [unary, hnot]
  simp only [hread]

theorem reads_brackets {c : List Char} (ho : Spelled ['('] o) (hf : Reads logic .equivalence f u)
    (hc : Spelled [')'] c) : Reads logic .unary f (o ++ u ++ c) := by
  refine reads_of_eq_ok (fun _ => rfl) fun rest _ => ?_
  rw [Level.parser, List.append_assoc, List.append_assoc]
  have hskip := ho.skip_append (by decide) (u ++ (c ++ rest))
  have hother {d : Char} (hd : '(' ≠ d) : ∀ e ∈ (skip (o ++ (u ++ (c ++ rest)))).head?, e ≠ d := by
    rw [hskip]
    rintro e ⟨⟩
    exact hd
  obtain ⟨e, hnot⟩ := token_eq_error [] (hother (d := '!') (by decide))
  have hquantifier := quantifier_eq_none logic (hother (by decide))
  obtain ⟨h₁, hopen⟩ := token_eq_ok.mpr hskip
  obtain ⟨h₂, hread⟩ := Result.plain_eq_ok.mp
    (hf.whole (stops_of_spelled hc (by decide) (by decide) (by decide) rest))
  obtain ⟨h₃, hclose⟩ := token_eq_ok.mpr (hc.skip_append (by decide) rest)
  rw [Level.parser] at hread
  refine ⟨by omega, ?_⟩
  rw [unary, hnot]
  simp only [hquantifier, hopen, hread, hclose]

theorem reads_quantified {universal : Bool} {x : String} {q c : List Char}
    (hq : Spelled (quantifierText universal) q) (hx : IsVariableName x) (hv : Spelled x.toList v)
    (hc : Spelled [':'] c) (hf : Reads .firstOrder .unary f u) :
    Reads .firstOrder .unary (.quantify universal x f) (q ++ v ++ c ++ u) := by
  refine reads_of_eq_ok (fun _ => rfl) fun rest hrest => ?_
  rw [Level.parser, List.append_assoc, List.append_assoc, List.append_assoc]
  obtain ⟨e, hnot⟩ : ∃ e, token '!' [] (q ++ (v ++ (c ++ (u ++ rest)))) = .error e := by
    refine token_eq_error [] ?_
    cases universal <;>
    · rw [hq.skip_append (by decide)]
      rintro d ⟨⟩
      decide
  obtain ⟨h₁, hquantifier⟩ := quantifier_eq_some hq hx hv hc (u ++ rest)
  obtain ⟨h₂, hread⟩ := Result.plain_eq_ok.mp (hf.whole hrest)
  rw [Level.parser] at hread
  refine ⟨by omega, ?_⟩
  rw [unary, hnot]
  simp only [hquantifier, hread]

theorem reads_atomic (h : AtomWritten logic f u) : Reads logic .unary f u := by
  refine reads_of_eq_ok (fun _ => rfl) fun rest hrest => ?_
  have hother {d : Char} (hd : isIdentifierChar d = false) :
      ∀ e ∈ (skip (u ++ rest)).head?, e ≠ d := by
    rintro e he rfl
    rw [h.head rest e he] at hd
    cases hd
  obtain ⟨e₁, hnot⟩ := token_eq_error [] (hother (d := '!') (by decide))
  obtain ⟨e₂, hopen⟩ := token_eq_error [] (hother (d := '(') (by decide))
  have hquantifier := quantifier_eq_none logic (hother (by decide))
  obtain ⟨hlt, hatom⟩ := h.read hrest.name
  rw [Level.parser]
  refine ⟨hlt, ?_⟩
  rw [unary, hnot]
  simp only [hquantifier, hopen, hatom]

/-- The texts of formulas are read. -/
theorem Written.reads (h : Written logic l f u) : Reads logic l f u := by
  induction h with
  | iff _ ho _ ihf ihg =>
    exact (isChain_equivalence logic).reads_join (l := .equivalence) rfl (by decide) (by decide)
      (by decide) ihf ho ihg
  | imp _ ho _ ihf ihg => exact reads_imp ihf ho ihg
  | or _ ho _ ihf ihg =>
    exact (isChain_disjunction logic).reads_join (l := .disjunction) rfl (by decide) (by decide)
      (by decide) ihf ho ihg
  | and _ ho _ ihf ihg =>
    exact (isChain_conjunction logic).reads_join (l := .conjunction) rfl (by decide) (by decide)
      (by decide) ihf ho ihg
  | not ho _ ih => exact reads_not ho ih
  | brackets ho _ hc ih => exact reads_brackets ho ih hc
  | quantified hlogic hq hx hv hc _ ih =>
    subst hlogic
    exact reads_quantified hq hx hv hc ih
  | atomic h => exact reads_atomic h
  | tighter l _ ih =>
    cases l with
    | equivalence => exact (isChain_equivalence logic).reads_item (l := .equivalence) rfl ih
    | implication => exact reads_implication_of_disjunction ih
    | disjunction => exact (isChain_disjunction logic).reads_item (l := .disjunction) rfl ih
    | conjunction => exact (isChain_conjunction logic).reads_item (l := .conjunction) rfl ih
    | unary => exact ih

end Grammar

namespace Formula

open Grammar Scan

/-- Whether a whole text is that of a formula. Blanks may stand behind its last token. -/
def WrittenAs (logic : Logic) (f : Formula) (text : String) : Prop :=
  ∃ u blanks, text.toList = u ++ blanks ∧ Written logic .equivalence f u ∧
    ∀ c ∈ blanks, isBlank c = true

theorem writtenAs_iff_read {logic : Logic} {f : Formula} {text : String} :
    f.WrittenAs logic text ↔
      ∃ rest, (equivalence logic text.toList).plain = .ok (f, rest) ∧ skip rest = [] := by
  constructor
  · rintro ⟨u, blanks, htext, hu, hblanks⟩
    refine ⟨blanks, ?_, List.dropWhile_eq_nil_iff.mpr hblanks⟩
    rw [htext]
    exact hu.reads.whole (stops_of_blanks hblanks _)
  · rintro ⟨rest, hread, hrest⟩
    obtain ⟨hlt, hread⟩ := Result.plain_eq_ok.mp hread
    obtain ⟨u, htext, hu⟩ := written_of_equivalence hread
    exact ⟨u, rest, htext, hu, List.dropWhile_eq_nil_iff.mp hrest⟩

/-- A text is read as a formula exactly if it is a text of this formula, in first-order logic if
no variable is free in the formula besides. -/
theorem parse_iff_written (text : String) (f : Formula) :
    (parse .propositional text = .ok f ↔ f.WrittenAs .propositional text) ∧
    (parse .firstOrder text = .ok f ↔ f.WrittenAs .firstOrder text ∧ ∀ x, ¬ f.Free x) := by
  constructor
  · rw [writtenAs_iff_read]
    simp only [parse, Outcome.bind_eq_ok, whole_eq_ok, Outcome.pure_eq_ok]
    constructor
    · rintro ⟨_, hread, rfl⟩
      exact hread
    · intro hread
      exact ⟨f, hread, rfl⟩
  · have hclosed : f.freeVars = [] ↔ ∀ x, ¬ f.Free x := by
      rw [List.eq_nil_iff_forall_not_mem]
      exact forall_congr' fun x => not_congr mem_freeVars
    rw [parse_eq_ok, writtenAs_iff_read, hclosed]

end Formula

end Deduction
