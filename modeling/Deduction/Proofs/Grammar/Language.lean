import Deduction.Grammar.Text
import Deduction.Proofs.Outcome
import Deduction.Proofs.Shape
import Mathlib.Data.List.TakeWhile

/-!
# The language of formulas

A grammar says which texts are texts of a term, of a relation and of a formula. Blanks
may stand before every token, names are told apart by their first letter, and each
connective has a level of its own, at which it groups to the left or to the right. No
token that may stand behind a name starts with a character of a name, so names are
always as long as they can be.

The parsers take nothing but such texts: what they read from the front of a text is a
text of the language for the value that they give.
-/

namespace Deduction

namespace Scan

theorem Result.plain_eq_ok {α : Type} {cs : List Char} {x : Result α cs} {a : α}
    {rest : List Char} : x.plain = .ok (a, rest) ↔ ∃ h, x = .ok (a, ⟨rest, h⟩) := by
  cases x with
  | error e => simp [plain]
  | ok result =>
    obtain ⟨b, r, hr⟩ := result
    simp only [plain, Except.ok.injEq, Prod.mk.injEq, Subtype.mk.injEq]
    exact ⟨fun ⟨hb, hrest⟩ => ⟨hrest ▸ hr, hb, hrest⟩, fun ⟨_, hb, hrest⟩ => ⟨hb, hrest⟩⟩

/-- Whether a text is a token behind any blanks. -/
def Spelled (tok text : List Char) : Prop :=
  ∃ blanks, (∀ c ∈ blanks, isBlank c = true) ∧ text = blanks ++ tok

theorem spelled_self (tok : List Char) : Spelled tok tok := ⟨[], by simp, rfl⟩

theorem skip_cons {c : Char} (h : isBlank c = false) (cs : List Char) :
    skip (c :: cs) = c :: cs := by
  simp [skip, h]

theorem exists_spelled_of_skip_eq {cs tok rest : List Char} (h : skip cs = tok ++ rest) :
    ∃ text, cs = text ++ rest ∧ Spelled tok text := by
  refine ⟨cs.takeWhile isBlank ++ tok, ?_, _, fun c hc => List.mem_takeWhile_imp hc, rfl⟩
  rw [List.append_assoc, ← h, skip, List.takeWhile_append_dropWhile]

theorem Spelled.skip_append {c : Char} {tok text : List Char} (h : Spelled (c :: tok) text)
    (hc : isBlank c = false) (rest : List Char) : skip (text ++ rest) = c :: tok ++ rest := by
  obtain ⟨blanks, hblanks, rfl⟩ := h
  rw [List.append_assoc, skip, List.dropWhile_append_of_pos hblanks, List.cons_append,
    List.dropWhile_cons_of_neg (by simp [hc])]

/-- More blanks may stand before a token. -/
theorem Spelled.blanks {tok text : List Char} (h : Spelled tok text) {blanks : List Char}
    (hblanks : ∀ c ∈ blanks, isBlank c = true) : Spelled tok (blanks ++ text) := by
  obtain ⟨more, hmore, rfl⟩ := h
  exact ⟨blanks ++ more, List.forall_mem_append.mpr ⟨hblanks, hmore⟩,
    (List.append_assoc ..).symm⟩

private theorem dropLiteral_eq_some {lit cs rest : List Char} :
    dropLiteral lit cs = some rest ↔ cs = lit ++ rest := by
  induction lit generalizing cs with
  | nil => simp [dropLiteral]
  | cons l ls ih =>
    cases cs with
    | nil => simp [dropLiteral]
    | cons c cs => by_cases hlc : l = c <;> simp [dropLiteral, hlc, ih, eq_comm]

/-- A token is read exactly where it stands behind blanks. -/
theorem token_eq_ok {c : Char} {more cs rest : List Char} :
    (∃ hlt, token c more cs = .ok ⟨rest, hlt⟩) ↔ skip cs = c :: more ++ rest := by
  rw [← dropLiteral_eq_some, token]
  split
  next r hr =>
    constructor
    · rintro ⟨_, h⟩
      cases h
      exact hr
    · intro h
      have hlength := length_of_dropLiteral h
      have hskip := length_skip_le cs
      rw [List.length_cons] at hlength
      cases hr.symm.trans h
      exact ⟨by omega, rfl⟩
  next hr => simp [hr]

/-- No token is read where another character stands. -/
theorem token_eq_error {c : Char} {cs : List Char} (more : List Char)
    (h : ∀ d ∈ (skip cs).head?, d ≠ c) : ∃ e, token c more cs = .error e := by
  cases hread : token c more cs with
  | error e => exact ⟨e, rfl⟩
  | ok r =>
    have hskip := token_eq_ok.mp ⟨r.2, hread⟩
    exact absurd rfl (h c (by rw [hskip]; rfl))

theorem spelled_of_token {c : Char} {more cs : List Char} {r : Rest cs}
    (h : token c more cs = .ok r) : ∃ text, cs = text ++ r.1 ∧ Spelled (c :: more) text :=
  exists_spelled_of_skip_eq (token_eq_ok.mp ⟨r.2, h⟩)

end Scan

namespace Grammar

open Scan

/-- Whether a name is an identifier. -/
structure IsIdentifier (name : String) : Prop where
  /-- The name is not empty. -/
  nonempty : name.toList ≠ []
  /-- All its characters may stand in an identifier. -/
  chars : ∀ c ∈ name.toList, isIdentifierChar c = true

/-- Whether a name is that of a variable. -/
structure IsVariableName (name : String) : Prop extends IsIdentifier name where
  /-- The first character is an upper-case letter. -/
  upper : startsUpper name = true

/-- Whether a name is that of a constant or a function. -/
structure IsSymbolName (name : String) : Prop extends IsIdentifier name where
  /-- The first character is no upper-case letter. -/
  lower : startsUpper name = false

instance (name : String) : Decidable (IsVariableName name) :=
  decidable_of_iff
    ((!name.toList.isEmpty && name.toList.all isIdentifierChar && startsUpper name) = true)
    (by
      simp only [Bool.and_eq_true, Bool.not_eq_true', List.isEmpty_eq_false_iff, List.all_eq_true]
      exact ⟨fun ⟨⟨hne, hchars⟩, hupper⟩ => ⟨⟨hne, hchars⟩, hupper⟩,
        fun h => ⟨⟨h.nonempty, h.chars⟩, h.upper⟩⟩)

theorem spelled_of_identifier {cs : List Char} {name : String} {r : Rest cs}
    (h : identifier cs = .ok (name, r)) :
    IsIdentifier name ∧ ∃ text, cs = text ++ r.1 ∧ Spelled name.toList text := by
  rw [identifier] at h
  split at h
  · cases h
  next c rest hskip =>
    split at h
    next hc =>
      cases h
      refine ⟨⟨by simp, fun d hd => ?_⟩, exists_spelled_of_skip_eq (hskip.trans ?_)⟩
      · rw [String.toList_ofList] at hd
        rcases List.mem_cons.mp hd with rfl | hd
        · exact hc
        · exact List.mem_takeWhile_imp hd
      · rw [String.toList_ofList, List.cons_append, List.takeWhile_append_dropWhile]
    · cases h

theorem spelled_of_upperIdentifier {cs : List Char} {name : String} {r : Rest cs}
    (h : upperIdentifier cs = .ok (name, r)) :
    IsVariableName name ∧ ∃ text, cs = text ++ r.1 ∧ Spelled name.toList text := by
  rw [upperIdentifier] at h
  split at h
  next hname =>
    split at h
    next hupper =>
      cases h
      obtain ⟨hidentifier, hspelled⟩ := spelled_of_identifier hname
      exact ⟨⟨hidentifier, hupper⟩, hspelled⟩
    · cases h
  · cases h

/-- Whether a text is that of one or more terms with commas between them. -/
inductive TermsWritten : List Term → List Char → Prop
  | var {x : String} {u : List Char} (hx : IsVariableName x) (hu : Spelled x.toList u) :
    TermsWritten [.var x] u
  | const {a : String} {u : List Char} (ha : IsSymbolName a) (hu : Spelled a.toList u) :
    TermsWritten [.const a] u
  | app {f : String} {args : List Term} {u o v c : List Char} (hf : IsSymbolName f)
    (hu : Spelled f.toList u) (ho : Spelled ['('] o) (hargs : TermsWritten args v)
    (hc : Spelled [')'] c) : TermsWritten [.app f args] (u ++ o ++ v ++ c)
  | cons {t : Term} {ts : List Term} {u o v : List Char} (ht : TermsWritten [t] u)
    (ho : Spelled [','] o) (hts : TermsWritten ts v) : TermsWritten (t :: ts) (u ++ o ++ v)

theorem TermsWritten.ne_nil {ts : List Term} {u : List Char} (h : TermsWritten ts u) :
    ts ≠ [] := by
  cases h <;> exact List.cons_ne_nil _ _

/-- More blanks may stand before terms. -/
theorem TermsWritten.blanks {ts : List Term} {u : List Char} (h : TermsWritten ts u)
    {blanks : List Char} (hblanks : ∀ c ∈ blanks, isBlank c = true) :
    TermsWritten ts (blanks ++ u) := by
  induction h with
  | var hx hu => exact .var hx (hu.blanks hblanks)
  | const ha hu => exact .const ha (hu.blanks hblanks)
  | app hf hu ho hargs hc _ => simpa using TermsWritten.app hf (hu.blanks hblanks) ho hargs hc
  | cons _ ho hts ih _ => simpa using TermsWritten.cons ih ho hts

/-- Terms are read from texts of terms. -/
theorem written_of_term :
    (∀ cs t r, term cs = .ok (t, r) → ∃ u, cs = u ++ r.1 ∧ TermsWritten [t] u) ∧
    (∀ cs ts r, terms cs = .ok (ts, r) → ∃ u, cs = u ++ r.1 ∧ TermsWritten ts u) ∧
    ∀ cs, ∀ t u, TermsWritten [t] u →
      ∃ v, cs = v ++ (termsTail cs).2.1 ∧ TermsWritten (t :: (termsTail cs).1) (u ++ v) := by
  have constant {cs : List Char} {name : String} {r : Rest cs} (h : identifier cs = .ok (name, r))
      (hlower : ¬ startsUpper name = true) :
      ∃ u, cs = u ++ r.1 ∧ TermsWritten [.const name] u := by
    obtain ⟨hname, u, hcs, hu⟩ := spelled_of_identifier h
    exact ⟨u, hcs, .const ⟨hname, Bool.not_eq_true _ ▸ hlower⟩ hu⟩
  have alone {t : Term} {u : List Char} (ht : TermsWritten [t] u) (cs : List Char) :
      ∃ v, cs = v ++ cs ∧ TermsWritten [t] (u ++ v) :=
    ⟨[], rfl, (List.append_nil u).symm ▸ ht⟩
  refine term.mutual_induct
    (fun cs => ∀ t r, term cs = .ok (t, r) → ∃ u, cs = u ++ r.1 ∧ TermsWritten [t] u)
    (fun cs => ∀ ts r, terms cs = .ok (ts, r) → ∃ u, cs = u ++ r.1 ∧ TermsWritten ts u)
    (fun cs => ∀ t u, TermsWritten [t] u →
      ∃ v, cs = v ++ (termsTail cs).2.1 ∧ TermsWritten (t :: (termsTail cs).1) (u ++ v))
    ?_ ?_ ?_ ?_ ?_ ?_ ?_ ?_ ?_ ?_ ?_
  · intro cs e h t r ht
    simp [term, h] at ht
  · intro cs name r hr h hupper t r' ht
    simp only [term, h, hupper, if_true] at ht
    cases ht
    obtain ⟨hname, u, hcs, hu⟩ := spelled_of_identifier h
    exact ⟨u, hcs, .var ⟨hname, hupper⟩ hu⟩
  · intro cs name r hr h hlower e hopen t r' ht
    simp only [term, h, hlower, hopen, Bool.false_eq_true, if_false] at ht
    cases ht
    exact constant h hlower
  · intro cs name r hr h hlower r₁ h₁ hopen e hargs _ t r' ht
    simp only [term, h, hlower, hopen, hargs, Bool.false_eq_true, if_false] at ht
    cases ht
    exact constant h hlower
  · intro cs name r hr h hlower r₁ h₁ hopen args r₂ h₂ hargs e hclose _ t r' ht
    simp only [term, h, hlower, hopen, hargs, hclose, Bool.false_eq_true, if_false] at ht
    cases ht
    exact constant h hlower
  · intro cs name r hr h hlower r₁ h₁ hopen args r₂ h₂ hargs r₃ h₃ hclose ih t r' ht
    simp only [term, h, hlower, hopen, hargs, hclose, Bool.false_eq_true, if_false] at ht
    cases ht
    obtain ⟨hname, u, hcs, hu⟩ := spelled_of_identifier h
    obtain ⟨o, hr₀, ho⟩ := spelled_of_token hopen
    obtain ⟨v, hr₁, hv⟩ := ih _ _ hargs
    obtain ⟨c, hr₂, hc⟩ := spelled_of_token hclose
    exact ⟨_, by simp [hcs, hr₀, hr₁, hr₂], .app ⟨hname, Bool.not_eq_true _ ▸ hlower⟩ hu ho hv hc⟩
  · intro cs e h _ ts r hts
    simp [terms, h] at hts
  · intro cs t r hr h ts r' hr' htail ih ihtail us r'' hus
    simp only [terms, h, htail] at hus
    cases hus
    obtain ⟨u, hcs, hu⟩ := ih _ _ h
    obtain ⟨v, hr, hv⟩ := ihtail _ _ hu
    rw [htail] at hr hv
    exact ⟨_, by simp [hcs, hr], hv⟩
  · intro cs e h t u ht
    simp only [termsTail, h]
    exact alone ht cs
  · intro cs r hr h e hterm _ t u ht
    simp only [termsTail, h, hterm]
    exact alone ht cs
  · intro cs r hr h t r' hr' hterm ts r'' hr'' htail ih ihtail t₀ u₀ ht₀
    simp only [termsTail, h, hterm, htail]
    obtain ⟨o, hcs, ho⟩ := spelled_of_token h
    obtain ⟨u, hr, hu⟩ := ih _ _ hterm
    obtain ⟨v, hr', hv⟩ := ihtail _ _ hu
    rw [htail] at hr' hv
    refine ⟨o ++ (u ++ v), by simp [hcs, hr, hr'], ?_⟩
    rw [← List.append_assoc]
    exact .cons ht₀ ho hv

/-- Whether a text is that of a relation. Its name starts like that of a variable. -/
inductive RelationWritten : Relation → List Char → Prop
  | bare {name : String} {u o c : List Char} (hname : IsVariableName name)
    (hu : Spelled name.toList u) (ho : Spelled ['('] o) (hc : Spelled [')'] c) :
    RelationWritten ⟨name, []⟩ (u ++ o ++ c)
  | applied {name : String} {args : List Term} {u o v c : List Char}
    (hname : IsVariableName name) (hu : Spelled name.toList u) (ho : Spelled ['('] o)
    (hargs : TermsWritten args v) (hc : Spelled [')'] c) :
    RelationWritten ⟨name, args⟩ (u ++ o ++ v ++ c)

theorem termsTail_eq_listTail (cs : List Char) :
    termsTail cs = listTail (token ',' []) term cs := by
  induction hn : cs.length using Nat.strongRecOn generalizing cs with
  | ind n ih =>
    rw [termsTail, listTail]
    rcases token ',' [] cs with e | ⟨r, hr⟩
    · rfl
    · dsimp only
      rcases term r with e | ⟨t, r', hr'⟩
      · rfl
      · dsimp only
        rw [ih r'.length (by omega) r' rfl]

theorem terms_eq_list1 (cs : List Char) : terms cs = list1 (token ',' []) term cs := by
  rw [terms, list1]
  rcases term cs with e | ⟨t, r, hr⟩
  · rfl
  · dsimp only
    rw [termsTail_eq_listTail]

/-- Relations are read from texts of relations. -/
theorem written_of_relation {cs : List Char} {rel : Relation} {r : Rest cs}
    (h : relation cs = .ok (rel, r)) : ∃ u, cs = u ++ r.1 ∧ RelationWritten rel u := by
  rw [relation] at h
  split at h
  · cases h
  next name r₀ _ hread =>
    obtain ⟨hname, u, hcs, hu⟩ := spelled_of_upperIdentifier hread
    split at h
    · cases h
    next r₁ _ hopen =>
      obtain ⟨o, hr₀, ho⟩ := spelled_of_token hopen
      split at h
      next args r₂ _ hargs =>
        split at h
        · cases h
        next hclose =>
          cases h
          obtain ⟨c, hr₂, hc⟩ := spelled_of_token hclose
          rw [list0, ← terms_eq_list1] at hargs
          split at hargs
          · cases hargs
            exact ⟨_, by simp [hcs, hr₀, hr₂], .bare hname hu ho hc⟩
          next hterms =>
            cases hargs
            obtain ⟨v, hr₁, hv⟩ := written_of_term.2.1 _ _ _ hterms
            exact ⟨_, by simp [hcs, hr₀, hr₁, hr₂], .applied hname hu ho hv hc⟩

/-- Whether a text is that of an atomic formula. -/
inductive AtomWritten : Logic → Formula → List Char → Prop
  | var {name : String} {u : List Char} (hname : IsIdentifier name) (hu : Spelled name.toList u) :
    AtomWritten .propositional (.var name) u
  | rel {r : Relation} {u : List Char} (hr : RelationWritten r u) :
    AtomWritten .firstOrder (.rel r) u

/-- How tight the outermost connective of a formula without brackets may be. -/
inductive Level where
  | equivalence
  | implication
  | disjunction
  | conjunction
  | unary

/-- The next tighter level. -/
def Level.tighter : Level → Level
  | .equivalence => .implication
  | .implication => .disjunction
  | .disjunction => .conjunction
  | .conjunction => .unary
  | .unary => .unary

/-- The word for a quantifier. -/
def quantifierText (universal : Bool) : List Char :=
  if universal then ['\\', 'a', 'l', 'l'] else ['\\', 'e', 'x']

/-- Whether a text is that of a formula at a level. -/
inductive Written (logic : Logic) : Level → Formula → List Char → Prop
  | iff {f g : Formula} {u o v : List Char} (hf : Written logic .equivalence f u)
    (ho : Spelled ['<', '=', '>'] o) (hg : Written logic .implication g v) :
    Written logic .equivalence (.iff f g) (u ++ o ++ v)
  | imp {f g : Formula} {u o v : List Char} (hf : Written logic .disjunction f u)
    (ho : Spelled ['-', '>'] o ∨ Spelled ['-', '-', '>'] o) (hg : Written logic .implication g v) :
    Written logic .implication (.imp f g) (u ++ o ++ v)
  | or {f g : Formula} {u o v : List Char} (hf : Written logic .disjunction f u)
    (ho : Spelled ['|'] o) (hg : Written logic .conjunction g v) :
    Written logic .disjunction (.or f g) (u ++ o ++ v)
  | and {f g : Formula} {u o v : List Char} (hf : Written logic .conjunction f u)
    (ho : Spelled ['&'] o) (hg : Written logic .unary g v) :
    Written logic .conjunction (.and f g) (u ++ o ++ v)
  | not {f : Formula} {o u : List Char} (ho : Spelled ['!'] o) (hf : Written logic .unary f u) :
    Written logic .unary (.not f) (o ++ u)
  | brackets {f : Formula} {o u c : List Char} (ho : Spelled ['('] o)
    (hf : Written logic .equivalence f u) (hc : Spelled [')'] c) :
    Written logic .unary f (o ++ u ++ c)
  | quantified {universal : Bool} {x : String} {f : Formula} {q v c u : List Char}
    (hlogic : logic = .firstOrder) (hq : Spelled (quantifierText universal) q)
    (hx : IsVariableName x) (hv : Spelled x.toList v) (hc : Spelled [':'] c)
    (hf : Written logic .unary f u) :
    Written logic .unary (.quantify universal x f) (q ++ v ++ c ++ u)
  | atomic {f : Formula} {u : List Char} (h : AtomWritten logic f u) : Written logic .unary f u
  | tighter (l : Level) {f : Formula} {u : List Char} (h : Written logic l.tighter f u) :
    Written logic l f u

theorem written_of_atom {logic : Logic} {cs : List Char} {f : Formula} {r : Rest cs}
    (h : atom logic cs = .ok (f, r)) : ∃ u, cs = u ++ r.1 ∧ AtomWritten logic f u := by
  cases logic with
  | propositional =>
    rw [atom] at h
    split at h
    · cases h
    next hread =>
      cases h
      obtain ⟨hname, u, hcs, hu⟩ := spelled_of_identifier hread
      exact ⟨u, hcs, .var hname hu⟩
  | firstOrder =>
    rw [atom] at h
    split at h
    · cases h
    next hread =>
      cases h
      obtain ⟨u, hcs, hu⟩ := written_of_relation hread
      exact ⟨u, hcs, .rel hu⟩

/-- More blanks may stand before an atomic formula. -/
theorem AtomWritten.blanks {logic : Logic} {f : Formula} {u : List Char}
    (h : AtomWritten logic f u) {blanks : List Char} (hblanks : ∀ c ∈ blanks, isBlank c = true) :
    AtomWritten logic f (blanks ++ u) := by
  cases h with
  | var hname hu => exact .var hname (hu.blanks hblanks)
  | rel hr =>
    cases hr with
    | bare hname hu ho hc => simpa using AtomWritten.rel (.bare hname (hu.blanks hblanks) ho hc)
    | applied hname hu ho hargs hc =>
      simpa using AtomWritten.rel (.applied hname (hu.blanks hblanks) ho hargs hc)

theorem written_of_blankedAtom {logic : Logic} {cs : List Char} {f : Formula} {r : Rest cs}
    (h : blankedAtom logic cs = .ok (f, r)) : ∃ u, cs = u ++ r.1 ∧ AtomWritten logic f u := by
  rw [blankedAtom] at h
  split at h
  · cases h
  next hread =>
    cases h
    obtain ⟨u, hskip, hu⟩ := written_of_atom hread
    refine ⟨cs.takeWhile isBlank ++ u, ?_, hu.blanks fun c hc => List.mem_takeWhile_imp hc⟩
    rw [List.append_assoc, ← hskip, skip, List.takeWhile_append_dropWhile]

/-- A quantifier that is read binds a variable, in first-order logic. -/
theorem spelled_of_quantifier {logic : Logic} {cs : List Char} {quantify : Formula → Formula}
    {r : Rest cs} (h : quantifier logic cs = some (quantify, r)) :
    logic = .firstOrder ∧ ∃ universal x q v c, quantify = Formula.quantify universal x ∧
      cs = q ++ v ++ c ++ r.1 ∧ Spelled (quantifierText universal) q ∧ IsVariableName x ∧
      Spelled x.toList v ∧ Spelled [':'] c := by
  cases logic with
  | propositional => cases h
  | firstOrder =>
    rw [quantifier] at h
    split at h
    · cases h
    next universal r₀ _ hword =>
      have hquantifier : ∃ q, cs = q ++ r₀ ∧ Spelled (quantifierText universal) q := by
        rw [quantifierWord] at hword
        split at hword
        next hall =>
          cases hword
          exact spelled_of_token hall
        · split at hword
          next hex =>
            cases hword
            exact spelled_of_token hex
          · cases hword
      obtain ⟨q, hcs, hq⟩ := hquantifier
      split at h
      · cases h
      next x _ _ hread =>
        obtain ⟨hx, v, hr₀, hv⟩ := spelled_of_upperIdentifier hread
        split at h
        · cases h
        next hcolon =>
          cases h
          obtain ⟨c, hr₁, hc⟩ := spelled_of_token hcolon
          refine ⟨rfl, universal, x, q, v, c, ?_, by simp [hcs, hr₀, hr₁], hq, hx, hv, hc⟩
          cases universal <;> rfl

theorem spelled_of_arrow {cs : List Char} {r : Rest cs} (h : arrow cs = .ok r) :
    ∃ o, cs = o ++ r.1 ∧ (Spelled ['-', '>'] o ∨ Spelled ['-', '-', '>'] o) := by
  rw [arrow] at h
  split at h
  next hlong =>
    cases h
    obtain ⟨o, hcs, ho⟩ := spelled_of_token hlong
    exact ⟨o, hcs, Or.inr ho⟩
  · obtain ⟨o, hcs, ho⟩ := spelled_of_token h
    exact ⟨o, hcs, Or.inl ho⟩

/-- A parser reads items with a token between them and joins them to the left. -/
structure IsChain (c : Char) (more : List Char) (item : (cs : List Char) → Result Formula cs)
    (join : Formula → Formula → Formula) (chain : (cs : List Char) → Result Formula cs)
    (tail : Formula → (cs : List Char) → Formula × Remainder cs) : Prop where
  /-- The first item is extended to the right. -/
  chain_eq : ∀ cs, chain cs =
    match item cs with
    | .error e => .error e
    | .ok (f, ⟨r, hr⟩) =>
      let (g, ⟨r', hr'⟩) := tail f r
      .ok (g, ⟨r', Nat.lt_of_le_of_lt hr' hr⟩)
  /-- What is there is joined with the next item as long as there is one behind the token. -/
  tail_eq : ∀ left cs, tail left cs =
    match token c more cs with
    | .error _ => (left, .whole cs)
    | .ok ⟨r, hr⟩ =>
      match item r with
      | .error _ => (left, .whole cs)
      | .ok (right, ⟨r', hr'⟩) =>
        let (f, ⟨r'', hr''⟩) := tail (join left right) r'
        (f, ⟨r'', length_le_of_lt_of_lt hr hr' hr''⟩)

theorem isChain_equivalence (logic : Logic) :
    IsChain '<' ['=', '>'] (implication logic) .iff (equivalence logic)
      (equivalenceTail logic) where
  chain_eq cs := equivalence.eq_def logic cs
  tail_eq left cs := equivalenceTail.eq_def logic left cs

theorem isChain_disjunction (logic : Logic) :
    IsChain '|' [] (conjunction logic) .or (disjunction logic) (disjunctionTail logic) where
  chain_eq cs := disjunction.eq_def logic cs
  tail_eq left cs := disjunctionTail.eq_def logic left cs

theorem isChain_conjunction (logic : Logic) :
    IsChain '&' [] (unary logic) .and (conjunction logic) (conjunctionTail logic) where
  chain_eq cs := conjunction.eq_def logic cs
  tail_eq left cs := conjunctionTail.eq_def logic left cs

/-- Whether a parser reads formulas of a level from their texts only, in texts up to a length. -/
def Takes (logic : Logic) (parser : (cs : List Char) → Result Formula cs) (l : Level) (n : Nat) :
    Prop :=
  ∀ cs f r, cs.length ≤ n → parser cs = .ok (f, r) → ∃ u, cs = u ++ r.1 ∧ Written logic l f u

section Takes

variable {logic : Logic} {n : Nat}

/-- A chain takes texts of its level if its items are of the next tighter one. -/
theorem IsChain.takes {c : Char} {more : List Char}
    {item chain : (cs : List Char) → Result Formula cs} {join : Formula → Formula → Formula}
    {tail : Formula → (cs : List Char) → Formula × Remainder cs} {l : Level}
    (h : IsChain c more item join chain tail) (hitem : Takes logic item l.tighter n)
    (hjoin : ∀ {f g u o v}, Written logic l f u → Spelled (c :: more) o →
      Written logic l.tighter g v → Written logic l (join f g) (u ++ o ++ v)) :
    Takes logic chain l n := by
  have htail : ∀ m left u cs, cs.length = m → m ≤ n → Written logic l left u →
      ∃ v, cs = v ++ (tail left cs).2.1 ∧ Written logic l (tail left cs).1 (u ++ v) := by
    intro m
    induction m using Nat.strongRecOn with
    | ind m ih =>
      intro left u cs hcs hm hleft
      have alone : ∃ v, cs = v ++ cs ∧ Written logic l left (u ++ v) :=
        ⟨[], rfl, (List.append_nil u).symm ▸ hleft⟩
      rw [h.tail_eq]
      split
      · exact alone
      next r hr hsep =>
        split
        · exact alone
        next right r' hr' hright =>
          obtain ⟨o, hcs', ho⟩ := spelled_of_token hsep
          obtain ⟨v, hr, hv⟩ := hitem r right _ (by omega) hright
          obtain ⟨w, hr', hw⟩ :=
            ih r'.length (by omega) _ _ r' rfl (by omega) (hjoin hleft ho hv)
          refine ⟨o ++ v ++ w, ?_, by simpa using hw⟩
          rw [List.append_assoc, ← hr', List.append_assoc, ← hr, ← hcs']
  intro cs g r hcs hg
  rw [h.chain_eq] at hg
  split at hg
  · cases hg
  next f r' hr' hf =>
    cases hg
    obtain ⟨u, hcs', hu⟩ := hitem cs f _ hcs hf
    obtain ⟨v, hr', hv⟩ := htail _ f u r' rfl (by omega) (.tighter l hu)
    exact ⟨u ++ v, by rw [List.append_assoc, ← hr', ← hcs'], hv⟩

theorem takes_implication (hitem : Takes logic (disjunction logic) .disjunction n) :
    Takes logic (implication logic) .implication n := by
  -- The right-hand side of an arrow is shorter than the text.
  have hshorter : ∀ m, m ≤ n → Takes logic (implication logic) .implication m := by
    intro m
    induction m using Nat.strongRecOn with
    | ind m ih =>
      intro hm cs f r hcs hf
      rw [implication] at hf
      split at hf
      · cases hf
      next left r₀ hr₀ hleft =>
        obtain ⟨u, hcs', hu⟩ := hitem cs left _ (by omega) hleft
        have alone : ∃ u, cs = u ++ r₀ ∧ Written logic .implication left u :=
          ⟨u, hcs', .tighter .implication hu⟩
        split at hf
        · cases hf
          exact alone
        next r₁ hr₁ harrow =>
          split at hf
          · cases hf
            exact alone
          next right _ _ hright =>
            cases hf
            obtain ⟨o, hr₀', ho⟩ := spelled_of_arrow harrow
            obtain ⟨v, hr₁', hv⟩ :=
              ih r₁.length (by omega) (by omega) r₁ right _ (Nat.le_refl _) hright
            exact ⟨_, by simp [hcs', hr₀', hr₁'], .imp hu ho hv⟩
  exact hshorter n (Nat.le_refl n)

theorem takes_unary
    (hsmaller : ∀ m < n, Takes logic (unary logic) .unary m ∧
      Takes logic (equivalence logic) .equivalence m) : Takes logic (unary logic) .unary n := by
  intro cs f r hcs hf
  have blanked {f r} (h : blankedAtom logic cs = .ok (f, r)) :
      ∃ u, cs = u ++ r.1 ∧ Written logic .unary f u := by
    obtain ⟨u, hcs, hu⟩ := written_of_blankedAtom h
    exact ⟨u, hcs, .atomic hu⟩
  rw [unary] at hf
  split at hf
  next r₁ h₁ hnot =>
    split at hf
    next g _ _ hg =>
      cases hf
      obtain ⟨o, hcs', ho⟩ := spelled_of_token hnot
      obtain ⟨u, hr₁, hu⟩ := (hsmaller r₁.length (by omega)).1 _ _ _ (Nat.le_refl _) hg
      exact ⟨_, by simp [hcs', hr₁], .not ho hu⟩
    · exact blanked hf
  · split at hf
    next quantify r₁ h₁ hquantifier =>
      split at hf
      next g _ _ hg =>
        cases hf
        obtain ⟨hlogic, universal, x, q, v, c, rfl, hcs', hq, hx, hv, hc⟩ :=
          spelled_of_quantifier hquantifier
        obtain ⟨u, hr₁, hu⟩ := (hsmaller r₁.length (by omega)).1 _ _ _ (Nat.le_refl _) hg
        exact ⟨_, by simp [hcs', hr₁], .quantified hlogic hq hx hv hc hu⟩
      · exact blanked hf
    · split at hf
      next r₁ h₁ hopen =>
        split at hf
        next g r₂ _ hg =>
          split at hf
          next hclose =>
            cases hf
            obtain ⟨o, hcs', ho⟩ := spelled_of_token hopen
            obtain ⟨u, hr₁, hu⟩ := (hsmaller r₁.length (by omega)).2 _ _ _ (Nat.le_refl _) hg
            obtain ⟨c, hr₂, hc⟩ := spelled_of_token hclose
            exact ⟨_, by simp [hcs', hr₁, hr₂], .brackets ho hu hc⟩
          · exact blanked hf
        · exact blanked hf
      · exact blanked hf

/-- Formulas are read from texts of formulas. -/
theorem written_of_equivalence {cs : List Char} {f : Formula} {r : Rest cs}
    (h : equivalence logic cs = .ok (f, r)) :
    ∃ u, cs = u ++ r.1 ∧ Written logic .equivalence f u := by
  have hall : ∀ n, Takes logic (unary logic) .unary n ∧
      Takes logic (equivalence logic) .equivalence n := by
    intro n
    induction n using Nat.strongRecOn with
    | ind n ih =>
      have hunary := takes_unary ih
      have hconjunction := (isChain_conjunction logic).takes (l := .conjunction) hunary .and
      have hdisjunction := (isChain_disjunction logic).takes (l := .disjunction) hconjunction .or
      exact ⟨hunary, (isChain_equivalence logic).takes (l := .equivalence)
        (takes_implication hdisjunction) .iff⟩
  exact (hall cs.length).2 cs f r (Nat.le_refl _) h

end Takes

end Grammar

end Deduction
