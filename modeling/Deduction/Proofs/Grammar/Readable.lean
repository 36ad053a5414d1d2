import Deduction.Proofs.Grammar.Language

/-!
# Names that can be read

The grammar gives every name that it reads a shape by which it can be read again:
names are identifiers, and variables are told from constants and functions by their
first letter. A term with such names is called readable, and so is a formula whose
terms and quantifiers have them. Whatever the grammar reads is readable.
-/

namespace Deduction

open Grammar

/-- Whether a term has names by which it can be read. -/
inductive Term.Readable : Term → Prop
  | var {x : String} (hx : IsVariableName x) : Readable (.var x)
  | const {a : String} (ha : IsSymbolName a) : Readable (.const a)
  | app {f : String} {args : List Term} (hf : IsSymbolName f) (hne : args ≠ [])
      (hargs : ∀ t ∈ args, Readable t) : Readable (.app f args)

/-- Whether the terms of a relation have names by which they can be read. -/
def Relation.Readable (r : Relation) : Prop := ∀ t ∈ r.args, t.Readable

/-- Whether the terms and the quantifiers of a formula have names by which they can be read. -/
def Formula.Readable : Formula → Prop
  | var _ => True
  | not f => f.Readable
  | and f g => f.Readable ∧ g.Readable
  | or f g => f.Readable ∧ g.Readable
  | imp f g => f.Readable ∧ g.Readable
  | iff f g => f.Readable ∧ g.Readable
  | rel r => r.Readable
  | all x f => IsVariableName x ∧ f.Readable
  | ex x f => IsVariableName x ∧ f.Readable

namespace Grammar

open Scan

/-- Terms that are written in the language are readable. -/
theorem TermsWritten.readable {ts : List Term} {u : List Char} (h : TermsWritten ts u) :
    ∀ t ∈ ts, t.Readable := by
  induction h with
  | var hx _ => exact List.forall_mem_singleton.mpr (.var hx)
  | const ha _ => exact List.forall_mem_singleton.mpr (.const ha)
  | app hf _ _ hargs _ ih => exact List.forall_mem_singleton.mpr (.app hf hargs.ne_nil ih)
  | cons _ _ _ ih iht => exact List.forall_mem_cons.mpr ⟨List.forall_mem_singleton.mp ih, iht⟩

theorem readable_of_term {cs : List Char} {t : Term} {r : Rest cs} (h : term cs = .ok (t, r)) :
    t.Readable := by
  obtain ⟨u, -, hu⟩ := written_of_term.1 cs t r h
  exact List.forall_mem_singleton.mp hu.readable

theorem RelationWritten.readable {r : Relation} {u : List Char} (h : RelationWritten r u) :
    r.Readable := by
  cases h with
  | bare => exact fun t ht => absurd ht List.not_mem_nil
  | applied _ _ _ hargs _ => exact hargs.readable

/-- What is written in the language is built from atomic formulas by connectives and by
quantifiers over variables. -/
theorem Written.shapeInduction {logic : Logic} {l : Level} {f : Formula} {u : List Char}
    (h : Written logic l f u) {Q : Formula → Prop} (hatom : ∀ f u, AtomWritten logic f u → Q f)
    (hnot : ∀ f, Q f → Q (.not f))
    (hconnective : ∀ (k : Formula.Connective) f g, Q f → Q g → Q (k.apply f g))
    (hquantify : logic = .firstOrder →
      ∀ universal x f, IsVariableName x → Q f → Q (Formula.quantify universal x f)) : Q f := by
  induction h with
  | iff _ _ _ ihf ihg => exact hconnective .iff _ _ ihf ihg
  | imp _ _ _ ihf ihg => exact hconnective .imp _ _ ihf ihg
  | or _ _ _ ihf ihg => exact hconnective .or _ _ ihf ihg
  | and _ _ _ ihf ihg => exact hconnective .and _ _ ihf ihg
  | not _ _ ih => exact hnot _ ih
  | brackets _ _ _ ih => exact ih
  | quantified hlogic _ hx _ _ _ ih => exact hquantify hlogic _ _ _ hx ih
  | atomic h => exact hatom _ _ h
  | tighter _ _ ih => exact ih

/-- Every item of a list that is read behind a first item is read as an item. -/
theorem exists_of_mem_listTail {α : Type} {sep : (cs : List Char) → Except (List Char) (Rest cs)}
    {item : (cs : List Char) → Result α cs} {cs : List Char} {x : α}
    (h : x ∈ (listTail sep item cs).1) : ∃ cs' r, item cs' = .ok (x, r) := by
  fun_induction listTail sep item cs with
  | case1 => cases h
  | case2 => cases h
  | case3 cs r hr _ y r' hr' hy ys r'' hr'' htail ih =>
    rcases List.mem_cons.mp h with rfl | h
    · exact ⟨_, _, hy⟩
    · exact ih (htail ▸ h)

/-- Every item of a list that is read is read as an item. -/
theorem exists_of_mem_list0 {α : Type} {sep : (cs : List Char) → Except (List Char) (Rest cs)}
    {item : (cs : List Char) → Result α cs} {cs : List Char} {xs : List α} {r : Remainder cs}
    (h : list0 sep item cs = (xs, r)) {x : α} (hx : x ∈ xs) : ∃ cs' r, item cs' = .ok (x, r) := by
  rw [list0] at h
  split at h
  · cases h
    cases hx
  next hxs =>
    cases h
    rw [list1] at hxs
    split at hxs
    · cases hxs
    next y _ _ hy =>
      cases hxs
      rcases List.mem_cons.mp hx with rfl | hx
      · exact ⟨_, _, hy⟩
      · exact exists_of_mem_listTail hx

/-- A whole text is read if it is read up to blanks. -/
theorem whole_eq_ok {α : Type} {text : String}
    {scan : List Char → Except (List Char) (α × List Char)} {x : α} :
    whole text scan = .ok x ↔ ∃ rest, scan text.toList = .ok (x, rest) ∧ skip rest = [] := by
  rw [whole]
  cases hscan : scan text.toList with
  | error e => simp [finish]
  | ok result =>
    obtain ⟨y, rest⟩ := result
    by_cases hrest : skip rest = []
    · simp only [finish, hrest, List.isEmpty_nil, if_true, Except.ok.injEq, Prod.mk.injEq]
      exact ⟨fun h => ⟨rest, ⟨h, rfl⟩, hrest⟩, fun ⟨_, h, _⟩ => h.1⟩
    · simp only [finish, List.isEmpty_iff, hrest, if_false, Except.ok.injEq, Prod.mk.injEq,
        reduceCtorEq, false_iff]
      rintro ⟨_, ⟨-, rfl⟩, hnil⟩
      exact hrest hnil

private theorem closed_eq_ok {f g : Formula} : closed f = .ok g ↔ f = g ∧ f.freeVars = [] := by
  rw [closed]
  cases f.freeVars <;> simp

end Grammar

/-- A first-order formula is read from a whole text if it is closed. -/
theorem Formula.parse_eq_ok {text : String} {f : Formula} :
    Formula.parse .firstOrder text = .ok f ↔
      (∃ rest, (equivalence .firstOrder text.toList).plain = .ok (f, rest) ∧
        Scan.skip rest = []) ∧ f.freeVars = [] := by
  simp only [Formula.parse, Outcome.bind_eq_ok, whole_eq_ok, closed_eq_ok]
  constructor
  · rintro ⟨g, hread, rfl, hfree⟩
    exact ⟨hread, hfree⟩
  · rintro ⟨hread, hfree⟩
    exact ⟨f, hread, rfl, hfree⟩

/-- A first-order formula that is read is readable and closed. -/
theorem Formula.readable_of_parse {text : String} {f : Formula}
    (h : Formula.parse .firstOrder text = .ok f) : f.Readable ∧ f.freeVars = [] := by
  obtain ⟨⟨rest, hread, -⟩, hfree⟩ := Formula.parse_eq_ok.mp h
  obtain ⟨hlt, hread⟩ := Scan.Result.plain_eq_ok.mp hread
  obtain ⟨u, -, hu⟩ := written_of_equivalence hread
  refine ⟨hu.shapeInduction ?_ (fun _ h => h) ?_ ?_, hfree⟩
  · intro f u hf
    cases hf with
    | rel hr => exact hr.readable
  · intro k f g hf hg
    cases k <;> exact ⟨hf, hg⟩
  · intro _ universal x f hx hf
    cases universal <;> exact ⟨hx, hf⟩

end Deduction
