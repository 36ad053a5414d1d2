import Deduction.Proofs.Formula.Capture
import Deduction.Proofs.Formula.Symbols
import Deduction.Proofs.Grammar.RoundTrip
import Deduction.Proofs.Legible
import Deduction.Proofs.Solving

/-!
# Readable instances

Putting readable terms in for variables keeps terms and formulas readable, and so does
normalization. Unification puts together what it finds in the given terms, so it
answers with readable terms if it is asked about such. Names that are numbered keep
the shape of what they number.
-/

namespace Deduction

open Grammar

namespace Term

variable {σ : String → Term}

/-- The variables of a readable term have the names of variables. -/
theorem Readable.isVariableName {t : Term} (h : t.Readable) {x : String} (hx : x ∈ t.vars) :
    IsVariableName x := by
  induction h with
  | var hy =>
    rw [vars, List.mem_singleton] at hx
    exact hx ▸ hy
  | const _ => cases hx
  | app _ _ _ ih =>
    rw [vars, varsList_eq_flatMap] at hx
    obtain ⟨t, ht, hx⟩ := List.mem_flatMap.mp hx
    exact ih t ht hx

/-- Readable terms may be put in for variables. -/
theorem Readable.bind {t : Term} (h : t.Readable) (hσ : ∀ x ∈ t.vars, (σ x).Readable) :
    (t.bind σ).Readable := by
  induction h with
  | var _ => exact hσ _ (by simp [vars])
  | const ha => exact .const ha
  | app hf hne _ ih =>
    rw [Term.bind, bindList_eq_map]
    refine .app hf (by simpa using hne) fun u hu => ?_
    obtain ⟨t, ht, rfl⟩ := List.mem_map.mp hu
    refine ih t ht fun x hx => hσ x ?_
    rw [vars, varsList_eq_flatMap]
    exact List.mem_flatMap.mpr ⟨t, ht, hx⟩

theorem Readable.args {f : String} {args : List Term} (h : (Term.app f args).Readable) :
    ∀ t ∈ args, t.Readable := by
  cases h with
  | app _ _ hargs => exact hargs

/-- A readable term may be put in for one variable. -/
theorem Readable.bind_single {t u : Term} (ht : t.Readable) (hu : u.Readable) (x : String) :
    (t.bind (single x u)).Readable := by
  refine ht.bind fun y hy => ?_
  rw [single]
  split
  · exact hu
  · exact .var (ht.isVariableName hy)

theorem readable_skolem {symbol : String} {xs : List String} (hsymbol : IsSymbolName symbol)
    (hxs : ∀ x ∈ xs, IsVariableName x) : (skolem symbol xs).Readable := by
  cases xs with
  | nil => exact .const hsymbol
  | cons x xs =>
    refine .app hsymbol (by simp) fun t ht => ?_
    obtain ⟨y, hy, rfl⟩ := List.mem_map.mp ht
    exact .var (hxs y hy)

end Term

/-- Whether a substitution puts in readable terms. -/
def Substitution.Readable (s : Substitution) : Prop := ∀ e ∈ s.entries, e.2.Readable

namespace Substitution

private theorem readable_empty : Readable .empty := fun _ he => absurd he List.not_mem_nil

theorem Readable.extend {s : Substitution} (hs : s.Readable) {t : Term} (ht : t.Readable)
    (x : String) : (s.extend x t).Readable := by
  intro e he
  rcases mem_insertEntry he with rfl | he
  · exact ht
  · rw [KeyMap.entries_mapValues] at he
    obtain ⟨d, hd, rfl⟩ := List.mem_map.mp he
    exact (hs d hd).bind_single ht x

/-- What a substitution puts in for a variable that has the name of one is readable. -/
theorem Readable.apply {s : Substitution} (hs : s.Readable) {x : String} (hx : IsVariableName x) :
    (s.apply x).Readable := by
  rw [Substitution.apply, KeyMap.get?]
  cases hfind : s.entries.find? (fun e => e.1 = x) with
  | none => exact .var hx
  | some e => exact hs e (List.mem_of_find?_eq_some hfind)

/-- A substitution that is read puts in readable terms. -/
theorem readable_of_parse {texts : KeyMap String String} {s : Substitution}
    (h : Substitution.parse texts = .ok s) : s.Readable := by
  simp only [Substitution.parse, Outcome.bind_eq_ok, Outcome.pure_eq_ok] at h
  obtain ⟨entries, hentries, rfl⟩ := h
  intro e he
  obtain ⟨⟨x, text⟩, -, he⟩ := Outcome.exists_of_mem_mapM hentries (KeyMap.mem_entries_ofList he)
  split at he
  next t ht =>
    cases he
    obtain ⟨rest, hread, -⟩ := whole_eq_ok.mp ht
    obtain ⟨_, hterm⟩ := Scan.Result.plain_eq_ok.mp hread
    exact readable_of_term hterm
  · cases he

end Substitution

/-- Solving readable equations puts in readable terms. -/
theorem readable_of_solve {es : List Equation} {s s' : Substitution}
    (hes : ∀ e ∈ es, e.1.Readable ∧ e.2.Readable) (hs : s.Readable) (h : solve es s = .ok s') :
    s'.Readable := by
  fun_induction solve es s with
  | case1 s =>
    cases h
    exact hs
  | case2 s r rest ih => exact ih (List.forall_mem_cons.mp hes).2 hs h
  | case3 => cases h
  | case4 s rest x t hocc hne ih =>
    obtain ⟨⟨-, ht⟩, hrest⟩ := List.forall_mem_cons.mp hes
    refine ih (fun e he => ?_) (hs.extend ht x) h
    obtain ⟨d, hd, rfl⟩ := List.mem_map.mp he
    exact ⟨(hrest d hd).1.bind_single ht x, (hrest d hd).2.bind_single ht x⟩
  | case5 s rest a x hne ih =>
    obtain ⟨hhead, hrest⟩ := List.forall_mem_cons.mp hes
    exact ih (List.forall_mem_append.mpr ⟨hrest, List.forall_mem_singleton.mpr hhead.symm⟩) hs h
  | case6 s rest f as x hne ih =>
    obtain ⟨hhead, hrest⟩ := List.forall_mem_cons.mp hes
    exact ih (List.forall_mem_append.mpr ⟨hrest, List.forall_mem_singleton.mpr hhead.symm⟩) hs h
  | case7 s rest f as g bs hfg hne ih =>
    obtain ⟨hhead, hrest⟩ := List.forall_mem_cons.mp hes
    refine ih (fun e he => ?_) hs h
    rcases List.mem_append.mp he with he | he
    · exact hrest e he
    · exact ⟨hhead.1.args _ (List.of_mem_zip he).1, hhead.2.args _ (List.of_mem_zip he).2⟩
  | case8 => cases h
  | case9 => cases h

/-- The common unifier of pairs of readable relations puts in readable terms. -/
theorem readable_of_unifyAll {pairs : List (Relation × Relation)} {s : Substitution}
    (hpairs : ∀ p ∈ pairs, p.1.Readable ∧ p.2.Readable) (h : unifyAll pairs = .ok s) :
    s.Readable := by
  rw [unifyAll, Outcome.bind_eq_ok] at h
  obtain ⟨es, hes, h⟩ := h
  refine readable_of_solve ?_ Substitution.readable_empty h
  clear h
  induction pairs generalizing es with
  | nil =>
    cases hes
    exact fun _ he => absurd he List.not_mem_nil
  | cons p pairs ih =>
    obtain ⟨⟨hl, hr⟩, hpairs⟩ := List.forall_mem_cons.mp hpairs
    rw [argumentEquations] at hes
    split at hes
    · obtain ⟨es', hes', hes⟩ := Outcome.bind_eq_ok.mp hes
      cases hes
      refine List.forall_mem_append.mpr ⟨fun e he => ?_, ih hpairs es' hes'⟩
      exact ⟨hl _ (List.of_mem_zip he).1, hr _ (List.of_mem_zip he).2⟩
    · cases hes

/-- The unifier of readable relations puts in readable terms. -/
theorem readable_of_unify {l r : Relation} {s : Substitution} (hl : l.Readable) (hr : r.Readable)
    (h : unify l r = .ok s) : s.Readable :=
  readable_of_unifyAll (List.forall_mem_singleton.mpr ⟨hl, hr⟩) h

namespace Formula

variable {f : Formula}

/-- The free variables of a readable formula have the names of variables. -/
theorem Readable.isVariableName (h : f.Readable) {x : String} (hx : f.Free x) :
    IsVariableName x := by
  induction f with
  | var name => exact hx.elim
  | rel r =>
    rw [Free, Relation.vars, Term.varsList_eq_flatMap] at hx
    obtain ⟨t, ht, hx⟩ := List.mem_flatMap.mp hx
    exact (h t ht).isVariableName hx
  | not f ih => exact ih h hx
  | and f g ihf ihg | or f g ihf ihg | imp f g ihf ihg | iff f g ihf ihg =>
    exact hx.elim (ihf h.1) (ihg h.2)
  | all y f ih | ex y f ih => exact ih h.2 hx.2

/-- Readable terms may be put in for free variables. -/
theorem Readable.bind (h : f.Readable) {σ : String → Term}
    (hσ : ∀ x, f.Free x → (σ x).Readable) : (f.bind σ).Readable := by
  have under {f : Formula} {y : String} {σ : String → Term} (hy : IsVariableName y)
      (hσ : ∀ x, x ≠ y ∧ f.Free x → (σ x).Readable) : ∀ x, f.Free x → (shadow σ y x).Readable := by
    intro x hx
    by_cases hxy : x = y
    · rw [hxy, shadow_self]
      exact .var hy
    · rw [shadow_of_ne hxy]
      exact hσ x ⟨hxy, hx⟩
  induction f generalizing σ with
  | var name => trivial
  | rel r =>
    intro u hu
    rw [Relation.bind, Term.bindList_eq_map] at hu
    obtain ⟨t, ht, rfl⟩ := List.mem_map.mp hu
    refine (h t ht).bind fun x hx => hσ x ?_
    rw [Free, Relation.vars, Term.varsList_eq_flatMap]
    exact List.mem_flatMap.mpr ⟨t, ht, hx⟩
  | not f ih => exact ih h hσ
  | and f g ihf ihg | or f g ihf ihg | imp f g ihf ihg | iff f g ihf ihg =>
    exact ⟨ihf h.1 fun x hx => hσ x (Or.inl hx), ihg h.2 fun x hx => hσ x (Or.inr hx)⟩
  | all y f ih | ex y f ih => exact ⟨h.1, ih h.2 (under h.1 hσ)⟩

/-- Normalization keeps all names. -/
theorem Readable.normalize (h : f.Readable) (sign : Bool) : (f.normalize sign).Readable := by
  induction f generalizing sign with
  | var name => cases sign <;> trivial
  | rel r => cases sign <;> exact h
  | not f ih => exact ih h (!sign)
  | and f g ihf ihg | or f g ihf ihg =>
    cases sign
    · exact ⟨ihf h.1 false, ihg h.2 false⟩
    · exact ⟨ihf h.1 true, ihg h.2 true⟩
  | imp f g ihf ihg =>
    cases sign
    · exact ⟨ihf h.1 true, ihg h.2 false⟩
    · exact ⟨ihf h.1 false, ihg h.2 true⟩
  | iff f g ihf ihg =>
    exact ⟨⟨ihf h.1 true, ihg h.2 sign⟩, ihf h.1 false, ihg h.2 (!sign)⟩
  | all y f ih | ex y f ih =>
    cases sign
    · exact ⟨h.1, ih h.2 false⟩
    · exact ⟨h.1, ih h.2 true⟩

/-- A readable term may be put in for a bound variable. -/
theorem Readable.instantiateBound {t : Term} (h : f.Readable) (ht : t.Readable) (x : String) :
    (Formula.instantiateBound x f t).Readable := by
  refine h.bind fun y hy => ?_
  rw [Term.single]
  split
  · exact ht
  · exact .var (h.isVariableName hy)

end Formula

namespace Grammar

/-- Digits may stand in identifiers. -/
theorem isIdentifierChar_of_mem_render {n : Nat} {c : Char} (hc : c ∈ (Decimal.render n).toList) :
    isIdentifierChar c = true := by
  have hdigit : ∀ k < 10, isIdentifierChar (Nat.digitChar k) = true := by decide
  rw [Decimal.render, String.toList_ofList] at hc
  obtain ⟨k, hk, rfl⟩ := Decimal.positional_digits.exists_digitChar (by decide) n c hc
  exact hdigit k hk

/-- An identifier with characters of identifiers behind it is one, of the same kind. -/
theorem IsIdentifier.append {name more : String} (h : IsIdentifier name)
    (hmore : ∀ c ∈ more.toList, isIdentifierChar c = true) :
    IsIdentifier (name ++ more) ∧ startsUpper (name ++ more) = startsUpper name := by
  obtain ⟨c, cs, hlist⟩ := List.exists_cons_of_ne_nil h.nonempty
  refine ⟨⟨by simp [hlist], fun d hd => ?_⟩, by simp [startsUpper, hlist]⟩
  rw [String.toList_append] at hd
  exact (List.mem_append.mp hd).elim (h.chars d) (hmore d)

/-- A numbered variable is a variable. -/
theorem IsVariableName.numbered {x : String} (h : IsVariableName x) (n : Nat) :
    IsVariableName (x ++ "_" ++ Decimal.render n) := by
  have hbar : ∀ c ∈ "_".toList, isIdentifierChar c = true := List.all_eq_true.mp (by decide)
  obtain ⟨hbase, hbaseUpper⟩ := h.toIsIdentifier.append hbar
  obtain ⟨hname, hupper⟩ := hbase.append fun _ => isIdentifierChar_of_mem_render (n := n)
  exact ⟨hname, hupper.trans (hbaseUpper.trans h.upper)⟩

/-- A numbered Skolem symbol is a symbol. -/
theorem isSymbolName_numbered (n : Nat) : IsSymbolName ("sk" ++ Decimal.render n) := by
  have hbase : IsIdentifier "sk" := ⟨by decide, List.all_eq_true.mp (by decide)⟩
  obtain ⟨hname, hlower⟩ := hbase.append fun _ => isIdentifierChar_of_mem_render (n := n)
  exact ⟨hname, hlower⟩

end Grammar

end Deduction
