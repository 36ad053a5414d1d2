import Deduction.Proofs.Formula.Skolem
import Deduction.Proofs.Legible
import Mathlib.Data.List.Nodup

/-!
# Models of Skolem forms

Where a formula holds, its Skolem form holds if the Skolem symbols are given the right
meanings; this works as long as none of them occurs in the formula. Where the Skolem
form holds for all values of its variables, the formula holds; this works as long as
the universal variables have been given names that are all different, which is so
unless a bound variable is spelled like a numbered one.
-/

namespace Deduction.Formula

open Interpretation (SameOn)

universe u

variable {D : Type u} {scope : List String} {env : String → Term} {names names' : SkolemNames}
  {f p : Formula}

/-- Whether a symbol is none of the Skolem symbols with numbers above `n` and up to `bound`. -/
def Settled (bound n : Nat) (a : String) : Prop := ∀ k, n < k → k ≤ bound → a ≠ skolemSymbol k

section Settled

variable {bound n m : Nat} {a : String}

theorem Settled.mono (h : Settled bound n a) (hle : n ≤ m) : Settled bound m a :=
  fun k hk => h k (Nat.lt_of_le_of_lt hle hk)

/-- Symbols that have been handed out are not handed out again. -/
theorem settled_skolemSymbol (hle : m ≤ n) : Settled bound n (skolemSymbol m) := by
  intro k hk _ he
  obtain rfl := Decimal.numbered_injective "sk" he
  omega

/-- Whether a term has no Skolem symbols that are yet to be handed out and no variables but those
of the universal quantifiers around. -/
structure Placed (bound n : Nat) (scope : List String) (t : Term) : Prop where
  /-- The symbols. -/
  symbols : ∀ a ∈ t.symbols, Settled bound n a
  /-- The variables. -/
  vars : ∀ x ∈ t.vars, x ∈ scope

theorem Placed.mono {t : Term} (h : Placed bound n scope t) (hle : n ≤ m) :
    Placed bound m scope t :=
  ⟨fun a ha => (h.symbols a ha).mono hle, h.vars⟩

theorem Placed.snoc {t : Term} (h : Placed bound n scope t) (x : String) :
    Placed bound n (scope ++ [x]) t :=
  ⟨h.symbols, fun y hy => List.mem_append_left [x] (h.vars y hy)⟩

theorem placed_var (x : String) : Placed bound n (scope ++ [x]) (.var x) :=
  ⟨by simp [Term.symbols], by simp [Term.vars]⟩

theorem placed_skolem : Placed bound n scope (.skolem (skolemSymbol n) scope) where
  symbols := by simpa [Term.symbols_skolem] using settled_skolemSymbol (Nat.le_refl n)
  vars _ := Term.mem_vars_skolem.mp

end Settled

/-- An instance of a relation or its negation holds where this does under the assignment of what is
put in. -/
theorem holds_signed_bind (M : Interpretation D) (w : String → D) (env : String → Term)
    (sign : Bool) (r : Relation) :
    (signed sign (.rel (r.bind env))).Holds M w ↔
      (signed sign (.rel r)).Holds M fun x => (env x).value M w := by
  cases sign with
  | true => exact Relation.holds_bind M w env r
  | false => exact not_congr (Relation.holds_bind M w env r)

/-- Other meanings of symbols that occur neither in a formula nor in what is put in do not count. -/
theorem holds_env_iff {S : String → Prop} {M M' : Interpretation D} (h : SameOn S M M')
    (hf : ∀ a ∈ f.symbols, S a) (henv : PutsIn (fun t => ∀ a ∈ t.symbols, S a) env f)
    (w : String → D) :
    (f.Holds M' fun x => (env x).value M' w) ↔ f.Holds M fun x => (env x).value M w :=
  (h.holds_iff hf).trans (holds_congr M fun x hx => h.value_eq (henv x hx))

/-- A Skolem symbol can be made to name a witness of an existential formula. -/
theorem exists_symbol_meaning (M : Interpretation D) (x : String) {bound n : Nat}
    (hn : n < bound) (hf : ∀ a ∈ f.symbols, Settled bound n a)
    (henv : PutsIn (Placed bound n scope) env (ex x f)) :
    ∃ M', SameOn (Settled bound n) M M' ∧
      ∀ w, ((ex x f).Holds M fun y => (env y).value M w) → f.Holds M' fun y =>
        (extendEnv env x (.skolem (skolemSymbol (n + 1)) scope) y).value M' w := by
  have : Nonempty D := ⟨M.const ""⟩
  obtain ⟨F, hF⟩ := exists_choice scope
    (P := fun w d => f.Holds M (Function.update (fun y => (env y).value M w) x d)) <| by
      intro v w d hvw
      refine (holds_congr M fun y hy => update_congr d fun hyx => ?_).mp
      exact Term.value_congr fun z hz => hvw z ((henv y ⟨hyx, hy⟩).vars z hz)
  have hsame : SameOn (Settled bound n) M (M.withSymbol (skolemSymbol (n + 1)) F) :=
    (M.sameOn_withSymbol _ F).mono fun a ha => ha (n + 1) (Nat.lt_succ_self n) hn
  refine ⟨_, hsame, fun w hw => ?_⟩
  rw [value_extendEnv, Term.value_skolem, hsame.holds_iff hf]
  refine (holds_congr M fun y hy => update_congr _ fun hyx => ?_).mp (hF w hw)
  exact (hsame.value_eq (henv y ⟨hyx, hy⟩).symbols).symm

/-- The Skolem symbols can be given meanings under which the Skolem form holds wherever the formula
does, if none of them occurs in the formula. -/
theorem Skolemizes.exists_model (h : Skolemizes scope env names f p names') {bound : Nat}
    (hbound : names'.symbolCount ≤ bound)
    (hf : ∀ a ∈ f.symbols, Settled bound names.symbolCount a)
    (henv : PutsIn (Placed bound names.symbolCount scope) env f) (M : Interpretation D) :
    ∃ M', SameOn (Settled bound names.symbolCount) M M' ∧
      ∀ w, (f.Holds M fun x => (env x).value M w) → p.Holds M' w := by
  induction h generalizing M with
  | var sign name =>
    refine ⟨M, .refl _ M, fun w hw => ?_⟩
    cases sign <;> exact hw
  | rel sign r => exact ⟨M, .refl _ M, fun w hw => (holds_signed_bind M w _ sign r).mpr hw⟩
  | @and _ _ _ names₁ _ f g p q hp hq ihp ihq | @or _ _ _ names₁ _ f g p q hp hq ihp ihq =>
    obtain ⟨hsf, hsg⟩ := List.forall_mem_append.mp hf
    have hle := hp.symbolCount_le
    have henvf : PutsIn _ _ f := fun x hx => henv x (Or.inl hx)
    have henvg : PutsIn _ _ g := fun x hx => henv x (Or.inr hx)
    obtain ⟨M₁, hM₁, hp₁⟩ := ihp (Nat.le_trans hq.symbolCount_le hbound) hsf henvf M
    obtain ⟨M₂, hM₂, hq₂⟩ := ihq hbound (fun a ha => (hsg a ha).mono hle)
      (fun x hx => (henvg x hx).mono hle) M₁
    -- The meanings found for the second part leave alone what occurs in the first.
    have hsp : ∀ a ∈ p.symbols, Settled bound names₁.symbolCount a :=
      hp.forall_symbols (fun a ha => (hsf a ha).mono hle)
        (fun x hx => ((henvf x hx).mono hle).symbols) fun k _ hk => settled_skolemSymbol hk
    refine ⟨M₂, hM₁.trans (hM₂.mono fun a ha => ha.mono hle), fun w hw => ?_⟩
    have hleft (hw : f.Holds M _) : p.Holds M₂ w := (hM₂.holds_iff hsp).mpr (hp₁ w hw)
    have hright (hw : g.Holds M _) : q.Holds M₂ w :=
      hq₂ w ((holds_env_iff hM₁ hsg (fun x hx => (henvg x hx).symbols) w).mpr hw)
    simp only [Holds] at hw ⊢
    exact hw.imp hleft hright
  | all x _ ih =>
    obtain ⟨M', hM', hp⟩ := ih hbound hf
      (.extendEnv (fun y hy => (henv y hy).snoc _) (placed_var _)) M
    refine ⟨M', hM', fun w hw => hp w ?_⟩
    rw [value_extendEnv]
    exact hw _
  | @ex _ _ names _ f _ x hp ih =>
    have hn : names.symbolCount < bound :=
      Nat.lt_of_lt_of_le (Nat.lt_of_succ_le hp.symbolCount_le) hbound
    obtain ⟨M₁, hM₁, hf₁⟩ := exists_symbol_meaning (f := f) M x hn hf henv
    have hle : names.symbolCount ≤ names.symbolCount + 1 := Nat.le_succ _
    obtain ⟨M₂, hM₂, hp₂⟩ := ih hbound (fun a ha => (hf a ha).mono hle)
      (.extendEnv (fun y hy => (henv y hy).mono hle) placed_skolem) M₁
    exact ⟨M₂, hM₁.trans (hM₂.mono fun a ha => ha.mono hle), fun w hw => hp₂ w (hf₁ w hw)⟩

/-- The names that the universal variables have been given. -/
def givenNames : List String → List String
  | [] => []
  | x :: xs => universalName x (xs.count x) :: givenNames xs

theorem givenNames_suffix {xs ys : List String} (h : xs <:+ ys) :
    givenNames xs <:+ givenNames ys := by
  obtain ⟨zs, rfl⟩ := h
  induction zs with
  | nil => exact List.suffix_rfl
  | cons z zs ih => exact ih.trans (List.suffix_cons _ _)

/-- Each of a list of variables with the number of times that it comes up behind. -/
def numbered : List String → List (String × Nat)
  | [] => []
  | x :: xs => (x, xs.count x) :: numbered xs

private theorem givenNames_eq_map (xs : List String) :
    givenNames xs = (numbered xs).map fun e => universalName e.1 e.2 := by
  induction xs with
  | nil => rfl
  | cons x xs ih => rw [givenNames, numbered, List.map_cons, ih]

theorem mem_numbered {xs : List String} {x : String} {n : Nat} :
    (x, n) ∈ numbered xs ↔ n < xs.count x := by
  induction xs with
  | nil => simp [numbered]
  | cons y xs ih =>
    rw [numbered, List.mem_cons, ih, Prod.mk.injEq, List.count_cons]
    by_cases hxy : y = x
    · subst hxy
      simp only [true_and, beq_self_eq_true, if_true]
      omega
    · simp [hxy, Ne.symm hxy]

/-- No variable comes up twice with the same number. -/
theorem nodup_numbered (xs : List String) : (numbered xs).Nodup := by
  induction xs with
  | nil => exact List.nodup_nil
  | cons x xs ih => exact List.nodup_cons.mpr ⟨fun h => Nat.lt_irrefl _ (mem_numbered.mp h), ih⟩

/-- The names that are given are all different exactly if no numbered one of them is among the
variables. -/
theorem nodup_givenNames_iff {xs : List String} :
    (givenNames xs).Nodup ↔ ∀ x n, 0 < n → n < xs.count x → universalName x n ∉ xs := by
  rw [givenNames_eq_map, List.nodup_map_iff_inj_on (nodup_numbered xs)]
  constructor
  · -- A variable that is spelled like a numbered name has that name as well.
    intro h x n hpos hn hmem
    have hself := h (x, n) (mem_numbered.mpr hn) (universalName x n, 0)
      (mem_numbered.mpr (List.count_pos_iff.mpr hmem)) rfl
    exact Nat.ne_of_gt hpos (Prod.mk.inj hself).2
  · rintro h ⟨x, m⟩ hx ⟨y, n⟩ hy heq
    have hx := mem_numbered.mp hx
    have hy := mem_numbered.mp hy
    cases m with
    | zero =>
      cases n with
      | zero => exact Prod.ext heq rfl
      | succ n =>
        have hmem := List.count_pos_iff.mp hx
        exact absurd ((show x = universalName y (n + 1) from heq) ▸ hmem) (h y _ n.succ_pos hy)
    | succ m =>
      cases n with
      | zero =>
        have hmem := List.count_pos_iff.mp hy
        exact absurd ((show universalName x (m + 1) = y from heq) ▸ hmem) (h x _ m.succ_pos hx)
      | succ n =>
        obtain ⟨rfl, hmn⟩ := Decimal.underscored_inj heq
        exact Prod.ext rfl hmn

/-- Whether a variable is spelled like a numbered one. -/
def IsNumbered (x : String) : Prop := ∃ base n, x = base ++ "_" ++ Decimal.render n

theorem not_isNumbered_of_notMem {x : String} (h : '_' ∉ x.toList) : ¬ IsNumbered x := by
  rintro ⟨base, n, rfl⟩
  simp at h

private theorem isNumbered_universalName (x : String) {n : Nat} (hn : 0 < n) :
    IsNumbered (universalName x n) := by
  cases n with
  | zero => exact absurd hn (Nat.lt_irrefl 0)
  | succ n => exact ⟨x, n + 1, rfl⟩

/-- Universal variables have different names, unless one is spelled like a numbered one. -/
theorem nodup_givenNames {xs : List String} (h : ∀ x ∈ xs, ¬ IsNumbered x) :
    (givenNames xs).Nodup :=
  nodup_givenNames_iff.mpr fun x _ hpos _ hmem => h _ hmem (isNumbered_universalName x hpos)

/-- The variables of the Skolem form are those of what is put in and the names that are given. -/
theorem Skolemizes.forall_free {V : String → Prop} (h : Skolemizes scope env names f p names')
    (hscope : ∀ x ∈ scope, V x) (henv : PutsIn (fun t => ∀ x ∈ t.vars, V x) env f)
    (hgiven : ∀ x ∈ givenNames names'.universal, V x) : ∀ x, p.Free x → V x := by
  induction h with
  | var sign name =>
    intro x hx
    cases sign <;> exact hx.elim
  | @rel _ env _ sign r =>
    intro x hx
    obtain ⟨y, hy, hx⟩ := exists_free_of_free_bind (σ := env) (f := signed sign (.rel r)) <| by
      cases sign <;> exact hx
    exact henv y hy x hx
  | and hp hq ihp ihq | or hp hq ihp ihq =>
    rintro x (hx | hx)
    · refine ihp hscope (fun y hy => henv y (Or.inl hy)) (fun y hy => hgiven y ?_) x hx
      exact (givenNames_suffix hq.universal_suffix).subset hy
    · exact ihq hscope (fun y hy => henv y (Or.inr hy)) hgiven x hx
  | all x hp ih =>
    have hname := hgiven _ ((givenNames_suffix hp.universal_suffix).subset List.mem_cons_self)
    exact ih (List.forall_mem_append.mpr ⟨hscope, List.forall_mem_singleton.mpr hname⟩)
      (.extendEnv henv (List.forall_mem_singleton.mpr hname)) hgiven
  | ex x hp ih =>
    exact ih hscope (.extendEnv henv fun y hy => hscope y (Term.mem_vars_skolem.mp hy)) hgiven

/-- The formula holds where its Skolem form does for all values of the universal variables in it, if
these have been given different names. -/
theorem Skolemizes.holds (h : Skolemizes scope env names f p names')
    (hnodup : (givenNames names'.universal).Nodup)
    (hscope : scope ⊆ givenNames names.universal)
    (henv : PutsIn (fun t => t.vars ⊆ givenNames names.universal) env f)
    {M : Interpretation D} {w : String → D}
    (hp : ∀ w', (∀ x ∈ givenNames names.universal, w' x = w x) → p.Holds M w') :
    f.Holds M fun x => (env x).value M w := by
  induction h generalizing w with
  | var sign name =>
    have hw := hp w fun _ _ => rfl
    cases sign <;> exact hw
  | rel sign r => exact (holds_signed_bind M w _ sign r).mp (hp w fun _ _ => rfl)
  | and hf hg ihf ihg =>
    have hsub := (givenNames_suffix hf.universal_suffix).subset
    have hnodup₁ := hnodup.sublist (givenNames_suffix hg.universal_suffix).sublist
    constructor
    · exact ihf hnodup₁ hscope (fun x hx => henv x (Or.inl hx)) fun w' hw' => (hp w' hw').1
    · exact ihg hnodup (List.Subset.trans hscope hsub)
        (fun x hx => List.Subset.trans (henv x (Or.inr hx)) hsub)
        fun w' hw' => (hp w' fun x hx => hw' x (hsub hx)).2
  | @or _ env names _ _ f g p q hf hg ihf ihg =>
    have hsub := (givenNames_suffix hf.universal_suffix).subset
    have hnodup₁ := hnodup.sublist (givenNames_suffix hg.universal_suffix).sublist
    have henvf (x) (hx : f.Free x) : (env x).vars ⊆ _ := henv x (Or.inl hx)
    have henvg (x) (hx : g.Free x) : (env x).vars ⊆ _ := henv x (Or.inr hx)
    refine or_iff_not_imp_left.mpr fun hnot => ?_
    -- Where the first part fails, some values of its universal variables refute its form, and the
    -- form of the second part has to hold whatever the values of its own variables are.
    obtain ⟨w₁, hw₁, hp₁⟩ : ∃ w₁, (∀ x ∈ givenNames names.universal, w₁ x = w x) ∧
        ¬ p.Holds M w₁ := by
      by_contra hall
      refine hnot (ihf hnodup₁ hscope henvf fun w' hw' => ?_)
      by_contra hp'
      exact hall ⟨w', hw', hp'⟩
    have hfree := hf.forall_free (fun _ hx => hsub (hscope hx))
      (fun x hx _ hy => hsub (henvf x hx hy)) fun _ hx => hx
    have hsecond := ihg hnodup (List.Subset.trans hscope hsub)
      (fun x hx => List.Subset.trans (henvg x hx) hsub) (w := w₁) fun w' hw' => by
        have hjoin := hp w' fun x hx => (hw' x (hsub hx)).trans (hw₁ x hx)
        refine hjoin.resolve_left fun hp' => hp₁ ?_
        exact (holds_congr M fun x hx => hw' x (hfree x hx)).mp hp'
    refine (holds_congr M fun x hx => Term.value_congr fun y hy => ?_).mp hsecond
    exact hw₁ y (henvg x hx hy)
  | @all _ _ names _ _ _ x hf ih =>
    intro d
    let name := universalName x (names.universal.count x)
    have hnew : name ∉ givenNames names.universal :=
      (List.nodup_cons.mp (hnodup.sublist (givenNames_suffix hf.universal_suffix).sublist)).1
    have hother : ∀ y ∈ givenNames names.universal, Function.update w name d y = w y :=
      fun y hy => Function.update_of_ne (ne_of_mem_of_not_mem hy hnew) d w
    have hsub : givenNames names.universal ⊆ name :: givenNames names.universal :=
      List.subset_cons_self name _
    have hname : [name] ⊆ name :: givenNames names.universal :=
      List.cons_subset_cons name (List.nil_subset _)
    have hbody := ih hnodup (List.append_subset.mpr ⟨List.Subset.trans hscope hsub, hname⟩)
      (.extendEnv (fun y hy => List.Subset.trans (henv y hy) hsub) hname)
      (w := Function.update w name d)
      fun w' hw' => hp w' fun y hy => (hw' y (hsub hy)).trans (hother y hy)
    rw [value_extendEnv, Term.value, Function.update_self] at hbody
    refine (holds_congr M fun y hy => update_congr d fun hyx => ?_).mp hbody
    exact Term.value_congr fun z hz => hother z (henv y ⟨hyx, hy⟩ hz)
  | ex x hf ih =>
    have hbody := ih hnodup hscope
      (.extendEnv henv fun y hy => hscope (Term.mem_vars_skolem.mp hy)) hp
    rw [value_extendEnv] at hbody
    exact ⟨_, hbody⟩

/-- The Skolem form of a closed formula is true over every domain over which the formula is, if the
formula has none of its Skolem symbols. -/
theorem exists_trueIn_skolemForm (hclosed : ∀ x, ¬ f.Free x)
    (hnew : ∀ a ∈ f.skolemSymbols, a ∉ f.symbols) {M : Interpretation D} (hM : f.TrueIn M) :
    ∃ M' : Interpretation D, f.skolemForm.TrueIn M' := by
  obtain ⟨names, h⟩ := exists_skolemizes f
  have hsettled : ∀ a ∈ f.writtenOut.symbols, Settled names.symbolCount 0 a := by
    intro a ha k hk hle he
    rw [h.symbolCount_eq, Nat.zero_add] at hle
    exact hnew a (mem_skolemSymbols.mpr ⟨k, hk, hle, he⟩) (mem_symbols_writtenOut.mp ha)
  obtain ⟨M', -, hM'⟩ := h.exists_model (Nat.le_refl _) hsettled
    (fun x hx => absurd (free_writtenOut.mp hx) (hclosed x)) M
  exact ⟨M', fun w => hM' w ((holds_writtenOut M w f).mpr (hM w))⟩

/-- A closed formula is true wherever its Skolem form is, if its universal variables have been given
different names. -/
theorem Skolemizes.trueIn
    (h : Skolemizes [] .var ⟨[], 0⟩ f.writtenOut f.skolemForm names)
    (hnodup : (givenNames names.universal).Nodup) (hclosed : ∀ x, ¬ f.Free x)
    {M : Interpretation D} (hM : f.skolemForm.TrueIn M) : f.TrueIn M := by
  intro w
  have hholds := h.holds hnodup (List.nil_subset _)
    (fun x hx => absurd (free_writtenOut.mp hx) (hclosed x)) (w := w) fun w' _ => hM w'
  exact (holds_writtenOut M w f).mp hholds

/-- A closed formula is true wherever its Skolem form is, if no bound variable is spelled like a
numbered one. -/
theorem TrueIn.of_skolemForm (hclosed : ∀ x, ¬ f.Free x)
    (hbinders : ∀ x ∈ f.binders, ¬ IsNumbered x) {M : Interpretation D}
    (hM : f.skolemForm.TrueIn M) : f.TrueIn M := by
  obtain ⟨names, h⟩ := exists_skolemizes f
  have hnodup : (givenNames names.universal).Nodup := by
    refine nodup_givenNames fun x hx => ?_
    rcases h.mem_universal hx with hx | hx
    · cases hx
    · exact hbinders x (mem_binders_writtenOut.mp hx)
  exact h.trueIn hnodup hclosed hM

end Deduction.Formula
