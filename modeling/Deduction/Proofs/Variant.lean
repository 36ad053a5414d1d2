import Deduction.Proofs.Unification
import Deduction.Variant

/-!
# Variants and the check of generality

Two relations are found to be variants exactly if a renaming that keeps different
variables of the first one different turns it into the second one. Such renamings can be
taken back and made one after the other, so being variants is an equivalence. Relations
that are instances of each other are variants, and so the check of a typed-in substitution
is exact: its instance is a variant of the one by the computed substitution precisely if
it makes the relations equal and every other substitution that does so is a special case
of it. What the substitution does to its own values plays no part.
-/

namespace Deduction

/-- A term with other names for its variables. -/
def Term.rename (ρ : String → String) (t : Term) : Term := t.bind fun x => .var (ρ x)

theorem Term.rename_app (ρ : String → String) (f : String) (args : List Term) :
    (Term.app f args).rename ρ = .app f (args.map (Term.rename ρ)) := by
  rw [rename, bind, bindList_eq_map]
  rfl

/-- A relation with other names for its variables. -/
def Relation.rename (ρ : String → String) (r : Relation) : Relation := r.bind fun x => .var (ρ x)

namespace Relation

variable {ρ ρ' : String → String} {r : Relation}

theorem rename_id (r : Relation) : (r.rename fun x => x) = r := r.bind_var

theorem rename_rename (r : Relation) : (r.rename ρ).rename ρ' = r.rename (ρ' ∘ ρ) := by
  simp only [rename, bind_bind, Term.bind, Function.comp]

/-- Only the new names of the variables of a relation matter. -/
theorem rename_congr (h : ∀ x ∈ r.vars, ρ x = ρ' x) : r.rename ρ = r.rename ρ' :=
  bind_congr fun x hx => congrArg Term.var (h x hx)

/-- The variables of a renamed relation are the new names of its variables. -/
theorem setOf_mem_vars_rename (ρ : String → String) (r : Relation) :
    {y | y ∈ (r.rename ρ).vars} = ρ '' {x | x ∈ r.vars} := by
  ext y
  simp only [rename, Set.mem_ofPred_eq, mem_vars_bind, Term.vars, List.mem_singleton, Set.mem_image,
    eq_comm (a := y)]

end Relation

namespace Pairing

variable {p q : Pairing} {ρ : String → String}

/-- Whether no variable of a pairing stands for two different ones, on either side. -/
def OneToOne (p : Pairing) : Prop := ∀ a ∈ p, ∀ b ∈ p, a.1 = b.1 ↔ a.2 = b.2

/-- Whether a renaming does to variables what a pairing says. -/
def Agrees (ρ : String → String) (p : Pairing) : Prop := ∀ a ∈ p, ρ a.1 = a.2

theorem link_eq_some {x y : String} :
    p.link x y = some q ↔ (∀ a ∈ p, a.1 = x ↔ a.2 = y) ∧ (x, y) :: p = q := by
  simp [link]

/-- A pair that agrees with all others may be added. -/
theorem OneToOne.cons {x y : String} (hp : p.OneToOne) (h : ∀ a ∈ p, a.1 = x ↔ a.2 = y) :
    OneToOne ((x, y) :: p) := by
  intro a ha b hb
  rcases List.mem_cons.mp ha with rfl | ha <;> rcases List.mem_cons.mp hb with rfl | hb
  · exact iff_of_true rfl rfl
  · rw [eq_comm, h b hb, eq_comm]
  · exact h a ha
  · exact hp a ha b hb

/-- There is a renaming that does what a pairing says. -/
theorem OneToOne.exists_agrees (h : p.OneToOne) : ∃ ρ, p.Agrees ρ := by
  classical
  refine ⟨fun x => if hx : ∃ y, (x, y) ∈ p then hx.choose else x, fun a ha => ?_⟩
  have hx : ∃ y, (a.1, y) ∈ p := ⟨a.2, ha⟩
  exact (dif_pos hx).trans ((h _ hx.choose_spec a ha).mp rfl)

/-- A renaming that agrees with a pairing keeps the variables of the pairing different. -/
theorem Agrees.injOn (h : p.Agrees ρ) (hp : p.OneToOne) :
    Set.InjOn ρ {x | ∃ y, (x, y) ∈ p} := by
  rintro x ⟨y, hxy⟩ x' ⟨y', hxy'⟩ heq
  rw [h _ hxy, h _ hxy'] at heq
  exact (hp _ hxy _ hxy').mpr heq

/-- What a walk in step has found out about pairs of terms: the pairing it started from has become
one that tells what every variable on the left stands for, and renaming the left side accordingly
gives the right side. -/
structure Carries (p q : Pairing) (es : List Equation) : Prop where
  /-- No pair is lost. -/
  keeps : p ⊆ q
  /-- No variable stands for two. -/
  oneToOne : p.OneToOne → q.OneToOne
  /-- Every variable on the left stands for something. -/
  covers : ∀ e ∈ es, ∀ x ∈ e.1.vars, ∃ y, (x, y) ∈ q
  /-- Every renaming that agrees carries the left side to the right side. -/
  renames : ∀ ρ, q.Agrees ρ → ∀ e ∈ es, e.1.rename ρ = e.2

namespace Carries

variable {r : Pairing} {es fs : List Equation}

theorem nil (p : Pairing) : Carries p p [] :=
  ⟨List.Subset.refl p, id, by simp, by simp⟩

/-- One walk after another. -/
theorem append (h : Carries p q es) (h' : Carries q r fs) : Carries p r (es ++ fs) where
  keeps := List.Subset.trans h.keeps h'.keeps
  oneToOne hp := h'.oneToOne (h.oneToOne hp)
  covers e he x hx := by
    rcases List.mem_append.mp he with he | he
    · obtain ⟨y, hy⟩ := h.covers e he x hx
      exact ⟨y, h'.keeps hy⟩
    · exact h'.covers e he x hx
  renames ρ hρ e he := by
    rcases List.mem_append.mp he with he | he
    · exact h.renames ρ (fun a ha => hρ a (h'.keeps ha)) e he
    · exact h'.renames ρ hρ e he

/-- Two variables are carried to each other by linking them. -/
theorem var {x y : String} (h : p.link x y = some q) : Carries p q [(.var x, .var y)] := by
  obtain ⟨hagree, rfl⟩ := link_eq_some.mp h
  refine ⟨List.subset_cons_self _ p, fun hp => hp.cons hagree, ?_, ?_⟩
  · simp only [List.mem_singleton, forall_eq, Term.vars]
    exact ⟨y, List.mem_cons_self⟩
  · simp only [List.mem_singleton, forall_eq]
    intro ρ hρ
    exact congrArg Term.var (hρ (x, y) List.mem_cons_self)

/-- Two applications are carried to each other if their arguments are. -/
theorem app {f : String} {as bs : List Term} (hlen : as.length = bs.length)
    (h : Carries p q (as.zip bs)) : Carries p q [(.app f as, .app f bs)] := by
  refine ⟨h.keeps, h.oneToOne, ?_, ?_⟩
  · simp only [List.mem_singleton, forall_eq, Term.vars, Term.varsList_eq_flatMap,
      List.mem_flatMap]
    rintro x ⟨a, ha, hx⟩
    rw [← List.map_fst_zip hlen.le] at ha
    obtain ⟨e, he, rfl⟩ := List.mem_map.mp ha
    exact h.covers e he x hx
  · simp only [List.mem_singleton, forall_eq, Term.rename_app, Term.app.injEq, true_and]
    intro ρ hρ
    calc as.map (Term.rename ρ)
        = ((as.zip bs).map Prod.fst).map (Term.rename ρ) := by rw [List.map_fst_zip hlen.le]
      _ = (as.zip bs).map Prod.snd := by
          rw [List.map_map]
          exact List.map_congr_left (h.renames ρ hρ)
      _ = bs := List.map_snd_zip hlen.ge

end Carries

/-- Whether the pairs are variables of a set with what a renaming makes of them. -/
def DrawnFrom (ρ : String → String) (S : Set String) (p : Pairing) : Prop :=
  ∀ a ∈ p, a.1 ∈ S ∧ ρ a.1 = a.2

/-- A renaming that keeps the variables of a set different never stops a link between them. -/
theorem DrawnFrom.exists_link {S : Set String} (hρ : S.InjOn ρ) (hp : p.DrawnFrom ρ S) {x : String}
    (hx : x ∈ S) : ∃ q, p.link x (ρ x) = some q ∧ q.DrawnFrom ρ S := by
  refine ⟨_, link_eq_some.mpr ⟨fun a ha => ?_, rfl⟩, List.forall_mem_cons.mpr ⟨⟨hx, rfl⟩, hp⟩⟩
  obtain ⟨haS, haρ⟩ := hp a ha
  rw [← haρ]
  exact (hρ.eq_iff haS hx).symm

end Pairing

namespace Term

open Pairing

/-- A walk through argument lists finds out what walks through the arguments do. -/
theorem carries_of_pairUpList {ss ts : List Term} {p q : Pairing}
    (ih : ∀ s ∈ ss, ∀ t p q, pairUp s t p = some q → Carries p q [(s, t)])
    (h : pairUpList ss ts p = some q) (hlen : ss.length = ts.length) :
    Carries p q (ss.zip ts) := by
  induction ss generalizing ts p with
  | nil =>
    rw [pairUpList, Option.some.injEq] at h
    · exact h ▸ .nil p
    · simp
  | cons s ss ihs =>
    cases ts with
    | nil => cases hlen
    | cons t ts =>
      rw [pairUpList, Option.bind_eq_some_iff] at h
      obtain ⟨r, hhead, htail⟩ := h
      obtain ⟨hs, hss⟩ := List.forall_mem_cons.mp ih
      exact (hs t p r hhead).append (ihs hss htail (Nat.succ.inj hlen))

/-- A walk through two terms that ends well has found a pairing that carries one to the other. -/
theorem carries_of_pairUp {s t : Term} {p q : Pairing} (h : pairUp s t p = some q) :
    Carries p q [(s, t)] := by
  induction s using Term.induction generalizing t p q with
  | var x =>
    cases t with
    | var y => exact .var h
    | const b => cases h
    | app g bs => cases h
  | const a =>
    cases t with
    | var y => cases h
    | const b =>
      simp only [pairUp, Option.ite_none_right_eq_some, Option.some.injEq] at h
      obtain ⟨rfl, rfl⟩ := h
      exact ⟨List.Subset.refl p, id, by simp [vars], by simp [rename, bind]⟩
    | app g bs => cases h
  | app f as ih =>
    cases t with
    | var y => cases h
    | const b => cases h
    | app g bs =>
      simp only [pairUp, Option.ite_none_right_eq_some] at h
      obtain ⟨⟨rfl, hlen⟩, h⟩ := h
      exact .app hlen (carries_of_pairUpList (fun s hs t p q => ih s hs) h hlen)

section Rename

variable {ρ : String → String} {S : Set String}

/-- A walk through renamed argument lists ends well if walks through the arguments do. -/
theorem exists_pairUpList_rename {ss : List Term} {p : Pairing}
    (ih : ∀ s ∈ ss, ∀ p : Pairing, p.DrawnFrom ρ S →
      ∃ q, pairUp s (s.rename ρ) p = some q ∧ q.DrawnFrom ρ S) (hp : p.DrawnFrom ρ S) :
    ∃ q, pairUpList ss (ss.map (rename ρ)) p = some q ∧ q.DrawnFrom ρ S := by
  induction ss generalizing p with
  | nil => exact ⟨p, by simp [pairUpList], hp⟩
  | cons s ss ihs =>
    obtain ⟨hs, hss⟩ := List.forall_mem_cons.mp ih
    obtain ⟨r, hhead, hr⟩ := hs p hp
    obtain ⟨q, htail, hq⟩ := ihs hss hr
    exact ⟨q, by rw [List.map_cons, pairUpList, hhead, Option.bind_some, htail], hq⟩

/-- A walk through a term and its renaming ends well, if different variables stay different. -/
theorem exists_pairUp_rename (hρ : S.InjOn ρ) {s : Term} (hs : ∀ x ∈ s.vars, x ∈ S) {p : Pairing}
    (hp : p.DrawnFrom ρ S) : ∃ q, pairUp s (s.rename ρ) p = some q ∧ q.DrawnFrom ρ S := by
  induction s using Term.induction generalizing p with
  | var x => exact hp.exists_link hρ (hs x (by simp [vars]))
  | const a => exact ⟨p, by simp [rename, bind, pairUp], hp⟩
  | app f args ih =>
    rw [vars, varsList_eq_flatMap] at hs
    have hargs (s : Term) (hmem : s ∈ args) (p : Pairing) (hp : p.DrawnFrom ρ S) :=
      ih s hmem (fun x hx => hs x (List.mem_flatMap.mpr ⟨s, hmem, hx⟩)) hp
    obtain ⟨q, hq, hdrawn⟩ := exists_pairUpList_rename hargs hp
    exact ⟨q, by rw [rename_app, pairUp, if_pos ⟨rfl, (List.length_map _).symm⟩, hq], hdrawn⟩

end Rename

end Term

/-- Two relations are variants exactly if the one becomes the other by a renaming that keeps its
variables different. -/
theorem isVariant_iff {l r : Relation} :
    isVariant l r = true ↔ ∃ ρ, Set.InjOn ρ {x | x ∈ l.vars} ∧ l.rename ρ = r := by
  rw [isVariant, Bool.and_eq_true, Option.isSome_iff_exists]
  constructor
  · rintro ⟨hsymbol, q, hq⟩
    simp only [Relation.sameSymbol, Bool.and_eq_true, beq_iff_eq] at hsymbol
    obtain ⟨hname, hlen⟩ := hsymbol
    -- As terms with the same arguments the relations are walked through in the same way.
    have hterm : Term.pairUp (.app l.name l.args) (.app l.name r.args) [] = some q := by
      rw [Term.pairUp, if_pos ⟨rfl, hlen⟩, hq]
    have hcarries := Term.carries_of_pairUp hterm
    have hone : q.OneToOne := hcarries.oneToOne (by simp [Pairing.OneToOne])
    obtain ⟨ρ, hρ⟩ := hone.exists_agrees
    refine ⟨ρ, (hρ.injOn hone).mono fun x hx => ?_, ?_⟩
    · exact hcarries.covers _ (List.mem_singleton_self _) x hx
    · have hrename := hcarries.renames ρ hρ _ (List.mem_singleton_self _)
      obtain ⟨-, hargs⟩ := Term.app.inj hrename
      rw [Relation.rename, Relation.bind, hargs, hname]
  · rintro ⟨ρ, hρ, rfl⟩
    obtain ⟨q, hq, -⟩ := Term.exists_pairUp_rename hρ (s := .app l.name l.args) (p := [])
      (fun x hx => hx) (by simp [Pairing.DrawnFrom])
    simp only [Term.rename, Term.bind, Term.pairUp, Option.ite_none_right_eq_some] at hq
    exact ⟨by simp [Relation.sameSymbol, Relation.rename, Relation.bind, hq.1.2], q, hq.2⟩

theorem isVariant_refl (r : Relation) : isVariant r r = true :=
  isVariant_iff.mpr ⟨fun x => x, Set.injOn_id _, r.rename_id⟩

/-- A renaming that keeps variables different is taken back by one that does so too. -/
theorem isVariant_symm {l r : Relation} (h : isVariant l r = true) : isVariant r l = true := by
  obtain ⟨ρ, hρ, rfl⟩ := isVariant_iff.mp h
  refine isVariant_iff.mpr ⟨Function.invFunOn ρ {x | x ∈ l.vars}, ?_, ?_⟩
  · rw [Relation.setOf_mem_vars_rename]
    exact Function.invFunOn_injOn_image ρ _
  · rw [Relation.rename_rename]
    exact (Relation.rename_congr hρ.leftInvOn_invFunOn).trans l.rename_id

/-- Two renamings that keep variables different do so one after the other. -/
theorem isVariant_trans {l m r : Relation} (hlm : isVariant l m = true)
    (hmr : isVariant m r = true) : isVariant l r = true := by
  obtain ⟨ρ, hρ, rfl⟩ := isVariant_iff.mp hlm
  obtain ⟨ρ', hρ', rfl⟩ := isVariant_iff.mp hmr
  rw [Relation.setOf_mem_vars_rename] at hρ'
  exact isVariant_iff.mpr ⟨ρ' ∘ ρ, hρ'.comp hρ (Set.mapsTo_image _ _), l.rename_rename.symm⟩

/-- The check for variants is exact, and so every relation is a variant of itself, relations are
variants of each other in both directions, and variants of variants are variants. -/
theorem isVariant_exact :
    (∀ l r : Relation, isVariant l r = true ↔
      ∃ ρ : String → String, Set.InjOn ρ {x | x ∈ l.vars} ∧ l.rename ρ = r) ∧
    Equivalence fun l r : Relation => isVariant l r = true :=
  ⟨fun _ _ => isVariant_iff, isVariant_refl, isVariant_symm, isVariant_trans⟩

/-- A relation that comes back when an instance of it is instantiated has only been renamed. -/
theorem Relation.exists_rename_of_bind_bind {r : Relation} {σ τ : String → Term}
    (h : (r.bind σ).bind τ = r) :
    ∃ ρ, Set.InjOn ρ {x | x ∈ r.vars} ∧ r.rename ρ = r.bind σ := by
  have hback : ∀ x ∈ r.vars, (σ x).bind τ = .var x := by
    rw [Relation.bind_bind] at h
    exact Relation.eq_of_bind_eq (h.trans r.bind_var.symm)
  have hvar : ∀ x ∈ r.vars, ∃ y, σ x = .var y := by
    intro x hx
    have hx := hback x hx
    cases hσ : σ x with
    | var y => exact ⟨y, rfl⟩
    | const a =>
      rw [hσ] at hx
      cases hx
    | app f args =>
      rw [hσ] at hx
      cases hx
  choose! ρ hρ using hvar
  refine ⟨ρ, fun x hx y hy heq => ?_, Relation.bind_congr fun x hx => (hρ x hx).symm⟩
  have hsame : σ x = σ y := by rw [hρ x hx, hρ y hy, heq]
  have hxy := hback x hx
  rw [hsame, hback y hy] at hxy
  exact (Term.var.inj hxy).symm

/-- A substitution that makes two relations equal, and of which every other one that does so is a
special case on their variables. -/
structure Substitution.MostGeneralUnifier (l r : Relation) (u : Substitution) : Prop where
  /-- It makes the relations equal. -/
  unifies : l.instantiate u = r.instantiate u
  /-- What another one puts in is an instance of what it puts in. -/
  general : ∀ t : Substitution, l.instantiate t = r.instantiate t →
    ∃ d : Substitution, ∀ x ∈ l.vars ++ r.vars, t.apply x = (u.apply x).instantiate d

section Generality

variable {l r : Relation} {u mgu : Substitution}

/-- A most general unifier gives a variant of what the computed one gives. -/
theorem Substitution.MostGeneralUnifier.isVariant (hmgu : unify l r = .ok mgu)
    (h : u.MostGeneralUnifier l r) :
    isVariant (l.instantiate u) (l.instantiate mgu) = true := by
  have hsolution := unify_mostGeneralSolution hmgu
  obtain ⟨d, hd⟩ := h.general mgu hsolution.solution
  have hforth : (l.instantiate u).bind d.apply = l.instantiate mgu := by
    rw [Relation.instantiate, Relation.bind_bind]
    exact Relation.bind_congr fun x hx => (hd x (List.mem_append_left _ hx)).symm
  have hback : ((l.instantiate u).bind d.apply).bind u.apply = l.instantiate u := by
    rw [hforth]
    exact hsolution.general_relation h.unifies l
  obtain ⟨ρ, hρ, hrename⟩ := Relation.exists_rename_of_bind_bind hback
  exact isVariant_iff.mpr ⟨ρ, hρ, hrename.trans hforth⟩

/-- A unifier whose instance can be renamed to that of the computed one is most general. -/
theorem Substitution.MostGeneralUnifier.of_rename (hmgu : unify l r = .ok mgu)
    (hunifies : l.instantiate u = r.instantiate u) {ρ : String → String}
    (hρ : (l.instantiate u).rename ρ = l.instantiate mgu) : u.MostGeneralUnifier l r := by
  have hsolution := unify_mostGeneralSolution hmgu
  -- Both relations have the same instance, so the variables of both are renamed in the same way.
  have hvars : ∀ x ∈ l.vars ++ r.vars, (u.apply x).rename ρ = mgu.apply x := by
    intro x hx
    rcases List.mem_append.mp hx with hx | hx
    · rw [Relation.rename, Relation.instantiate, Relation.bind_bind] at hρ
      exact Relation.eq_of_bind_eq hρ x hx
    · rw [hunifies, hsolution.solution, Relation.rename, Relation.instantiate,
        Relation.bind_bind] at hρ
      exact Relation.eq_of_bind_eq hρ x hx
  refine ⟨hunifies, fun t ht => ?_⟩
  obtain ⟨d, hd⟩ := Substitution.exists_apply_eq
    ((l.vars ++ r.vars).flatMap fun x => (u.apply x).vars) fun y => t.apply (ρ y)
  refine ⟨d, fun x hx => ?_⟩
  calc t.apply x
      = (mgu.apply x).bind t.apply := (hsolution.general t ht (.var x)).symm
    _ = ((u.apply x).rename ρ).bind t.apply := by rw [hvars x hx]
    _ = (u.apply x).bind fun y => t.apply (ρ y) := by
        rw [Term.rename, Term.bind_bind]
        rfl
    _ = (u.apply x).instantiate d := Term.bind_congr fun y hy =>
        (hd y (List.mem_flatMap.mpr ⟨x, hx, hy⟩)).symm

end Generality

/-- For relations that have a unifier, the check accepts exactly the most general ones; where there
is none, it accepts every substitution. -/
theorem isMostGeneral_exact (u : Substitution) (l r : Relation) :
    ((∃ t : Substitution, l.instantiate t = r.instantiate t) →
      (isMostGeneral u l r = true ↔ u.MostGeneralUnifier l r)) ∧
    ((¬ ∃ t : Substitution, l.instantiate t = r.instantiate t) →
      isMostGeneral u l r = true) := by
  rw [isMostGeneral]
  cases hmgu : unify l r with
  | error e =>
    refine ⟨?_, fun _ => rfl⟩
    rintro ⟨t, ht⟩
    exact absurd ht (not_unifies_of_unify_error hmgu t)
  | ok mgu =>
    refine ⟨fun _ => ?_, fun hno => ?_⟩
    · rw [decide_eq_true_eq]
      constructor
      · rintro ⟨hunifies, hvariant⟩
        obtain ⟨ρ, -, hρ⟩ := isVariant_iff.mp hvariant
        exact .of_rename hmgu hunifies hρ
      · exact fun h => ⟨h.unifies, h.isVariant hmgu⟩
    · exact absurd ⟨mgu, (unify_mostGeneralSolution hmgu).solution⟩ hno

/-- For `R(X, f(Y))` and `R(Y, Z)` a most general unifier may use its own variables again, as in
`X ↦ Z, Y ↦ Z, Z ↦ f(Z)`, and one that puts in a constant is not most general. For `R(X)` and
`R(f(X))` anything is accepted. -/
theorem isMostGeneral_exact_reused :
    let l : Relation := ⟨"R", [.var "X", .app "f" [.var "Y"]]⟩
    let r : Relation := ⟨"R", [.var "Y", .var "Z"]⟩
    let reused : Substitution :=
      .ofList [("X", .var "Z"), ("Y", .var "Z"), ("Z", .app "f" [.var "Z"])]
    let special : Substitution :=
      .ofList [("X", .const "c"), ("Y", .const "c"), ("Z", .app "f" [.const "c"])]
    (∃ t : Substitution, l.instantiate t = r.instantiate t) ∧
      reused.MostGeneralUnifier l r ∧ ¬ special.MostGeneralUnifier l r ∧
      (¬ ∃ t : Substitution, Relation.instantiate ⟨"R", [.var "X"]⟩ t =
        Relation.instantiate ⟨"R", [.app "f" [.var "X"]]⟩ t) ∧
      isMostGeneral special ⟨"R", [.var "X"]⟩ ⟨"R", [.app "f" [.var "X"]]⟩ = true := by
  intro l r reused special
  have hunifier : ∃ t : Substitution, l.instantiate t = r.instantiate t := ⟨special, by decide⟩
  have hcyclic : unify ⟨"R", [.var "X"]⟩ ⟨"R", [.app "f" [.var "X"]]⟩ =
      .error (.cyclic "X" (.app "f" [.var "X"])) := by cbv
  have hnone : ¬ ∃ t : Substitution, Relation.instantiate ⟨"R", [.var "X"]⟩ t =
      Relation.instantiate ⟨"R", [.app "f" [.var "X"]]⟩ t := by
    rintro ⟨t, ht⟩
    exact not_unifies_of_unify_error hcyclic t ht
  have hreused : isMostGeneral reused l r = true := by cbv
  have hspecial : isMostGeneral special l r = false := by cbv
  refine ⟨hunifier, ((isMostGeneral_exact reused l r).1 hunifier).mp hreused, fun h => ?_, hnone,
    (isMostGeneral_exact special _ _).2 hnone⟩
  rw [((isMostGeneral_exact special l r).1 hunifier).mpr h] at hspecial
  cases hspecial

end Deduction
