import Deduction.Proofs.Quoted
import Deduction.Proofs.Shape
import Deduction.Proofs.Substitution
import Deduction.Clause
import Deduction.Sequent

/-!
# Formulas with plain names are legible

The texts of terms, clauses and formulas show no more of a name than its
spelling. They are legible if no name contains a character that has a meaning of
its own in these texts, and if it is settled which names are those of variables:
a variable and a constant of the same name have the same text.
-/

namespace Deduction

/-- The characters with a meaning in the texts of formulas. -/
def marks : List Char := '!' :: '(' :: '∀' :: '∃' :: ends

/-- Whether a name is not empty and contains no character with a meaning. -/
def Plain (name : String) : Prop := name ≠ "" ∧ ∀ c ∈ name.toList, c ∉ marks

instance (name : String) : Decidable (Plain name) :=
  -- The characters of the name are looked at, not all characters.
  have : Decidable (∀ c ∈ name.toList, c ∉ marks) := List.decidableBAll (· ∉ marks) name.toList
  inferInstanceAs (Decidable (name ≠ "" ∧ ∀ c ∈ name.toList, c ∉ marks))

/-- Whether a text is empty or starts with a character with a meaning. -/
def Marked (x : List Char) : Prop := ∀ c ∈ x.head?, c ∈ marks

theorem marked_cons {c : Char} {x : List Char} : Marked (c :: x) ↔ c ∈ marks := by
  simp [Marked]

theorem mem_marks_of_mem_ends {c : Char} (h : c ∈ ends) : c ∈ marks := by
  simp [marks, h]

theorem Ended.marked {x : List Char} (h : Ended x) : Marked x :=
  fun c hc => mem_marks_of_mem_ends (h c hc)

/-- What opens with no character with a meaning does not open with an end. -/
theorem Opens.ends {α : Type} {p : α → Prop} {f : α → String} (h : Opens marks p f) :
    Opens Deduction.ends p f := by
  intro a ha
  obtain ⟨c, cs, hc, hnot⟩ := h a ha
  exact ⟨c, cs, hc, fun hend => hnot (mem_marks_of_mem_ends hend)⟩

theorem Plain.exists_cons {name : String} (h : Plain name) :
    ∃ c cs, name.toList = c :: cs ∧ c ∉ marks := by
  cases hlist : name.toList with
  | nil => exact absurd (String.toList_inj.mp hlist) h.1
  | cons c cs => exact ⟨c, cs, rfl, h.2 c (hlist ▸ List.mem_cons_self)⟩

/-- A plain name is legible before a character with a meaning. -/
theorem Plain.append_inj {a b : String} {x y : List Char} (ha : Plain a) (hb : Plain b)
    (hx : Marked x) (hy : Marked y) (h : a.toList ++ x = b.toList ++ y) : a = b ∧ x = y := by
  obtain ⟨hnames, hrest⟩ := append_inj_of_head (q := (· ∉ marks)) ha.2 hb.2
    (fun c hc hnot => hnot (hx c hc)) (fun c hc hnot => hnot (hy c hc)) h
  exact ⟨String.toList_inj.mp hnames, hrest⟩

variable (V : String → Prop)

namespace Term

mutual

/-- Whether all names in a term are plain, those of variables are among the given ones and
those of constants are not. -/
def WellNamed : Term → Prop
  | .var x => Plain x ∧ V x
  | .const a => Plain a ∧ ¬ V a
  | .app f args => Plain f ∧ WellNamedList args

/-- Whether all terms of an argument list are well named. -/
def WellNamedList : List Term → Prop
  | [] => True
  | t :: ts => WellNamed t ∧ WellNamedList ts

end

private theorem wellNamedList_iff {ts : List Term} :
    WellNamedList V ts ↔ ∀ t ∈ ts, t.WellNamed V := by
  induction ts with
  | nil => simp [WellNamedList]
  | cons t ts ih => simp [WellNamedList, ih]

/-- The name in front of a term. -/
def headName : Term → String
  | .var x => x
  | .const a => a
  | .app f _ => f

/-- What stands behind that name. -/
def argsText : Term → String
  | .app _ args => "(" ++ String.intercalate ", " (args.map render) ++ ")"
  | _ => ""

theorem render_eq (t : Term) : t.render = t.headName ++ t.argsText := by
  cases t <;> simp [render, headName, argsText, renderList_eq_map, String.append_assoc]

variable {V}

theorem WellNamed.plain_headName {t : Term} (h : t.WellNamed V) : Plain t.headName := by
  cases t with
  | var x => exact h.1
  | const a => exact h.1
  | app f args => exact h.1

theorem marked_argsText_append {t : Term} {x : List Char} (hx : Marked x) :
    Marked (t.argsText.toList ++ x) := by
  cases t with
  | var y => exact hx
  | const a => exact hx
  | app f args => simp [argsText, marked_cons, marks]

theorem opens_render : Opens marks (WellNamed V) render := by
  intro t ht
  obtain ⟨c, cs, hc, hnot⟩ := ht.plain_headName.exists_cons
  exact exists_cons_of_head? (by simp [render_eq, hc]) hnot

theorem WellNamed.of_mem_args {f : String} {args : List Term} (h : WellNamed V (.app f args)) :
    ∀ t ∈ args, t.WellNamed V :=
  (wellNamedList_iff V).mp h.2

/-- Terms with the same text start with the same name. -/
theorem headName_inj {s t : Term} {x y : List Char} (hs : s.WellNamed V) (ht : t.WellNamed V)
    (hx : Ended x) (hy : Ended y) (h : s.render.toList ++ x = t.render.toList ++ y) :
    s.headName = t.headName ∧ s.argsText.toList ++ x = t.argsText.toList ++ y := by
  rw [render_eq, render_eq, String.toList_append, String.toList_append, List.append_assoc,
    List.append_assoc] at h
  exact hs.plain_headName.append_inj ht.plain_headName (marked_argsText_append hx.marked)
    (marked_argsText_append hy.marked) h

/-- Arguments are not taken for an end. -/
theorem not_ended_argsText_append (f : String) (args : List Term) (x : List Char) :
    ¬ Ended ((argsText (.app f args)).toList ++ x) := by
  simp [argsText, ends]

/-- A well-named term is legible before an end. -/
theorem legible_render : Legible Ended (WellNamed V) render := by
  intro s hs t x y ht hx hy h
  induction s using Term.induction generalizing t x y with
  | var z =>
    obtain ⟨hhead, hrest⟩ := headName_inj hs ht hx hy h
    cases t with
    | var z' => exact ⟨congrArg var hhead, hrest⟩
    | const a =>
      obtain rfl : z = a := hhead
      exact absurd hs.2 ht.2
    | app g bs =>
      obtain rfl : x = _ := hrest
      exact absurd hx (not_ended_argsText_append g bs y)
  | const a =>
    obtain ⟨hhead, hrest⟩ := headName_inj hs ht hx hy h
    cases t with
    | var z =>
      obtain rfl : a = z := hhead
      exact absurd ht.2 hs.2
    | const b => exact ⟨congrArg const hhead, hrest⟩
    | app g bs =>
      obtain rfl : x = _ := hrest
      exact absurd hx (not_ended_argsText_append g bs y)
  | app f args ih =>
    obtain ⟨hhead, hrest⟩ := headName_inj hs ht hx hy h
    cases t with
    | var z =>
      obtain rfl : _ = y := hrest
      exact absurd hy (not_ended_argsText_append f args x)
    | const b =>
      obtain rfl : _ = y := hrest
      exact absurd hy (not_ended_argsText_append f args x)
    | app g bs =>
      obtain rfl : f = g := hhead
      simp only [argsText, String.toList_append, List.append_assoc,
        List.append_cancel_left_eq] at hrest
      obtain ⟨rfl, rfl⟩ := intercalate_inj (k := ')') (by decide) (by decide)
        (fun _ hc _ => ended_cons.mpr hc) opens_render.ends hs.of_mem_args
        (fun t ht b u v hb hu hv => ih t ht (hs.of_mem_args t ht) b u v hb hu hv)
        ht.of_mem_args hrest
      exact ⟨rfl, rfl⟩

/-- Arguments in brackets are legible before anything. -/
theorem renderList_inj {ss ts : List Term} {x y : List Char} (hss : ∀ s ∈ ss, s.WellNamed V)
    (hts : ∀ t ∈ ts, t.WellNamed V)
    (h : (String.intercalate ", " (ss.map render)).toList ++ ')' :: x =
      (String.intercalate ", " (ts.map render)).toList ++ ')' :: y) : ss = ts ∧ x = y :=
  intercalate_inj (k := ')') (by decide) (by decide) (fun _ hc _ => ended_cons.mpr hc)
    opens_render.ends hss (fun s hs => legible_render s (hss s hs)) hts h

end Term

namespace Relation

/-- Whether all names in a relation are plain and variables are told from constants. -/
def WellNamed (r : Relation) : Prop := Plain r.name ∧ ∀ t ∈ r.args, t.WellNamed V

variable {V}

/-- A well-named relation is legible before anything. -/
theorem legible_render : Legible Anything (WellNamed V) render := by
  rintro ⟨name, args⟩ hr ⟨name', args'⟩ x y hr' _ _ h
  simp only [render, Term.renderList_eq_map, String.toList_append, String.reduceToList,
    List.append_assoc, List.cons_append, List.nil_append] at h
  obtain ⟨rfl, hargs⟩ := hr.1.append_inj hr'.1 (marked_cons.mpr (by decide))
    (marked_cons.mpr (by decide)) h
  obtain ⟨rfl, rfl⟩ := Term.renderList_inj hr.2 hr'.2 (List.cons.inj hargs).2
  exact ⟨rfl, rfl⟩

theorem opens_render : Opens marks (WellNamed V) render := by
  intro r hr
  obtain ⟨c, cs, hc, hnot⟩ := hr.1.exists_cons
  exact exists_cons_of_head? (by simp [render, hc]) hnot

end Relation

section Clauses

variable {L : Type} [Literal L]

/-- Whether literals with a property are legible before an end and do not start like anything
else. -/
structure LegibleLiterals (p : L → Prop) : Prop where
  /-- The literals are legible. -/
  legible : Legible Ended p (Literal.render : L → String)
  /-- They do not start with a character with a meaning. -/
  opens : Opens marks p (Literal.render : L → String)

variable {p : L → Prop}

/-- A signed literal is legible before an end if the literal is. -/
theorem Atom.legible_render (h : LegibleLiterals p) :
    Legible Ended (fun a : Atom L => p a.lit) render := by
  rintro ⟨l, sign⟩ hl ⟨l', sign'⟩ x y hl' hx hy heq
  obtain ⟨c, cs, hc, hnot⟩ := h.opens l hl
  obtain ⟨c', cs', hc', hnot'⟩ := h.opens l' hl'
  cases sign <;> cases sign'
  · obtain ⟨rfl, rfl⟩ := h.legible l hl l' x y hl' hx hy heq
    exact ⟨rfl, rfl⟩
  · -- A literal does not start like a negation.
    simp [render, hc] at heq
    exact absurd (by rw [heq.1]; decide) hnot
  · simp [render, hc'] at heq
    exact absurd (by rw [← heq.1]; decide) hnot'
  · simp [render] at heq
    obtain ⟨rfl, rfl⟩ := h.legible l hl l' x y hl' hx hy heq
    exact ⟨rfl, rfl⟩

theorem Atom.opens_render (h : LegibleLiterals p) :
    Opens ends (fun a : Atom L => p a.lit) render := by
  rintro ⟨l, sign⟩ hl
  cases sign
  · exact h.opens.ends l hl
  · exact exists_cons_of_head? (c := '!') (by simp [render]) (by decide)

/-- Whether all literals of a clause have a property. -/
def Clause.WellNamed (p : L → Prop) (c : Clause L) : Prop := ∀ a ∈ c.atoms, p a.lit

/-- A clause is legible before anything if its literals are before an end. -/
theorem Clause.legible_render (h : LegibleLiterals p) :
    Legible Anything (WellNamed p) (render : Clause L → String) := by
  rintro ⟨as⟩ has ⟨bs⟩ x y hbs _ _ heq
  simp only [render, String.toList_append, List.append_assoc, List.append_cancel_left_eq] at heq
  obtain ⟨rfl, rfl⟩ := intercalate_inj (k := '\x7d') (by decide) (by decide)
    (fun _ hc _ => ended_cons.mpr hc) (Atom.opens_render h) has
    (fun a ha => Atom.legible_render h a (has a ha)) hbs heq
  exact ⟨rfl, rfl⟩

theorem Clause.opens_render : Opens ends (WellNamed p) (render : Clause L → String) := fun _ _ =>
  exists_cons_of_head? (c := '\x7b') (by simp [render]) (by decide)

/-- A clause set is legible before a bar. -/
theorem ClauseSet.render_inj (h : LegibleLiterals p) {s t : ClauseSet L} {x y : List Char}
    (hs : ∀ c ∈ s.clauses, c.WellNamed p) (ht : ∀ c ∈ t.clauses, c.WellNamed p)
    (heq : s.render.toList ++ '|' :: x = t.render.toList ++ '|' :: y) : s = t ∧ x = y := by
  obtain ⟨cs⟩ := s
  obtain ⟨ds⟩ := t
  obtain ⟨rfl, rfl⟩ := intercalate_inj (k := '|') (by decide) (by decide)
    (fun _ _ _ => trivial) Clause.opens_render hs
    (fun c hc => Clause.legible_render h c (hs c hc)) ht heq
  exact ⟨rfl, rfl⟩

end Clauses

/-- Plain propositional variables are legible. -/
theorem legibleLiterals_plain : LegibleLiterals (L := String) Plain where
  legible := fun _ ha _ _ _ hb hx hy => ha.append_inj hb hx.marked hy.marked
  opens := fun _ ha => ha.exists_cons

/-- Well-named relations are legible. -/
theorem legibleLiterals_wellNamed : LegibleLiterals (Relation.WellNamed V) where
  legible := Relation.legible_render.of_anything
  opens := Relation.opens_render

namespace Formula

/-- How a connective is written. -/
def Connective.sign : Connective → String
  | and => " ∧ "
  | or => " ∨ "
  | imp => " --> "
  | iff => " <=> "

theorem render_apply (k : Connective) (f g : Formula) :
    (k.apply f g).render = "(" ++ f.render ++ k.sign ++ g.render ++ ")" := by
  cases k <;> rfl

theorem render_quantify (universal : Bool) (x : String) (f : Formula) :
    (quantify universal x f).render =
      (if universal then "(∀" else "(∃") ++ x ++ ": " ++ f.render ++ ")" := by
  cases universal <;> rfl

/-- Whether all names in a formula are plain and variables are told from constants. -/
def WellNamed : Formula → Prop
  | var name => Plain name
  | not f => f.WellNamed
  | and f g => f.WellNamed ∧ g.WellNamed
  | or f g => f.WellNamed ∧ g.WellNamed
  | imp f g => f.WellNamed ∧ g.WellNamed
  | iff f g => f.WellNamed ∧ g.WellNamed
  | rel r => r.WellNamed V
  | all x f => Plain x ∧ f.WellNamed
  | ex x f => Plain x ∧ f.WellNamed

variable {V}

theorem wellNamed_apply {k : Connective} {f g : Formula} :
    (k.apply f g).WellNamed V ↔ f.WellNamed V ∧ g.WellNamed V := by
  cases k <;> rfl

theorem wellNamed_quantify {universal : Bool} {x : String} {f : Formula} :
    (quantify universal x f).WellNamed V ↔ Plain x ∧ f.WellNamed V := by
  cases universal <;> rfl

/-- The character in front of a formula that is not atomic. -/
def lead : Formula → Option Char
  | var _ => none
  | rel _ => none
  | not _ => some '!'
  | _ => some '('

theorem lead_apply (k : Connective) (f g : Formula) : (k.apply f g).lead = some '(' := by
  cases k <;> rfl

theorem lead_quantify (universal : Bool) (x : String) (f : Formula) :
    (quantify universal x f).lead = some '(' := by
  cases universal <;> rfl

/-- A formula starts with the character that leads it, or with that of a name. -/
theorem exists_render_eq {f : Formula} (h : f.WellNamed V) :
    ∃ c cs, f.render.toList = c :: cs ∧ (f.lead = some c ∨ f.lead = none ∧ c ∉ marks) := by
  induction f using shapeInduction with
  | var name =>
    obtain ⟨c, cs, hc, hnot⟩ := Plain.exists_cons h
    exact ⟨c, cs, hc, Or.inr ⟨rfl, hnot⟩⟩
  | rel r =>
    obtain ⟨c, cs, hc, hnot⟩ := Relation.opens_render r h
    exact ⟨c, cs, hc, Or.inr ⟨rfl, hnot⟩⟩
  | not f _ => exact ⟨'!', f.render.toList, by simp [render], Or.inl rfl⟩
  | connective k f g _ _ =>
    refine ⟨'(', (f.render ++ k.sign ++ g.render ++ ")").toList, ?_, Or.inl (lead_apply k f g)⟩
    simp [render_apply]
  | quantifier universal x f _ =>
    refine ⟨'(', ((if universal then "∀" else "∃") ++ x ++ ": " ++ f.render ++ ")").toList, ?_,
      Or.inl (lead_quantify universal x f)⟩
    cases universal <;> simp [render_quantify]

theorem lead_eq_some {f : Formula} {c : Char} (h : f.lead = some c) : c = '!' ∨ c = '(' := by
  cases f <;> simp [lead] at h <;> simp [← h]

theorem mem_marks_of_lead {f : Formula} {c : Char} (h : f.lead = some c) : c ∈ marks := by
  rcases lead_eq_some h with rfl | rfl <;> decide

/-- Formulas with the same text have the same character in front. -/
theorem lead_inj {f g : Formula} {x y : List Char} (hf : f.WellNamed V) (hg : g.WellNamed V)
    (h : f.render.toList ++ x = g.render.toList ++ y) : f.lead = g.lead := by
  obtain ⟨c, cs, hc, hlead⟩ := exists_render_eq hf
  obtain ⟨d, ds, hd, hlead'⟩ := exists_render_eq hg
  rw [hc, hd] at h
  obtain rfl : c = d := (List.cons.inj h).1
  rcases hlead with hlead | ⟨hlead, hnot⟩ <;> rcases hlead' with hlead' | ⟨hlead', hnot'⟩
  · rw [hlead, hlead']
  · exact absurd (mem_marks_of_lead hlead) hnot'
  · exact absurd (mem_marks_of_lead hlead') hnot
  · rw [hlead, hlead']

/-- No formula starts like a quantifier without its bracket. -/
theorem render_append_ne {f : Formula} (hf : f.WellNamed V) (universal : Bool) (x y : List Char) :
    f.render.toList ++ x ≠ (if universal then '∀' else '∃') :: y := by
  obtain ⟨c, cs, hc, hlead⟩ := exists_render_eq hf
  rw [hc]
  intro h
  have hquantifier : c = '∀' ∨ c = '∃' := by
    have hhead := (List.cons.inj h).1
    cases universal
    · exact Or.inr hhead
    · exact Or.inl hhead
  rcases hlead with hlead | ⟨-, hnot⟩
  · rcases lead_eq_some hlead with rfl | rfl <;> revert hquantifier <;> decide
  · rcases hquantifier with rfl | rfl <;> exact hnot (by decide)

theorem Connective.ended_sign_append (k : Connective) (x : List Char) :
    Ended (k.sign.toList ++ x) := by
  cases k <;> simp [sign, ends]

theorem Connective.sign_inj {k l : Connective} {x y : List Char}
    (h : k.sign.toList ++ x = l.sign.toList ++ y) : k = l ∧ x = y := by
  cases k <;> cases l <;> simp [sign] at h <;> exact ⟨rfl, h⟩

section Lead

variable {f : Formula}

theorem eq_var_or_rel_of_lead (h : f.lead = none) : (∃ name, f = var name) ∨ ∃ r, f = rel r := by
  cases f with
  | var name => exact Or.inl ⟨name, rfl⟩
  | rel r => exact Or.inr ⟨r, rfl⟩
  | _ => simp [lead] at h

private theorem eq_not_of_lead (h : f.lead = some '!') : ∃ g, f = not g := by
  cases f with
  | not g => exact ⟨g, rfl⟩
  | _ => simp [lead] at h

theorem eq_apply_or_quantify_of_lead (h : f.lead = some '(') :
    (∃ k g₁ g₂, f = Connective.apply k g₁ g₂) ∨ ∃ universal x g, f = quantify universal x g := by
  induction f using shapeInduction with
  | var name => cases h
  | rel r => cases h
  | not f _ => simp [lead] at h
  | connective k g₁ g₂ _ _ => exact Or.inl ⟨k, g₁, g₂, rfl⟩
  | quantifier universal x g _ => exact Or.inr ⟨universal, x, g, rfl⟩

end Lead

/-- A variable is not taken for a relation, whose brackets are no end. -/
theorem var_append_ne_rel {name : String} {r : Relation} {x y : List Char} (hname : Plain name)
    (hr : r.WellNamed V) (hx : Ended x) : name.toList ++ x ≠ r.render.toList ++ y := by
  intro h
  simp only [Relation.render, String.toList_append, String.reduceToList, List.append_assoc,
    List.cons_append, List.nil_append] at h
  obtain ⟨-, rfl⟩ := hname.append_inj hr.1 hx.marked (marked_cons.mpr (by decide)) h
  exact absurd (ended_cons.mp hx) (by decide)

/-- A connective is not taken for a quantifier. -/
theorem apply_append_ne_quantify {k : Connective} {f g h : Formula} {universal : Bool}
    {z : String} {x y : List Char} (hf : f.WellNamed V) :
    (k.apply f g).render.toList ++ x ≠ (quantify universal z h).render.toList ++ y := by
  intro heq
  apply render_append_ne hf universal ((k.sign ++ g.render ++ ")").toList ++ x)
    ((z ++ ": " ++ h.render ++ ")").toList ++ y)
  cases universal <;> simpa [render_apply, render_quantify] using heq

/-- A well-named formula is legible before an end. -/
theorem legible_render : Legible Ended (WellNamed V) render := by
  intro f hf g x y hg hx hy h
  induction f using shapeInduction generalizing g x y with
  | var name =>
    rcases eq_var_or_rel_of_lead (lead_inj hf hg h).symm with ⟨name', rfl⟩ | ⟨r, rfl⟩
    · obtain ⟨rfl, rfl⟩ := Plain.append_inj hf hg hx.marked hy.marked h
      exact ⟨rfl, rfl⟩
    · exact absurd h (var_append_ne_rel hf hg hx)
  | rel r =>
    rcases eq_var_or_rel_of_lead (lead_inj hf hg h).symm with ⟨name', rfl⟩ | ⟨r', rfl⟩
    · exact absurd h.symm (var_append_ne_rel hg hf hy)
    · obtain ⟨rfl, rfl⟩ := Relation.legible_render r hf r' x y hg trivial trivial h
      exact ⟨rfl, rfl⟩
  | not f ih =>
    obtain ⟨g, rfl⟩ := eq_not_of_lead (lead_inj hf hg h).symm
    simp only [render, String.toList_append, List.append_assoc, List.append_cancel_left_eq] at h
    obtain ⟨rfl, rfl⟩ := ih hf g x y hg hx hy h
    exact ⟨rfl, rfl⟩
  | connective k f₁ f₂ ih₁ ih₂ =>
    obtain ⟨hf₁, hf₂⟩ := wellNamed_apply.mp hf
    have hlead := (lead_inj hf hg h).symm.trans (lead_apply k f₁ f₂)
    rcases eq_apply_or_quantify_of_lead hlead with ⟨l, g₁, g₂, rfl⟩ | ⟨universal, z, g, rfl⟩
    · obtain ⟨hg₁, hg₂⟩ := wellNamed_apply.mp hg
      simp only [render_apply, String.toList_append, List.append_assoc,
        List.append_cancel_left_eq] at h
      obtain ⟨rfl, hsign⟩ := ih₁ hf₁ g₁ _ _ hg₁ (k.ended_sign_append _) (l.ended_sign_append _) h
      obtain ⟨rfl, hright⟩ := Connective.sign_inj hsign
      obtain ⟨rfl, hrest⟩ := ih₂ hf₂ g₂ _ _ hg₂ (ended_cons.mpr (by decide))
        (ended_cons.mpr (by decide)) hright
      exact ⟨rfl, (List.cons.inj hrest).2⟩
    · exact absurd h (apply_append_ne_quantify hf₁)
  | quantifier universal z f ih =>
    obtain ⟨hz, hf'⟩ := wellNamed_quantify.mp hf
    have hlead := (lead_inj hf hg h).symm.trans (lead_quantify universal z f)
    rcases eq_apply_or_quantify_of_lead hlead with ⟨l, g₁, g₂, rfl⟩ | ⟨universal', z', g, rfl⟩
    · exact absurd h.symm (apply_append_ne_quantify (wellNamed_apply.mp hg).1)
    · obtain ⟨hz', hg'⟩ := wellNamed_quantify.mp hg
      obtain rfl : universal = universal' := by
        cases universal <;> cases universal' <;> simp [render_quantify] at h ⊢
      simp only [render_quantify, String.toList_append, List.append_assoc,
        List.append_cancel_left_eq, String.reduceToList, List.cons_append, List.nil_append] at h
      obtain ⟨rfl, hbody⟩ := hz.append_inj hz' (marked_cons.mpr (by decide))
        (marked_cons.mpr (by decide)) h
      simp only [List.cons.injEq, true_and] at hbody
      obtain ⟨rfl, hrest⟩ := ih hf' g _ _ hg' (ended_cons.mpr (by decide))
        (ended_cons.mpr (by decide)) hbody
      exact ⟨rfl, (List.cons.inj hrest).2⟩

theorem opens_render : Opens ends (WellNamed V) render := by
  intro f hf
  obtain ⟨c, cs, hc, hlead⟩ := exists_render_eq hf
  refine ⟨c, cs, hc, fun hend => ?_⟩
  rcases hlead with hlead | ⟨-, hnot⟩
  · rcases lead_eq_some hlead with rfl | rfl <;> revert hend <;> decide
  · exact hnot (mem_marks_of_mem_ends hend)

/-- Formulas with commas between them are legible before an end that is no comma. -/
theorem intercalate_render_inj {k : Char} (hk : k ∈ ends) (hcomma : k ≠ ',')
    {fs gs : List Formula} {x y : List Char} (hfs : ∀ f ∈ fs, f.WellNamed V)
    (hgs : ∀ g ∈ gs, g.WellNamed V)
    (h : (String.intercalate ", " (fs.map render)).toList ++ k :: x =
      (String.intercalate ", " (gs.map render)).toList ++ k :: y) : fs = gs ∧ x = y :=
  intercalate_inj hk hcomma (fun _ hc _ => ended_cons.mpr hc) opens_render hfs
    (fun f hf => legible_render f (hfs f hf)) hgs h

end Formula

namespace Sequent

/-- Whether all formulas of a sequent are well named. -/
def WellNamed (s : Sequent) : Prop := ∀ f ∈ s.formulas, f.WellNamed V

variable {V}

/-- A well-named sequent is legible before a semicolon. -/
theorem render_inj {s t : Sequent} {x y : List Char} (hs : s.WellNamed V) (ht : t.WellNamed V)
    (h : s.render.toList ++ ';' :: x = t.render.toList ++ ';' :: y) : s = t ∧ x = y := by
  obtain ⟨left, right⟩ := s
  obtain ⟨left', right'⟩ := t
  simp only [WellNamed, formulas, List.forall_mem_append] at hs ht
  simp only [render, renderFormulas, String.toList_append, String.reduceToList, List.append_assoc,
    List.cons_append, List.nil_append] at h
  obtain ⟨rfl, hright⟩ := Formula.intercalate_render_inj (by decide) (by decide) hs.1 ht.1 h
  simp only [List.cons.injEq, true_and] at hright
  obtain ⟨rfl, rfl⟩ := Formula.intercalate_render_inj (by decide) (by decide) hs.2 ht.2 hright
  exact ⟨rfl, rfl⟩

end Sequent

end Deduction
