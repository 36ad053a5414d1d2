import Deduction.Document.Clause
import Deduction.Proofs.Json.RoundTrip
import Deduction.Proofs.Substitution

/-!
# Decoding what was encoded

The JSON forms of terms, formulas and clauses are written without loss, and they are decoded to what
they stand for as long as there is room for their nesting.
-/

namespace Deduction

namespace Json

private theorem depth_le_depthItems {v : Json} {vs : List Json} (h : v ∈ vs) :
    v.depth ≤ depthItems vs := by
  induction vs with
  | nil => cases h
  | cons w vs ih =>
    rw [depthItems]
    rcases List.mem_cons.mp h with rfl | h
    · exact Nat.le_max_left _ _
    · exact (ih h).trans (Nat.le_max_right _ _)

private theorem depth_le_depthFields {f : String × Json} {fs : List (String × Json)} (h : f ∈ fs) :
    f.2.depth ≤ depthFields fs := by
  induction fs with
  | nil => cases h
  | cons g fs ih =>
    rw [depthFields]
    rcases List.mem_cons.mp h with rfl | h
    · exact Nat.le_max_left _ _
    · exact (ih h).trans (Nat.le_max_right _ _)

/-- Inside an array there is less room by one. -/
theorem exists_room_of_arr {vs : List Json} {room : Nat} (h : (Json.arr vs).depth ≤ room) :
    ∃ r, room = r + 1 ∧ ∀ v ∈ vs, v.depth ≤ r := by
  rw [depth] at h
  exact ⟨room - 1, by omega, fun v hv => (depth_le_depthItems hv).trans (by omega)⟩

/-- Inside an object there is less room by one. -/
theorem exists_room_of_obj {fs : List (String × Json)} {room : Nat}
    (h : (Json.obj fs).depth ≤ room) : ∃ r, room = r + 1 ∧ ∀ f ∈ fs, f.2.depth ≤ r := by
  rw [depth] at h
  exact ⟨room - 1, by omega, fun f hf => (depth_le_depthFields hf).trans (by omega)⟩

private theorem usableItems_eq_all (vs : List Json) : usableItems vs = vs.all usable := by
  induction vs with
  | nil => rfl
  | cons v vs ih => rw [usableItems, ih, List.all_cons]

private theorem usableFields_eq_all (fs : List (String × Json)) :
    usableFields fs = fs.all fun f => f.2.usable := by
  induction fs with
  | nil => rfl
  | cons f fs ih => rw [usableFields, ih, List.all_cons]

theorem Lossless.usable_eq {v : Json} (h : v.Lossless) : v.usable = true := by
  induction h with
  | null => rfl
  | bool b => rfl
  | nat hn => rfl
  | str s => rfl
  | arr _ ih =>
    rw [usable, usableItems_eq_all, List.all_eq_true]
    exact ih
  | obj _ ih =>
    rw [usable, usableFields_eq_all, List.all_eq_true]
    exact ih

/-- A lossless value can be taken in as a whole where there is room for it. -/
theorem Lossless.fits_eq {v : Json} (h : v.Lossless) {room : Nat} (hroom : v.depth ≤ room) :
    fits room v = true := by
  rw [fits, h.usable_eq, decide_eq_true hroom]
  rfl

variable {α : Type}

/-- Whether a value has a lossless form and is decoded from it, given room. -/
structure Faithful (encode : α → Json) (decode : Decoder α) (a : α) : Prop where
  /-- The form is lossless. -/
  lossless : (encode a).Lossless
  /-- The form is decoded to the value. -/
  decode_eq : ∀ room, (encode a).depth ≤ room → decode room (encode a) = some a

/-- A value whose form is an object is faithful if the fields are lossless and it is decoded in one
more than the room for them. -/
theorem Faithful.of_obj {encode : α → Json} {decode : Decoder α} {a : α}
    {fields : List (String × Json)} (hjson : encode a = .obj fields)
    (hfields : ∀ f ∈ fields, f.2.Lossless)
    (hdecode : ∀ r, (∀ f ∈ fields, f.2.depth ≤ r) → fits (r + 1) (encode a) = true →
      decode (r + 1) (encode a) = some a) : Faithful encode decode a := by
  have hlossless : (encode a).Lossless := hjson ▸ .obj hfields
  refine ⟨hlossless, fun room hroom => ?_⟩
  obtain ⟨r, rfl, hr⟩ := exists_room_of_obj (hjson ▸ hroom)
  exact hdecode r hr (hlossless.fits_eq hroom)

theorem mapM_map_eq_some {β : Type} {f : α → β} {g : β → Option α} {xs : List α}
    (h : ∀ x ∈ xs, g (f x) = some x) : (xs.map f).mapM g = some xs := by
  induction xs with
  | nil => rfl
  | cons x xs ih =>
    obtain ⟨hx, hxs⟩ := List.forall_mem_cons.mp h
    rw [List.map_cons, List.mapM_cons, hx, ih hxs]
    rfl

/-- Lists are faithful if their elements are. -/
theorem Faithful.list {encode : α → Json} {decode : Decoder α} (xs : List α)
    (h : ∀ x ∈ xs, Faithful encode decode x) : Faithful (ofList encode) (asList decode) xs where
  lossless := by
    refine .arr ?_
    simp only [List.forall_mem_map]
    exact fun x hx => (h x hx).lossless
  decode_eq := by
    intro room hroom
    obtain ⟨r, rfl, hr⟩ := exists_room_of_arr hroom
    simp only [List.forall_mem_map] at hr
    exact mapM_map_eq_some fun x hx => (h x hx).decode_eq r (hr x hx)

end Json

open Json

namespace Term

theorem toJsonList_eq_map (ts : List Term) : toJsonList ts = ts.map toJson := by
  induction ts with
  | nil => rfl
  | cons t ts ih => rw [toJsonList, ih, List.map_cons]

/-- The arguments of a term or an atomic formula are lossless if the terms are. -/
theorem lossless_toJsonList {ts : List Term} (h : ∀ t ∈ ts, t.toJson.Lossless) :
    (Json.arr (toJsonList ts)).Lossless := by
  rw [toJsonList_eq_map]
  refine .arr ?_
  simpa only [List.forall_mem_map] using h

/-- The arguments of a tagged value are decoded in the room that the value itself has. -/
theorem mapM_toJsonList {decode : Decoder Term} (ts : List Term)
    (h : ∀ t ∈ ts, Faithful toJson decode t) {room : Nat}
    (hroom : (Json.arr (toJsonList ts)).depth ≤ room) :
    (toJsonList ts).mapM (decode room) = some ts := by
  obtain ⟨r, rfl, hr⟩ := exists_room_of_arr hroom
  rw [toJsonList_eq_map] at hr ⊢
  simp only [List.forall_mem_map] at hr
  exact mapM_map_eq_some fun t ht => (h t ht).decode_eq _ ((hr t ht).trans (Nat.le_succ r))

/-- Terms are faithful, inside a tagged value or not. -/
theorem faithful (inner : Bool) (t : Term) : Faithful toJson (ofJson inner) t := by
  induction t using Term.induction generalizing inner with
  | var x =>
    refine .of_obj rfl (by simp [Lossless.str]) fun r _ hfits => ?_
    rw [ofJson, hfits, Bool.not_true, Bool.and_false]
    rfl
  | const a =>
    refine .of_obj rfl (by simp [Lossless.str]) fun r _ hfits => ?_
    rw [ofJson, hfits, Bool.not_true, Bool.and_false]
    rfl
  | app f ts ih =>
    have hargs := lossless_toJsonList fun t ht => (ih t ht true).lossless
    refine .of_obj rfl (by simp [Lossless.str, hargs]) fun r hr hfits => ?_
    have hts := mapM_toJsonList ts (fun t ht => ih t ht true) (hr ("arguments", _) (by simp))
    rw [ofJson, hfits, Bool.not_true, Bool.and_false]
    change ((toJsonList ts).mapM (ofJson true r)).bind (fun ts => some (Term.app f ts)) = _
    rw [hts]
    rfl

end Term

/-- Relations are faithful. -/
theorem Relation.faithful (r : Relation) : Faithful toJson ofJson r := by
  have hargs := Faithful.list r.args fun t _ => Term.faithful false t
  have heq : Json.arr (Term.toJsonList r.args) = ofList Term.toJson r.args := by
    rw [Term.toJsonList_eq_map]
    rfl
  refine .of_obj rfl (by simp [Lossless.str, heq, hargs.lossless]) fun room hr _ => ?_
  have hdecode := hargs.decode_eq room (heq ▸ hr ("arguments", _) (by simp))
  rw [← heq] at hdecode
  change (asList (Term.ofJson false) room (.arr (Term.toJsonList r.args))).bind
    (fun args => some (⟨r.name, args⟩ : Relation)) = _
  rw [hdecode]
  rfl

namespace Formula

variable {decode : Json → Option Formula} {f g : Formula}

theorem sidesOfJson_eq (hf : decode f.toJson = some f) (hg : decode g.toJson = some g) :
    sidesOfJson decode (.obj [("leftChild", f.toJson), ("rightChild", g.toJson)]) =
      some (f, g) := by
  have hfields : fieldsOf ["leftChild", "rightChild"]
      (.obj [("leftChild", f.toJson), ("rightChild", g.toJson)]) =
        some [.given f.toJson, .given g.toJson] := rfl
  simp [sidesOfJson, hfields, Slot.required, hf, hg]

theorem scopeOfJson_eq (x : String) (hf : decode f.toJson = some f) :
    scopeOfJson decode (.obj [("varName", .str x), ("child", f.toJson)]) = some (x, f) := by
  have hfields : fieldsOf ["varName", "child"]
      (.obj [("varName", .str x), ("child", f.toJson)]) =
        some [.given (.str x), .given f.toJson] := rfl
  simp [scopeOfJson, hfields, Slot.required, asString, hf]

/-- A value with the name of a tag is decoded alike inside a tagged value and outside, where it
must fit in addition. -/
theorem ofJson_eq_inner {v : Json} {tag : String} {body : Json} {room : Nat} (inner : Bool)
    (hfits : fits (room + 1) v = true) (htag : tagged "type" v = some (.str tag, body)) :
    ofJson inner (room + 1) v = ofJson true (room + 1) v := by
  rw [ofJson, ofJson, hfits, Bool.not_true, Bool.and_false, Bool.and_false, htag]
  rfl

/-- A formula with one connective is faithful if its sides are. -/
theorem faithful_of_sides {c : Formula → Formula → Formula} {tag : String}
    (hf : Faithful toJson (ofJson true) f) (hg : Faithful toJson (ofJson true) g)
    (hjson : (c f g).toJson =
      .obj [("type", .str tag), ("leftChild", f.toJson), ("rightChild", g.toJson)])
    (hdecode : ∀ room, ofJson true (room + 1) (c f g).toJson =
      (sidesOfJson (ofJson true room)
        (.obj [("leftChild", f.toJson), ("rightChild", g.toJson)])).bind fun p => some (c p.1 p.2))
    (inner : Bool) : Faithful toJson (ofJson inner) (c f g) := by
  refine .of_obj hjson (by simp [Lossless.str, hf.lossless, hg.lossless]) fun r hr hfits => ?_
  have hsides := sidesOfJson_eq (hf.decode_eq r (hr ("leftChild", _) (by simp)))
    (hg.decode_eq r (hr ("rightChild", _) (by simp)))
  rw [ofJson_eq_inner inner hfits (by rw [hjson]; rfl), hdecode, hsides]
  rfl

/-- A quantified formula is faithful if its body is. -/
theorem faithful_of_scope {q : String → Formula → Formula} {x tag : String}
    (hf : Faithful toJson (ofJson true) f)
    (hjson : (q x f).toJson = .obj [("type", .str tag), ("varName", .str x), ("child", f.toJson)])
    (hdecode : ∀ room, ofJson true (room + 1) (q x f).toJson =
      (scopeOfJson (ofJson true room)
        (.obj [("varName", .str x), ("child", f.toJson)])).bind fun p => some (q p.1 p.2))
    (inner : Bool) : Faithful toJson (ofJson inner) (q x f) := by
  refine .of_obj hjson (by simp [Lossless.str, hf.lossless]) fun r hr hfits => ?_
  have hscope := scopeOfJson_eq x (hf.decode_eq r (hr ("child", _) (by simp)))
  rw [ofJson_eq_inner inner hfits (by rw [hjson]; rfl), hdecode, hscope]
  rfl

/-- Formulas are faithful, inside a tagged value or not. -/
theorem faithful (inner : Bool) (f : Formula) : Faithful toJson (ofJson inner) f := by
  induction f generalizing inner with
  | var x =>
    refine .of_obj rfl (by simp [Lossless.str]) fun r _ hfits => ?_
    rw [ofJson_eq_inner inner hfits rfl]
    rfl
  | not f ih =>
    refine .of_obj rfl (by simp [Lossless.str, (ih true).lossless]) fun r hr hfits => ?_
    have hchild := (ih true).decode_eq r (hr ("child", _) (by simp))
    rw [ofJson_eq_inner inner hfits rfl]
    change (ofJson true r f.toJson).bind (fun f => some (Formula.not f)) = _
    rw [hchild]
    rfl
  | rel r =>
    have hargs := Term.lossless_toJsonList fun t (_ : t ∈ r.args) =>
      (Term.faithful true t).lossless
    refine .of_obj rfl (by simp [Lossless.str, hargs]) fun k hk hfits => ?_
    have hterms := Term.mapM_toJsonList r.args (fun t _ => Term.faithful true t)
      (hk ("arguments", _) (by simp))
    rw [ofJson_eq_inner inner hfits rfl]
    change ((Term.toJsonList r.args).mapM (Term.ofJson true k)).bind
      (fun args => some (Formula.rel ⟨r.name, args⟩)) = _
    rw [hterms]
    rfl
  | and f g ihf ihg => exact faithful_of_sides (ihf true) (ihg true) rfl (fun _ => rfl) inner
  | or f g ihf ihg => exact faithful_of_sides (ihf true) (ihg true) rfl (fun _ => rfl) inner
  | imp f g ihf ihg => exact faithful_of_sides (ihf true) (ihg true) rfl (fun _ => rfl) inner
  | iff f g ihf ihg => exact faithful_of_sides (ihf true) (ihg true) rfl (fun _ => rfl) inner
  | all x f ih => exact faithful_of_scope (ih true) rfl (fun _ => rfl) inner
  | ex x f ih => exact faithful_of_scope (ih true) rfl (fun _ => rfl) inner

end Formula

/-- Strings are faithful. -/
theorem faithful_string (s : String) : Faithful Json.str (fun _ => asString) s :=
  ⟨.str s, fun _ _ => rfl⟩

section Clause

variable {L : Type} [LiteralJson L]

/-- Whether all literals are faithful. -/
def FaithfulLiterals (L : Type) [LiteralJson L] : Prop :=
  ∀ l : L, Faithful LiteralJson.toJson LiteralJson.ofJson l

theorem faithfulLiterals_string : FaithfulLiterals String := faithful_string

theorem faithfulLiterals_relation : FaithfulLiterals Relation := Relation.faithful

/-- Atoms are faithful if literals are. -/
theorem Atom.faithful (hL : FaithfulLiterals L) (a : Atom L) :
    Faithful Atom.toJson Atom.ofJson a := by
  refine .of_obj rfl (by simp [(hL a.lit).lossless, Lossless.bool]) fun r hr _ => ?_
  have hlit := (hL a.lit).decode_eq r (hr _ List.mem_cons_self)
  change (LiteralJson.ofJson r (LiteralJson.toJson a.lit)).bind
    (fun l => some (⟨l, a.negated⟩ : Atom L)) = _
  rw [hlit]
  rfl

/-- Clauses are faithful if literals are. -/
theorem Clause.faithful (hL : FaithfulLiterals L) (c : Clause L) :
    Faithful Clause.toJson Clause.ofJson c := by
  have hatoms := Faithful.list c.atoms fun a _ => Atom.faithful hL a
  refine .of_obj rfl (by simp [hatoms.lossless]) fun r hr _ => ?_
  have hdecode := hatoms.decode_eq r (hr _ List.mem_cons_self)
  change (asList Atom.ofJson r (ofList Atom.toJson c.atoms)).bind
    (fun atoms => some (⟨atoms⟩ : Clause L)) = _
  rw [hdecode]
  rfl

/-- Clause sets are faithful if literals are. -/
theorem ClauseSet.faithful (hL : FaithfulLiterals L) (s : ClauseSet L) :
    Json.Faithful ClauseSet.toJson ClauseSet.ofJson s := by
  have hclauses := Json.Faithful.list s.clauses fun c _ => Clause.faithful hL c
  refine .of_obj rfl (by simp [hclauses.lossless]) fun r hr _ => ?_
  have hdecode := hclauses.decode_eq r (hr _ List.mem_cons_self)
  change (asList Clause.ofJson r (ofList Clause.toJson s.clauses)).bind
    (fun clauses => some (⟨clauses⟩ : ClauseSet L)) = _
  rw [hdecode]
  rfl

end Clause

end Deduction
