import Deduction.Proofs.Grammar.Recognition
import Deduction.Proofs.Legible

/-!
# Reading back what was written

The text of a readable term is one of its texts in the language, and so it is read as
this term. Hence a term is read back from its text, a relation over such terms from its
text, and a substitution from its texts.
-/

namespace Deduction

namespace Term

open Grammar Scan

/-- The texts of terms with commas and blanks between them are a text of these terms. -/
theorem written_intercalate {t : Term} {ts : List Term}
    (h : ∀ s ∈ t :: ts, TermsWritten [s] s.render.toList) :
    TermsWritten (t :: ts) (String.intercalate ", " ((t :: ts).map render)).toList := by
  induction ts generalizing t with
  | nil => simpa using h t List.mem_cons_self
  | cons s ts ih =>
    obtain ⟨ht, hts⟩ := List.forall_mem_cons.mp h
    have hblank : ∀ c ∈ [' '], isBlank c = true := by simp [isBlank]
    have hwritten := TermsWritten.cons ht (spelled_self [',']) ((ih hts).blanks hblank)
    rw [List.map_cons, List.map_cons, String.intercalate_cons_cons, ← List.map_cons,
      String.toList_append, String.toList_append]
    simpa using hwritten

/-- The text of a readable term is a text of it in the language. -/
theorem Readable.written {t : Term} (h : t.Readable) : TermsWritten [t] t.render.toList := by
  induction h with
  | var hx => exact .var hx (spelled_self _)
  | const ha => exact .const ha (spelled_self _)
  | @app f args hf hne _ ih =>
    obtain ⟨t, ts, rfl⟩ := List.exists_cons_of_ne_nil hne
    have hwritten := TermsWritten.app hf (spelled_self _) (spelled_self _)
      (written_intercalate ih) (spelled_self _)
    rw [render, renderList_eq_map]
    simpa using hwritten

/-- A readable term is read back from its text. -/
theorem Readable.parse_render {t : Term} (h : t.Readable) : Term.parse t.render = .ok t := by
  have hread := h.written.read.single t rfl [] (stops_of_blanks (by simp) _)
  rw [List.append_nil] at hread
  exact whole_eq_ok.mpr ⟨[], Result.plain_eq_ok.mpr hread, rfl⟩

end Term

namespace Relation

open Grammar Scan

/-- The text of a relation over readable terms is a text of it in the language. -/
theorem Readable.written {r : Relation} (hname : IsVariableName r.name) (h : r.Readable) :
    RelationWritten r r.render.toList := by
  obtain ⟨name, args⟩ := r
  cases args with
  | nil =>
    have hwritten := RelationWritten.bare hname (spelled_self _) (spelled_self _) (spelled_self _)
    simpa [render, Term.renderList] using hwritten
  | cons t ts =>
    have hargs := Term.written_intercalate fun s hs => (h s hs).written
    have hwritten := RelationWritten.applied hname (spelled_self _) (spelled_self _) hargs
      (spelled_self _)
    rw [render, Term.renderList_eq_map]
    simpa using hwritten

/-- A relation over readable terms is read back from its text. -/
theorem Readable.parse_render {r : Relation} (hname : IsVariableName r.name) (h : r.Readable) :
    Relation.parse r.render = .ok r := by
  have hread : ∃ hlt, relation r.render.toList = .ok (r, ⟨[], hlt⟩) :=
    (h.written hname).read (by rw [List.append_nil])
  exact whole_eq_ok.mpr ⟨[], Result.plain_eq_ok.mpr hread, rfl⟩

end Relation

namespace KeyMap

variable {κ α : Type} [Ord κ] [Std.TransOrd κ] [Std.LawfulEqOrd κ]

omit [Std.LawfulEqOrd κ] in
/-- An entry behind all others is written at the end. -/
theorem insertEntry_of_lt {key : κ} {value : α} {entries : List (κ × α)}
    (h : ∀ e ∈ entries, compare e.1 key = .lt) :
    insertEntry key value entries = entries ++ [(key, value)] := by
  induction entries with
  | nil => rfl
  | cons head rest ih =>
    obtain ⟨hhead, hrest⟩ := List.forall_mem_cons.mp h
    rw [insertEntry, Std.OrientedCmp.gt_of_lt hhead]
    simp [ih hrest]

/-- The entries of a map are among those that were written. -/
theorem mem_entries_ofList {entries : List (κ × α)} {e : κ × α}
    (h : e ∈ (ofList entries).entries) : e ∈ entries := by
  have hfold : ∀ (es : List (κ × α)) (m : KeyMap κ α),
      e ∈ (es.foldl (fun m e => m.insert e.1 e.2) m).entries → e ∈ m.entries ∨ e ∈ es := by
    intro es
    induction es with
    | nil => exact fun m hm => Or.inl hm
    | cons d es ih =>
      intro m hm
      rcases ih _ hm with hm | hm
      · exact (mem_insertEntry hm).elim (fun hd => Or.inr (hd ▸ List.mem_cons_self)) Or.inl
      · exact Or.inr (List.mem_cons_of_mem d hm)
  exact (hfold entries empty h).resolve_left List.not_mem_nil

/-- Writing the entries of a map gives the map. -/
theorem ofList_entries (m : KeyMap κ α) : ofList m.entries = m := by
  have hfold : ∀ (es : List (κ × α)) (n : KeyMap κ α), KeySorted (n.entries ++ es) →
      (es.foldl (fun m e => m.insert e.1 e.2) n).entries = n.entries ++ es := by
    intro es
    induction es with
    | nil => exact fun n _ => (List.append_nil _).symm
    | cons e es ih =>
      intro n hsorted
      have hlast : (n.insert e.1 e.2).entries = n.entries ++ [e] := by
        refine insertEntry_of_lt fun d hd => ?_
        exact (List.pairwise_append.mp hsorted).2.2 d hd e List.mem_cons_self
      have hrest : (n.insert e.1 e.2).entries ++ es = n.entries ++ e :: es := by
        rw [hlast, List.append_assoc]
        rfl
      rw [List.foldl_cons, ih (n.insert e.1 e.2) (hrest ▸ hsorted), hrest]
  exact ext (hfold m.entries empty m.sorted)

end KeyMap

/-- A substitution by readable terms is read back from its texts. -/
theorem Substitution.parse_texts {s : Substitution} (h : ∀ e ∈ s.entries, e.2.Readable) :
    Substitution.parse s.texts = .ok s := by
  rw [parse, texts, KeyMap.entries_mapValues, Outcome.mapM_map_eq_ok fun e he => ?_]
  · exact congrArg Except.ok (KeyMap.ofList_entries s)
  · simp only [(h e he).parse_render]

end Deduction
