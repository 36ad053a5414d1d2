/-!
# Finite maps in key order

A `KeyMap` lists its entries with strictly increasing keys, so two maps with
the same look-ups are the same list, and every listing of a map is ordered.
Writing to a key that is present replaces its value.
-/

namespace Deduction

variable {κ α β : Type} [Ord κ]

/-- Entries stand in strictly increasing key order. -/
def KeySorted (entries : List (κ × α)) : Prop :=
  entries.Pairwise fun a b => compare a.1 b.1 = .lt

/-- Put an entry at its place in an ordered list, over any entry with the same key. -/
def insertEntry (key : κ) (value : α) : List (κ × α) → List (κ × α)
  | [] => [(key, value)]
  | (k, v) :: rest =>
    match compare key k with
    | .lt => (key, value) :: (k, v) :: rest
    | .eq => (key, value) :: rest
    | .gt => (k, v) :: insertEntry key value rest

/-- An entry of the written list is the new one or an old one. -/
theorem mem_insertEntry {key : κ} {value : α} {entries : List (κ × α)} {e : κ × α}
    (h : e ∈ insertEntry key value entries) : e = (key, value) ∨ e ∈ entries := by
  induction entries with
  | nil => simpa [insertEntry] using h
  | cons head rest ih =>
    obtain ⟨k, v⟩ := head
    rw [insertEntry] at h
    split at h
    · simpa using h
    · rcases List.mem_cons.1 h with h | h <;> simp [h]
    · rcases List.mem_cons.1 h with h | h
      · simp [h]
      · rcases ih h with h | h <;> simp [h]

/-- Writing keeps the entries in key order. -/
theorem KeySorted.insertEntry [Std.TransOrd κ] [Std.LawfulEqOrd κ] {entries : List (κ × α)}
    (h : KeySorted entries) (key : κ) (value : α) :
    KeySorted (insertEntry key value entries) := by
  induction entries with
  | nil => simp [KeySorted, Deduction.insertEntry]
  | cons head rest ih =>
    obtain ⟨k, v⟩ := head
    have hrest := List.pairwise_cons.1 h
    rw [Deduction.insertEntry]
    split
    next hc =>
      refine List.pairwise_cons.2 ⟨fun e he => ?_, h⟩
      rcases List.mem_cons.1 he with rfl | he
      · exact hc
      · exact Std.TransCmp.lt_trans hc (hrest.1 e he)
    next hc =>
      obtain rfl := Std.LawfulEqCmp.eq_of_compare hc
      exact List.pairwise_cons.2 hrest
    next hc =>
      refine List.pairwise_cons.2 ⟨fun e he => ?_, ih hrest.2⟩
      rcases mem_insertEntry he with rfl | he
      · exact Std.OrientedCmp.lt_of_gt hc
      · exact hrest.1 e he

/-- A finite map whose entries are listed in key order. -/
structure KeyMap (κ α : Type) [Ord κ] where
  /-- The entries, smallest key first. -/
  entries : List (κ × α)
  /-- No key is listed twice or out of order. -/
  sorted : KeySorted entries

namespace KeyMap

/-- Maps with equal entries are equal. -/
theorem ext {m n : KeyMap κ α} (h : m.entries = n.entries) : m = n := by
  cases m
  cases n
  cases h
  rfl

instance [DecidableEq κ] [DecidableEq α] : DecidableEq (KeyMap κ α) := fun m n =>
  decidable_of_iff (m.entries = n.entries) ⟨ext, fun h => h ▸ rfl⟩

/-- The map without entries. -/
def empty : KeyMap κ α := ⟨[], List.Pairwise.nil⟩

instance : Inhabited (KeyMap κ α) := ⟨empty⟩

/-- The value written under a key. -/
def get? [DecidableEq κ] (m : KeyMap κ α) (key : κ) : Option α :=
  (m.entries.find? fun e => e.1 = key).map Prod.snd

/-- Write a value under a key, over any earlier one. -/
def insert [Std.TransOrd κ] [Std.LawfulEqOrd κ] (m : KeyMap κ α) (key : κ) (value : α) :
    KeyMap κ α :=
  ⟨insertEntry key value m.entries, m.sorted.insertEntry key value⟩

/-- Write all entries of a list, first to last, so that of equal keys the last one counts. -/
def ofList [Std.TransOrd κ] [Std.LawfulEqOrd κ] (entries : List (κ × α)) : KeyMap κ α :=
  entries.foldl (fun m e => m.insert e.1 e.2) empty

/-- Change every value and keep the keys. -/
def mapValues (f : α → β) (m : KeyMap κ α) : KeyMap κ β :=
  ⟨m.entries.map fun e => (e.1, f e.2), by simpa [KeySorted, List.pairwise_map] using m.sorted⟩

@[simp] theorem entries_empty : (empty : KeyMap κ α).entries = [] := rfl

@[simp] theorem entries_insert [Std.TransOrd κ] [Std.LawfulEqOrd κ] (m : KeyMap κ α)
    (key : κ) (value : α) : (m.insert key value).entries = insertEntry key value m.entries := rfl

@[simp] theorem entries_mapValues (f : α → β) (m : KeyMap κ α) :
    (m.mapValues f).entries = m.entries.map fun e => (e.1, f e.2) := rfl

end KeyMap

end Deduction
