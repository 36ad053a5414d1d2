import Deduction.NonClausal.Basic
import Deduction.Proofs.WellNamed
import Deduction.Resolution.Basic
import Deduction.SequentProof.Basic
import Deduction.Tableau.Basic

/-!
# Sealed texts of well-named states

The text over which a state is sealed shows every part of the state. Numbers,
flags, references and moves are legible whatever they are; clauses, formulas and
sequents are if they are well named.
-/

namespace Deduction

/-- What the nodes of all trees have in common in sealed texts. -/
def Node.frame {α : Type} (body extra : α → String) (n : Node α) : String :=
  "(" ++ Quoted.option Quoted.id n.parent ++ ";" ++ body n.label ++ ";" ++
    Quoted.bool n.isClosed ++ ";" ++ extra n.label ++ ";" ++ Quoted.list Quoted.id n.children ++ ")"

namespace Quoted

theorem legible_reference : Legible Ended (fun _ => True) (option id) := legible_option legible_id

private theorem legible_references : Legible Ended (fun _ => True) (list id) :=
  legible_list opens_id legible_id

theorem legible_assignment : Legible Ended (fun _ => True) (option map) :=
  legible_option legible_map.of_anything

end Quoted

/-- Texts that start with a plain word, behind which stands a character with a meaning or
nothing. -/
structure Worded {α : Type} (f word body : α → String) : Prop where
  /-- The word stands in front. -/
  eq : ∀ a, f a = word a ++ body a
  /-- The word is plain. -/
  plain : ∀ a, Plain (word a)
  /-- The word ends where the rest starts. -/
  marked : ∀ a, Marked (body a).toList

namespace Worded

variable {α : Type} {f word body : α → String}

/-- Equal texts start with equal words. -/
theorem inj (h : Worded f word body) {a b : α} {x y : List Char} (hx : Ended x) (hy : Ended y)
    (heq : (f a).toList ++ x = (f b).toList ++ y) :
    word a = word b ∧ (body a).toList ++ x = (body b).toList ++ y := by
  have hmarked : ∀ c z, Ended z → Marked ((body c).toList ++ z) := by
    intro c z hz
    cases hbody : (body c).toList with
    | nil => exact hz.marked
    | cons d ds => exact marked_cons.mpr (marked_cons.mp (hbody ▸ h.marked c))
  rw [h.eq, h.eq, String.toList_append, String.toList_append, List.append_assoc,
    List.append_assoc] at heq
  exact (h.plain a).append_inj (h.plain b) (hmarked a x hx) (hmarked b y hy) heq

theorem opens (h : Worded f word body) : Opens ends (fun _ => True) f := by
  intro a _
  obtain ⟨c, cs, hc, hnot⟩ := (h.plain a).exists_cons
  exact exists_cons_of_head? (by rw [h.eq, String.toList_append, hc]; rfl)
    fun hend => hnot (mem_marks_of_mem_ends hend)

end Worded

/-- A move in a tree that names a node is written with the number of the node in braces. -/
def nodeBody (id : Nat) : String := " \x7b node: " ++ Decimal.render id ++ " \x7d"

theorem legible_nodeBody : Legible Ended (fun _ => True) nodeBody := by
  intro m _ n x y _ _ _ h
  simp only [nodeBody, String.toList_append, List.append_assoc, List.append_cancel_left_eq] at h
  obtain ⟨rfl, hrest⟩ := Decimal.legible_render.field_inj (by decide) h
  exact ⟨rfl, hrest⟩

section Nodes

variable {α β γ : Type} {body : β → String} {extra : γ → String} {after : List Char → Prop}
  {p : β → Prop}

/-- A node is legible before anything if the two parts of its label are before semicolons. -/
theorem Node.legible_frame (part : α → β) (rest : α → γ)
    (hafter : ∀ x, after (";".toList ++ x)) (hbody : Legible after p body)
    (hextra : Legible Ended (fun _ => True) extra)
    (hlabel : ∀ a b : α, part a = part b → rest a = rest b → a = b) :
    Legible Anything (fun n => p (part n.label))
      (Node.frame (fun a => body (part a)) fun a => extra (rest a)) := by
  rintro ⟨parent, label, closed, children⟩ hn ⟨parent', label', closed', children'⟩ x y hn' _ _ h
  unfold frame at h
  simp only [String.toList_append, List.append_assoc, List.append_cancel_left_eq] at h
  obtain ⟨rfl, h₁⟩ := Quoted.legible_reference.field_inj (by decide) h
  obtain ⟨hpart, h₂⟩ := hbody _ hn _ _ _ hn' (hafter _) (hafter _) h₁
  obtain ⟨rfl, h₃⟩ := Quoted.legible_bool.field_inj (by decide) (List.append_cancel_left h₂)
  obtain ⟨hrest, h₄⟩ := hextra.field_inj (by decide) h₃
  obtain ⟨rfl, h₅⟩ := Quoted.legible_references.field_inj (by decide) h₄
  obtain rfl := hlabel label label' hpart hrest
  exact ⟨rfl, h₅⟩

theorem Node.opens_frame {q : Node α → Prop} {body extra : α → String} :
    Opens ends q (Node.frame body extra) := by
  intro n _
  unfold frame
  exact exists_cons_of_head? (c := '(') (by simp) (by decide)

end Nodes

namespace Resolution

variable {L : Type} [Literal L] {p : L → Prop}

/-- Whether all literals of a proof have a property. -/
def State.WellNamed (p : L → Prop) (s : State L) : Prop :=
  ∀ c ∈ s.clauses.clauses ++ s.hidden.clauses, c.WellNamed p

/-- A resolution proof with legible literals can be read off its sealed text. -/
theorem State.eq_of_sealText_eq (hp : LegibleLiterals p) {s t : State L} (hs : s.WellNamed p)
    (ht : t.WellNamed p) (h : s.sealText = t.sealText) : s = t := by
  obtain ⟨clauses, hidden, highlight, newest, status⟩ := s
  obtain ⟨clauses', hidden', highlight', newest', status'⟩ := t
  simp only [WellNamed, List.forall_mem_append] at hs ht
  rw [← String.toList_inj] at h
  unfold sealText at h
  simp only [String.toList_append, List.append_assoc, List.append_cancel_left_eq] at h
  obtain ⟨rfl, h₁⟩ := ClauseSet.render_inj hp hs.1 ht.1 h
  obtain ⟨rfl, h₂⟩ := ClauseSet.render_inj hp hs.2 ht.2 h₁
  obtain ⟨rfl, h₃⟩ := Quoted.legible_bool.field_inj (by decide) h₂
  obtain ⟨rfl, h₄⟩ := (Quoted.legible_option Decimal.legible_render).field_inj (by decide) h₃
  obtain rfl := (Quoted.legible_option Quoted.legible_string.of_anything).eq_of_eq trivial trivial
    (String.toList_inj.mp h₄)
  rfl

end Resolution

namespace Tableau

namespace Move

/-- The word in front of a move. -/
def word : Move → String
  | expand _ _ => "Expand"
  | close _ _ _ => "Close"
  | undo => "Undo"

/-- What stands behind the word. -/
def body : Move → String
  | expand id clause =>
    " \x7b id: " ++ Decimal.render id ++ ", clause: " ++ Decimal.render clause ++ " \x7d"
  | close leaf partner assignment =>
    " \x7b id1: " ++ Decimal.render leaf ++ ", id2: " ++ Decimal.render partner ++
      ", var_assign: " ++ Quoted.option Quoted.map assignment ++ " \x7d"
  | undo => ""

theorem worded_sealText : Worded sealText word body where
  eq m := by
    unfold sealText word body
    cases m <;> simp only [← String.append_assoc, String.reduceAppend]
  plain m := by cases m <;> simp only [word] <;> decide
  marked m := by
    unfold body
    cases m <;> simp [Marked, marks, ends]

/-- A move in a tableau is legible. -/
theorem legible_sealText : Legible Ended (fun _ => True) sealText := by
  intro m _ m' x y _ hx hy h
  obtain ⟨hword, hbody⟩ := worded_sealText.inj hx hy h
  cases m with
  | expand id clause =>
    cases m' with
    | expand id' clause' =>
      unfold body at hbody
      simp only [String.toList_append, List.append_assoc, List.append_cancel_left_eq] at hbody
      obtain ⟨rfl, h₁⟩ := Decimal.legible_render.field_inj (by decide) hbody
      obtain ⟨rfl, h₂⟩ := Decimal.legible_render.field_inj (by decide) h₁
      exact ⟨rfl, h₂⟩
    | _ => simp [word] at hword
  | close leaf partner assignment =>
    cases m' with
    | close leaf' partner' assignment' =>
      unfold body at hbody
      simp only [String.toList_append, List.append_assoc, List.append_cancel_left_eq] at hbody
      obtain ⟨rfl, h₁⟩ := Decimal.legible_render.field_inj (by decide) hbody
      obtain ⟨rfl, h₂⟩ := Decimal.legible_render.field_inj (by decide) h₁
      obtain ⟨rfl, h₃⟩ := Quoted.legible_assignment.field_inj (by decide) h₂
      exact ⟨rfl, h₃⟩
    | _ => simp [word] at hword
  | undo =>
    cases m' with
    | undo => exact ⟨rfl, hbody⟩
    | _ => simp [word] at hword

end Move

variable {L : Type} [Literal L] {p : L → Prop}

/-- Whether all literals of a tableau and of its clauses have a property. -/
def State.WellNamed (p : L → Prop) (s : State L) : Prop :=
  (∀ c ∈ s.clauses.clauses, c.WellNamed p) ∧ ∀ n ∈ s.tree.items, ∀ a ∈ n.label.atom, p a.lit

theorem Connectedness.sealText_inj {k l : Connectedness} {x y : List Char}
    (h : k.sealText.toList ++ x = l.sealText.toList ++ y) : k = l ∧ x = y := by
  cases k <;> cases l <;> simp [sealText] at h <;> exact ⟨rfl, h⟩

/-- The atom of a node, if it has one, is legible. -/
theorem legible_atom (hp : LegibleLiterals p) : Legible Ended (fun o => ∀ a ∈ o, p a.lit)
    fun o : Option (Atom L) => Quoted.option Quoted.string (o.map Atom.render) := by
  intro o ho o' x y ho' hx hy h
  obtain ⟨htext, hrest⟩ := Quoted.legible_option Quoted.legible_string.of_anything _ trivial _
    x y trivial hx hy h
  refine ⟨?_, hrest⟩
  cases o with
  | none =>
    cases o' with
    | none => rfl
    | some b => cases htext
  | some a =>
    cases o' with
    | none => cases htext
    | some b =>
      rw [(Atom.legible_render hp).eq_of_eq (ho a rfl) (ho' b rfl) (Option.some.inj htext)]

theorem nodeSealText_eq : nodeSealText (L := L) =
    Node.frame (fun a => Quoted.option Quoted.string (a.atom.map Atom.render))
      fun a => Quoted.option Quoted.id a.closeRef :=
  rfl

theorem legible_nodeSealText (hp : LegibleLiterals p) :
    Legible Anything (fun n : Node (Label L) => ∀ a ∈ n.label.atom, p a.lit) nodeSealText := by
  rw [nodeSealText_eq]
  refine Node.legible_frame Label.atom Label.closeRef (ended_append (by decide)) (legible_atom hp)
    Quoted.legible_reference ?_
  rintro ⟨_, _⟩ ⟨_, _⟩ rfl rfl
  rfl

theorem opens_nodeSealText {q : Node (Label L) → Prop} : Opens ends q nodeSealText := by
  rw [nodeSealText_eq]
  exact Node.opens_frame

/-- A tableau with legible literals can be read off its sealed text. -/
theorem State.eq_of_sealText_eq (hp : LegibleLiterals p) {s t : State L} (hs : s.WellNamed p)
    (ht : t.WellNamed p) (h : s.sealText = t.sealText) : s = t := by
  obtain ⟨clauses, kind, regular, backtracking, manual, ⟨nodes⟩, history, expansions⟩ := s
  obtain ⟨clauses', kind', regular', backtracking', manual', ⟨nodes'⟩, history', expansions'⟩ := t
  rw [← String.toList_inj] at h
  unfold sealText at h
  simp only [String.toList_append, List.append_assoc, List.append_cancel_left_eq] at h
  obtain ⟨rfl, h₁⟩ := Connectedness.sealText_inj h
  obtain ⟨rfl, h₂⟩ := Quoted.legible_bool.field_inj (by decide) (List.append_cancel_left h₁)
  obtain ⟨rfl, h₃⟩ := Quoted.legible_bool.field_inj (by decide) h₂
  obtain ⟨rfl, h₄⟩ := Quoted.legible_bool.field_inj (by decide) h₃
  obtain ⟨rfl, h₅⟩ := Decimal.legible_render.field_inj (by decide) h₄
  simp only [String.reduceToList, List.cons_append, List.nil_append] at h₅
  obtain ⟨rfl, h₆⟩ := ClauseSet.render_inj hp hs.1 ht.1 h₅
  obtain ⟨rfl, h₇⟩ := join_inj (by decide) opens_nodeSealText (legible_nodeSealText hp) hs.2 ht.2
    (List.cons.inj h₆).2
  obtain rfl := (Quoted.legible_list Move.worded_sealText.opens Move.legible_sealText).eq_of_eq
    trivial trivial (String.toList_inj.mp (List.cons.inj h₇).2)
  rfl

end Tableau

namespace NonClausal

namespace Move

/-- The word in front of a move. -/
def word : Move → String
  | alpha _ => "Alpha"
  | beta _ => "Beta"
  | gamma _ => "Gamma"
  | delta _ => "Delta"
  | close _ _ _ => "Close"
  | undo => "Undo"

/-- What stands behind the word. -/
def body : Move → String
  | alpha id => nodeBody id
  | beta id => nodeBody id
  | gamma id => nodeBody id
  | delta id => nodeBody id
  | close leaf partner assignment =>
    " \x7b leaf: " ++ Decimal.render leaf ++ ", partner: " ++ Decimal.render partner ++
      ", var_assign: " ++ Quoted.option Quoted.map assignment ++ " \x7d"
  | undo => ""

theorem worded_sealText : Worded sealText word body where
  eq m := by
    unfold sealText word body nodeBody
    cases m <;> simp only [← String.append_assoc, String.reduceAppend]
  plain m := by cases m <;> simp only [word] <;> decide
  marked m := by
    unfold body nodeBody
    cases m <;> simp [Marked, marks, ends]

/-- A move in a non-clausal tableau is legible. -/
theorem legible_sealText : Legible Ended (fun _ => True) sealText := by
  intro m _ m' x y _ hx hy h
  obtain ⟨hword, hbody⟩ := worded_sealText.inj hx hy h
  have hnode : ∀ {id id' : Nat}, (nodeBody id).toList ++ x = (nodeBody id').toList ++ y →
      id = id' ∧ x = y := fun heq => legible_nodeBody _ trivial _ x y trivial hx hy heq
  cases m with
  | alpha id =>
    cases m' with
    | alpha id' => exact (hnode hbody).imp_left (congrArg alpha)
    | _ => simp [word] at hword
  | beta id =>
    cases m' with
    | beta id' => exact (hnode hbody).imp_left (congrArg beta)
    | _ => simp [word] at hword
  | gamma id =>
    cases m' with
    | gamma id' => exact (hnode hbody).imp_left (congrArg gamma)
    | _ => simp [word] at hword
  | delta id =>
    cases m' with
    | delta id' => exact (hnode hbody).imp_left (congrArg delta)
    | _ => simp [word] at hword
  | close leaf partner assignment =>
    cases m' with
    | close leaf' partner' assignment' =>
      unfold body at hbody
      simp only [String.toList_append, List.append_assoc, List.append_cancel_left_eq] at hbody
      obtain ⟨rfl, h₁⟩ := Decimal.legible_render.field_inj (by decide) hbody
      obtain ⟨rfl, h₂⟩ := Decimal.legible_render.field_inj (by decide) h₁
      obtain ⟨rfl, h₃⟩ := Quoted.legible_assignment.field_inj (by decide) h₂
      exact ⟨rfl, h₃⟩
    | _ => simp [word] at hword
  | undo =>
    cases m' with
    | undo => exact ⟨rfl, hbody⟩
    | _ => simp [word] at hword

end Move

variable {V : String → Prop}

/-- Whether all formulas of a tableau are well named. -/
def State.WellNamed (V : String → Prop) (s : State) : Prop :=
  s.formula.WellNamed V ∧ ∀ n ∈ s.tree.items, n.label.formula.WellNamed V

theorem nodeSealText_eq : nodeSealText =
    Node.frame (fun a => a.formula.render) fun a => Quoted.option Quoted.id a.closeRef :=
  rfl

theorem legible_nodeSealText :
    Legible Anything (fun n : Node Label => n.label.formula.WellNamed V) nodeSealText := by
  rw [nodeSealText_eq]
  refine Node.legible_frame Label.formula Label.closeRef (ended_append (by decide))
    Formula.legible_render Quoted.legible_reference ?_
  rintro ⟨_, _⟩ ⟨_, _⟩ rfl rfl
  rfl

theorem opens_nodeSealText {q : Node Label → Prop} : Opens ends q nodeSealText := by
  rw [nodeSealText_eq]
  exact Node.opens_frame

/-- A well-named non-clausal tableau can be read off its sealed text. -/
theorem State.eq_of_sealText_eq {s t : State} (hs : s.WellNamed V) (ht : t.WellNamed V)
    (h : s.sealText = t.sealText) : s = t := by
  obtain ⟨formula, backtracking, ⟨nodes⟩, history, variableCount, symbolCount⟩ := s
  obtain ⟨formula', backtracking', ⟨nodes'⟩, history', variableCount', symbolCount'⟩ := t
  rw [← String.toList_inj] at h
  unfold sealText at h
  simp only [String.toList_append, List.append_assoc, List.append_cancel_left_eq] at h
  obtain ⟨rfl, h₁⟩ := Formula.legible_render _ hs.1 _ _ _ ht.1 (ended_append (by decide) _)
    (ended_append (by decide) _) h
  obtain ⟨rfl, h₂⟩ := Quoted.legible_bool.field_inj (by decide) (List.append_cancel_left h₁)
  obtain ⟨rfl, h₃⟩ := Decimal.legible_render.field_inj (by decide) h₂
  obtain ⟨rfl, h₄⟩ := Decimal.legible_render.field_inj (by decide) h₃
  simp only [String.reduceToList, List.cons_append, List.nil_append] at h₄
  obtain ⟨rfl, h₅⟩ := join_inj (by decide) opens_nodeSealText legible_nodeSealText hs.2 ht.2 h₄
  obtain rfl := (Quoted.legible_list Move.worded_sealText.opens Move.legible_sealText).eq_of_eq
    trivial trivial (String.toList_inj.mp (List.cons.inj h₅).2)
  rfl

end NonClausal

namespace SequentProof

theorem Rule.name_inj {rule rule' : Rule} (h : rule.name = rule'.name) : rule = rule' := by
  cases rule <;> cases rule' <;> first | rfl | simp [name] at h

theorem QuantifierRule.name_inj {rule rule' : QuantifierRule} (h : rule.name = rule'.name) :
    rule = rule' := by
  cases rule <;> cases rule' <;> first | rfl | simp [name] at h

namespace Move

/-- The word in front of a move. -/
def word : Move → String
  | ax _ => "Ax"
  | connective rule _ _ => rule.name
  | quantifier rule _ _ _ => rule.name
  | undo => "Undo"

/-- What stands behind the word. -/
def body : Move → String
  | ax id => nodeBody id
  | connective _ id index =>
    "(RuleTarget \x7b node: " ++ Decimal.render id ++ ", list_index: " ++ Decimal.render index ++
      " \x7d)"
  | quantifier _ id index assignment =>
    "(Instantiation \x7b node: " ++ Decimal.render id ++ ", list_index: " ++
      Decimal.render index ++ ", var_assign: " ++ Quoted.map assignment ++ " \x7d)"
  | undo => ""

theorem worded_sealText : Worded sealText word body where
  eq m := by
    unfold sealText word body nodeBody
    cases m <;> simp only [← String.append_assoc, String.reduceAppend]
  plain m := by
    cases m with
    | ax id => exact (by decide : Plain "Ax")
    | connective rule id index => cases rule <;> simp only [word, Rule.name] <;> decide
    | quantifier rule id index assignment =>
      cases rule <;> simp only [word, QuantifierRule.name] <;> decide
    | undo => decide
  marked m := by
    unfold body nodeBody
    cases m <;> simp [Marked, marks, ends]

/-- A move in the sequent calculus is legible. -/
theorem legible_sealText : Legible Ended (fun _ => True) sealText := by
  intro m _ m' x y _ hx hy h
  obtain ⟨hword, hbody⟩ := worded_sealText.inj hx hy h
  cases m with
  | ax id =>
    cases m' with
    | ax id' =>
      exact (legible_nodeBody _ trivial _ x y trivial hx hy hbody).imp_left (congrArg ax)
    | connective rule _ _ => cases rule <;> simp [word, Rule.name] at hword
    | quantifier rule _ _ _ => cases rule <;> simp [word, QuantifierRule.name] at hword
    | undo => simp [word] at hword
  | connective rule id index =>
    cases m' with
    | ax _ => cases rule <;> simp [word, Rule.name] at hword
    | connective rule' id' index' =>
      obtain rfl := Rule.name_inj hword
      unfold body at hbody
      simp only [String.toList_append, List.append_assoc, List.append_cancel_left_eq] at hbody
      obtain ⟨rfl, h₁⟩ := Decimal.legible_render.field_inj (by decide) hbody
      obtain ⟨rfl, h₂⟩ := Decimal.legible_render.field_inj (by decide) h₁
      exact ⟨rfl, h₂⟩
    | quantifier rule' _ _ _ =>
      unfold body at hbody
      simp at hbody
    | undo => cases rule <;> simp [word, Rule.name] at hword
  | quantifier rule id index assignment =>
    cases m' with
    | ax _ => cases rule <;> simp [word, QuantifierRule.name] at hword
    | connective rule' _ _ =>
      unfold body at hbody
      simp at hbody
    | quantifier rule' id' index' assignment' =>
      obtain rfl := QuantifierRule.name_inj hword
      unfold body at hbody
      simp only [String.toList_append, List.append_assoc, List.append_cancel_left_eq] at hbody
      obtain ⟨rfl, h₁⟩ := Decimal.legible_render.field_inj (by decide) hbody
      obtain ⟨rfl, h₂⟩ := Decimal.legible_render.field_inj (by decide) h₁
      obtain ⟨rfl, h₃⟩ := Quoted.legible_map.of_anything.field_inj (by decide) h₂
      exact ⟨rfl, h₃⟩
    | undo => cases rule <;> simp [word, QuantifierRule.name] at hword
  | undo =>
    cases m' with
    | ax _ => simp [word] at hword
    | connective rule _ _ => cases rule <;> simp [word, Rule.name] at hword
    | quantifier rule _ _ _ => cases rule <;> simp [word, QuantifierRule.name] at hword
    | undo => exact ⟨rfl, hbody⟩

end Move

variable {V : String → Prop}

/-- Whether all sequents of a proof are well named. -/
def State.WellNamed (V : String → Prop) (s : State) : Prop :=
  ∀ n ∈ s.tree.items, n.label.sequent.WellNamed V

/-- A well-named sequent is legible before a semicolon. -/
theorem legible_sequent :
    Legible (fun x => ∃ y, x = ';' :: y) (Sequent.WellNamed V) Sequent.render := by
  rintro s hs t _ _ ht ⟨x, rfl⟩ ⟨y, rfl⟩ h
  exact (Sequent.render_inj hs ht h).imp_right (congrArg _)

theorem nodeSealText_eq : nodeSealText =
    Node.frame (fun a => a.sequent.render) fun a => Quoted.option Move.sealText a.lastMove :=
  rfl

theorem legible_nodeSealText :
    Legible Anything (fun n : Node Label => n.label.sequent.WellNamed V) nodeSealText := by
  rw [nodeSealText_eq]
  refine Node.legible_frame Label.sequent Label.lastMove ?_ legible_sequent
    (Quoted.legible_option Move.legible_sealText) ?_
  · intro x
    exact ⟨x, rfl⟩
  · rintro ⟨_, _⟩ ⟨_, _⟩ rfl rfl
    rfl

theorem opens_nodeSealText {q : Node Label → Prop} : Opens ends q nodeSealText := by
  rw [nodeSealText_eq]
  exact Node.opens_frame

/-- A well-named proof in the sequent calculus can be read off its sealed text. -/
theorem State.eq_of_sealText_eq {s t : State} (hs : s.WellNamed V) (ht : t.WellNamed V)
    (h : s.sealText = t.sealText) : s = t := by
  obtain ⟨⟨nodes⟩, history, onlyApplicable⟩ := s
  obtain ⟨⟨nodes'⟩, history', onlyApplicable'⟩ := t
  rw [← String.toList_inj] at h
  unfold sealText at h
  simp only [String.toList_append, List.append_assoc, List.append_cancel_left_eq] at h
  obtain ⟨rfl, h₁⟩ := Quoted.legible_bool.field_inj (by decide) h
  simp only [String.reduceToList, List.cons_append, List.nil_append] at h₁
  obtain ⟨rfl, h₂⟩ := join_inj (by decide) opens_nodeSealText legible_nodeSealText hs ht h₁
  obtain rfl := (Quoted.legible_list Move.worded_sealText.opens Move.legible_sealText).eq_of_eq
    trivial trivial (String.toList_inj.mp (List.cons.inj h₂).2)
  rfl

end SequentProof

end Deduction
