/-
The placeholders of one kind, with their indices.

`spotsOf pick` are the placeholders that `pick` picks out, in order. Cells, slots and children are kept in rows that
follow such lists, and markers are found by their indices.
-/
import LiveMarkup.Proofs.Template.Findable

namespace LiveMarkup

variable {A T β : Type}

/-- the picked ones among placeholders that begin with number `index`, with their indices -/
def spotsOf (pick : Placeholder A T → Option β) (index : Nat) (ps : List (Placeholder A T)) : List (Nat × β) :=
  (ps.zipIdx index).filterMap fun e => (pick e.1).map (e.2, ·)

namespace Placeholder

def text? : Placeholder A T → Option String
  | .text prop => some prop
  | _ => none

def attribute? : Placeholder A T → Option (String × String)
  | .attribute prop name => some (prop, name)
  | _ => none

theorem text?_eq_some_iff {p : Placeholder A T} {prop : String} : p.text? = some prop ↔ p = .text prop := by
  cases p <;> simp [text?]

theorem attribute?_eq_some_iff {p : Placeholder A T} {e : String × String} :
    p.attribute? = some e ↔ p = .attribute e.1 e.2 := by
  cases p <;> simp [attribute?, Prod.ext_iff]

theorem category_eq_slot_iff {p : Placeholder A T} : p.category = .slot ↔ ∃ name, p = .slot name := by
  cases p <;> simp [category]

end Placeholder

section

variable {pick : Placeholder A T → Option β} {ps : List (Placeholder A T)}

theorem spotsOf_cons (index : Nat) (p : Placeholder A T) :
    spotsOf pick index (p :: ps) = ((pick p).map (index, ·)).toList ++ spotsOf pick (index + 1) ps := by
  rw [spotsOf, List.zipIdx_cons, List.filterMap_cons]
  cases pick p <;> rfl

theorem mem_spotsOf (pick : Placeholder A T → Option β) (ps : List (Placeholder A T)) (index i : Nat) (b : β) :
    (index + i, b) ∈ spotsOf pick index ps ↔ ∃ p, ps[i]? = some p ∧ pick p = some b := by
  rw [spotsOf, List.mem_filterMap]
  constructor
  · rintro ⟨⟨p, j⟩, hp, hb⟩
    obtain ⟨c, hc, he⟩ := Option.map_eq_some_iff.1 hb
    obtain ⟨rfl, rfl⟩ := Prod.mk.inj he
    rw [List.mem_zipIdx_iff_le_and_getElem?_sub] at hp
    exact ⟨p, by rw [← hp.2]; exact congrArg (ps[·]?) (Nat.add_sub_cancel_left index i).symm, hc⟩
  · rintro ⟨p, hp, hb⟩
    refine ⟨(p, index + i), ?_, by rw [hb]; rfl⟩
    rw [List.mem_zipIdx_iff_le_and_getElem?_sub, Nat.add_sub_cancel_left]
    exact ⟨Nat.le_add_right _ _, hp⟩

theorem mem_spotsOf_zero {i : Nat} {b : β} : (i, b) ∈ spotsOf pick 0 ps ↔ ∃ p, ps[i]? = some p ∧ pick p = some b := by
  have := mem_spotsOf pick ps 0 i b
  rwa [Nat.zero_add] at this

theorem sorted_zipIdx_filterMap {α γ : Type} (l : List α) (index : Nat) (f : α → Option γ) :
    ((l.zipIdx index).filterMap fun e => (f e.1).map fun _ => e.2).Pairwise (· < ·) := by
  have hsub : ((l.zipIdx index).filterMap fun e => (f e.1).map fun _ => e.2).Sublist ((l.zipIdx index).map (·.2)) := by
    generalize l.zipIdx index = es
    induction es with
    | nil => exact List.Sublist.refl _
    | cons e es ih =>
      rw [List.filterMap_cons, List.map_cons]
      cases f e.1 with
      | none => exact ih.cons _
      | some c => exact ih.cons_cons _
  rw [List.zipIdx_map_snd] at hsub
  exact (List.pairwise_lt_range' (s := index) (n := l.length)).sublist hsub

/-- positions ascend -/
theorem sorted_spotsOf (pick : Placeholder A T → Option β) (index : Nat) (ps : List (Placeholder A T)) :
    ((spotsOf pick index ps).map (·.1)).Pairwise (· < ·) := by
  rw [spotsOf, List.map_filterMap]
  simp only [Option.map_map]
  exact sorted_zipIdx_filterMap ps index pick

theorem nodup_spotsOf (pick : Placeholder A T → Option β) (index : Nat) (ps : List (Placeholder A T)) :
    ((spotsOf pick index ps).map (·.1)).Nodup :=
  (sorted_spotsOf pick index ps).imp Nat.ne_of_lt

/-- in a list whose positions ascend, what is before an element has smaller positions, and all such is before it -/
theorem mem_before_iff {α : Type} {f : α → Nat} {pre post : List α} {a x : α}
    (h : ((pre ++ a :: post).map f).Pairwise (· < ·)) : x ∈ pre ↔ x ∈ pre ++ a :: post ∧ f x < f a := by
  rw [List.pairwise_map, List.pairwise_append, List.pairwise_cons] at h
  obtain ⟨-, ⟨hpost, -⟩, hpre⟩ := h
  rw [List.mem_append, List.mem_cons]
  refine ⟨fun hx => ⟨.inl hx, hpre x hx a List.mem_cons_self⟩, ?_⟩
  rintro ⟨hx | rfl | hx, hlt⟩
  · exact hx
  · exact absurd hlt (Nat.lt_irrefl _)
  · exact absurd hlt (Nat.lt_asymm (hpost x hx))

theorem mem_indicesOf {category : Category} {i : Nat} :
    i ∈ indicesOf ps category ↔ ∃ p, ps[i]? = some p ∧ p.category = category := by
  rw [indicesOf, List.mem_map]
  constructor
  · rintro ⟨⟨p, j⟩, hp, rfl⟩
    rw [List.mem_filter, List.mem_zipIdx_iff_getElem?] at hp
    exact ⟨p, hp.1, of_decide_eq_true hp.2⟩
  · rintro ⟨p, hp, hc⟩
    exact ⟨(p, i), List.mem_filter.2 ⟨List.mem_zipIdx_iff_getElem?.2 hp, decide_eq_true hc⟩, rfl⟩

theorem nodup_indicesOf (ps : List (Placeholder A T)) (category : Category) : (indicesOf ps category).Nodup := by
  have hsub : (indicesOf ps category).Sublist ((ps.zipIdx).map (·.2)) := List.filter_sublist.map _
  rw [List.zipIdx_map_snd] at hsub
  exact hsub.nodup List.nodup_range'

/-- what picks the placeholders of a category has their positions -/
theorem indices_spotsOf {category : Category} (h : ∀ p : Placeholder A T, (pick p).isSome = true ↔ p.category = category)
    (ps : List (Placeholder A T)) : (spotsOf pick 0 ps).map (·.1) = indicesOf ps category := by
  rw [spotsOf, indicesOf, List.map_filterMap]
  generalize ps.zipIdx = es
  induction es with
  | nil => rfl
  | cons e es ih =>
    cases hp : pick e.1 with
    | none =>
      have hc : ¬ e.1.category = category := fun hc => by
        rw [← h, hp] at hc
        cases hc
      rw [List.filterMap_cons, hp, List.filter_cons_of_neg (by simpa using hc)]
      exact ih
    | some b =>
      have hc : e.1.category = category := (h e.1).1 (by rw [hp]; rfl)
      rw [List.filterMap_cons, hp, List.filter_cons_of_pos (by simpa using hc), List.map_cons, ← ih]
      rfl

/-- the markers of a category among those of placeholders -/
theorem filter_markersFor (category : Category) (ps : List (Placeholder A T)) :
    (markersFor 0 ps).filter (·.category = category) = (indicesOf ps category).map (Marker.mk category) := by
  rw [indicesOf]
  generalize 0 = index
  induction ps generalizing index with
  | nil => rfl
  | cons p ps ih =>
    rw [markersFor, List.zipIdx_cons]
    by_cases hp : p.category = category
    · rw [List.filter_cons_of_pos (by simpa using hp), List.filter_cons_of_pos (by simpa using hp), ih, hp]
      rfl
    · rw [List.filter_cons_of_neg (by simpa using hp), List.filter_cons_of_neg (by simpa using hp), ih]

theorem mem_markersFor {index : Nat} {m : Marker} :
    m ∈ markersFor index ps ↔ ∃ p i, ps[i]? = some p ∧ m = ⟨p.category, index + i⟩ := by
  induction ps generalizing index with
  | nil => simp [markersFor]
  | cons p ps ih =>
    rw [markersFor, List.mem_cons, ih]
    constructor
    · rintro (rfl | ⟨q, i, hq, rfl⟩)
      · exact ⟨p, 0, rfl, rfl⟩
      · exact ⟨q, i + 1, hq, by rw [Nat.add_right_comm, Nat.add_assoc]⟩
    · rintro ⟨q, i, hq, rfl⟩
      cases i with
      | zero =>
        obtain rfl : p = q := Option.some.inj hq
        exact .inl rfl
      | succ i => exact .inr ⟨q, i, hq, by rw [Nat.add_right_comm, Nat.add_assoc]⟩

/-- the markers of placeholders are those of their categories at their indices -/
theorem mem_markersFor_zero {m : Marker} :
    m ∈ markersFor 0 ps ↔ ∃ p, ps[m.index]? = some p ∧ p.category = m.category := by
  rw [mem_markersFor]
  constructor
  · rintro ⟨p, i, hp, rfl⟩
    exact ⟨p, by rw [Nat.zero_add]; exact hp, rfl⟩
  · rintro ⟨p, hp, hc⟩
    exact ⟨p, m.index, hp, by rw [hc, Nat.zero_add]⟩

end

/-! ## Embedded templates -/

def Placeholder.part (props : Props) : Placeholder A (Template A) → Part
  | .text prop => .text (props.text prop)
  | .attribute prop name => .attribute name (props.text prop)
  | .child t bindings => .child (t.tree (childProps bindings props))
  | _ => .nothing

theorem partsOf_eq_map (props : Props) (ps : List (Placeholder A (Template A))) :
    partsOf props ps = ps.map (Placeholder.part props) := by
  induction ps with
  | nil => rfl
  | cons p ps ih => cases p <;> exact congrArg _ ih

namespace Template

variable {P : Template A → Prop}

theorem Everywhere.self {t : Template A} (h : t.Everywhere P) : P t := by
  obtain ⟨segments, placeholders, skeleton⟩ := t
  exact h.1

theorem EverywhereIn.child {ps : List (Placeholder A (Template A))} (h : EverywhereIn P ps) {t : Template A}
    {bindings : List Binding} (ht : .child t bindings ∈ ps) : t.Everywhere P := by
  induction ps with
  | nil => cases ht
  | cons p ps ih =>
    rcases List.mem_cons.1 ht with rfl | ht
    · exact h.1
    · refine ih ?_ ht
      cases p with
      | child => exact h.2
      | text => exact h
      | «attribute» => exact h
      | event => exact h
      | action => exact h
      | slot => exact h

/-- what holds everywhere in a template holds everywhere in what it embeds -/
theorem Everywhere.child {t u : Template A} {i : Nat} {bindings : List Binding} (h : t.Everywhere P)
    (hi : t.placeholders[i]? = some (.child u bindings)) : u.Everywhere P := by
  obtain ⟨segments, placeholders, skeleton⟩ := t
  exact h.2.child (List.mem_of_getElem? hi)

end Template

/-! ## Look-up -/

theorem lookup_of_mem {α γ : Type} [BEq α] [LawfulBEq α] {l : List (α × γ)} (hn : (l.map (·.1)).Nodup) {a : α} {b : γ}
    (h : (a, b) ∈ l) : l.lookup a = some b := by
  induction l with
  | nil => cases h
  | cons e l ih =>
    obtain ⟨c, d⟩ := e
    rw [List.map_cons, List.nodup_cons] at hn
    rw [List.lookup_cons]
    rcases List.mem_cons.1 h with he | h
    · cases he
      rw [beq_self_eq_true]
    · have hin : a ∈ l.map (·.1) := List.mem_map.2 ⟨(a, b), h, rfl⟩
      have hne : a ≠ c := fun e => hn.1 (e ▸ hin)
      rw [beq_false_of_ne hne]
      exact ih hn.2 h

theorem lookup_eq_none {α γ : Type} [BEq α] [LawfulBEq α] {l : List (α × γ)} {a : α} (h : a ∉ l.map (·.1)) :
    l.lookup a = none := by
  rw [List.lookup_eq_none_iff]
  rintro e he
  rw [bne_iff_ne, ne_eq]
  rintro rfl
  exact h (List.mem_map_of_mem he)

end LiveMarkup
