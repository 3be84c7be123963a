/-
Two ways to rename an attribute.

A backend renames an attribute in its place, or it takes it off and sets the new one. Where the old name stands at most
once, look-ups cannot tell the results apart; the lists differ in order, and in how often the new name stands in them.

- `get?_rename_once`, `get?_erase_set`: what is looked up after either;
- `rename_in_place`: the first way leaves the new name once, where the old one was among the attributes that remain.

`Tidy` is the condition for the names that components rename: the markers of attribute placeholders. All that is done to
attributes keeps it.
-/
import LiveMarkup.Proofs.Template.Attributes

namespace LiveMarkup

open Markup

namespace Entries

variable {α : Type} {es : Entries α} {source target name : String} {value : α}

theorem count_names_erase (es : Entries α) (name n : String) :
    (es.erase name).names.count n = if n = name then 0 else es.names.count n := by
  induction es with
  | nil => simp [erase, names]
  | cons e es ih =>
    obtain ⟨k, v⟩ := e
    rw [erase] at ih ⊢
    by_cases hk : k = name <;> by_cases hn : n = name <;> simp_all [names_cons, List.count_cons]
    rintro rfl
    contradiction

theorem count_names_set_le (es : Entries α) (name : String) (value : α) (n : String) :
    (es.set name value).names.count n ≤ max 1 (es.names.count n) := by
  rw [names_set]
  split
  · exact Nat.le_max_right _ _
  · next hname =>
    rw [List.count_append]
    by_cases hn : n = name
    · subst hn
      simp [List.count_eq_zero.2 hname]
    · have hnone : [name].count n = 0 := List.count_eq_zero.2 fun h => hn (List.mem_singleton.1 h)
      rw [hnone]
      exact Nat.le_max_right _ _

/-- a name that stands once stands nowhere around its entry -/
theorem not_mem_around {before after : Entries α} {v : α}
    (h : (before ++ (name, v) :: after).names.count name ≤ 1) : name ∉ before.names ∧ name ∉ after.names := by
  rw [names_append, names_cons, List.count_append, List.count_cons_self] at h
  rw [← List.count_eq_zero, ← List.count_eq_zero]
  omega

/-- a renamed attribute stands where it stood among the others, and nowhere else -/
theorem rename_in_place {before after : Entries α} {v : α}
    (h : (before ++ (source, v) :: after).names.count source ≤ 1) (target : String) (value : α) :
    rename source target value (before ++ (source, v) :: after) =
        before.erase target ++ (target, value) :: after.erase target ∧
      (rename source target value (before ++ (source, v) :: after)).names.count target = 1 := by
  have hfirst : ∀ e ∈ before, decide (e.1 ≠ source) = true := fun e he =>
    decide_eq_true fun hsame => (not_mem_around h).1 (hsame ▸ List.mem_map_of_mem he)
  have hrename : rename source target value (before ++ (source, v) :: after) =
      before.erase target ++ (target, value) :: after.erase target := by
    rw [rename, List.dropWhile_append_of_pos hfirst, List.takeWhile_append_of_pos hfirst]
    simp
  refine ⟨hrename, ?_⟩
  rw [hrename, names_append, names_cons, List.count_append, List.count_cons_self, count_names_erase, count_names_erase,
    if_pos rfl, if_pos rfl]

/-- after `rename`, the new name has the value, and every other name but the old one what it had -/
theorem get?_rename (es : Entries α) {source target : String} (value : α) {n : String} (hn : n ≠ source) :
    get? (es.rename source target value) n = if n = target then some value else get? es n := by
  by_cases hs : source ∈ es.names
  · obtain ⟨pre, v, post, rfl, -, hr⟩ := exists_split hs
    rw [hr, get?_append, get?_cons, get?_erase, get?_erase, get?_append, get?_cons, if_neg (Ne.symm hn)]
    by_cases ht : n = target
    · rw [if_pos ht, if_pos ht.symm, if_pos ht]
      rfl
    · rw [if_neg ht, if_neg (Ne.symm ht), if_neg ht, if_neg ht]
  · rw [rename_of_not_mem hs]
    exact get?_set es target value n

/-- an old name that stood at most once is gone -/
theorem get?_rename_once (h : es.names.count source ≤ 1) (target : String) (value : α) (n : String) :
    (es.rename source target value).get? n =
      if n = target then some value else if n = source then none else es.get? n := by
  by_cases hn : n = source
  · subst hn
    by_cases hs : n ∈ es.names
    · obtain ⟨before, v, after, rfl, -⟩ := exists_split hs
      obtain ⟨hbefore, hafter⟩ := not_mem_around h
      rw [(rename_in_place h target value).1, get?_append, get?_cons, get?_erase, get?_erase]
      by_cases ht : n = target
      · simp [ht]
      · simp [ht, Ne.symm ht, get?_eq_none_iff.2 hbefore, get?_eq_none_iff.2 hafter]
    · rw [rename_of_not_mem hs, get?_set, get?_eq_none_iff.2 hs, if_pos rfl]
  · rw [get?_rename es value hn, if_neg hn]

/-- what is looked up after an attribute has been taken off and another one set -/
theorem get?_erase_set (es : Entries α) (source target : String) (value : α) (n : String) :
    ((es.erase source).set target value).get? n =
      if n = target then some value else if n = source then none else es.get? n := by
  rw [get?_set, get?_erase]

end Entries

/-! ## Markers stand once -/

/-- the marker of each attribute placeholder is on the element at most once -/
def Tidy (attributes : Attributes) : Prop :=
  ∀ index < Marker.indexLimit, (Entries.names attributes).count (Marker.name ⟨.attribute, index⟩) ≤ 1

namespace Tidy

variable {attributes : Attributes}

theorem nil : Tidy [] := fun _ _ => Nat.zero_le _

theorem set (h : Tidy attributes) (name value : String) : Tidy (Entries.set name value attributes) := by
  intro index hlt
  have hle := Entries.count_names_set_le attributes name value (Marker.name ⟨.attribute, index⟩)
  have := h index hlt
  omega

theorem erase (h : Tidy attributes) (name : String) : Tidy (Entries.erase name attributes) := by
  intro index hlt
  rw [Entries.count_names_erase]
  split
  · exact Nat.zero_le _
  · exact h index hlt

theorem rename (h : Tidy attributes) (source target value : String) :
    Tidy (Entries.rename source target value attributes) := by
  by_cases hs : source ∈ Entries.names attributes
  · obtain ⟨before, v, after, rfl, -, hrename⟩ := Entries.exists_split hs
    intro index hlt
    have hindex := h index hlt
    rw [hrename]
    rw [Entries.names_append, Entries.names_cons, List.count_append, List.count_cons] at hindex ⊢
    rw [Entries.count_names_erase, Entries.count_names_erase]
    by_cases ht : Marker.name ⟨.attribute, index⟩ = target
    · simp [ht]
    · rw [if_neg ht, if_neg ht]
      have hne : ¬(target == Marker.name ⟨.attribute, index⟩) = true := fun e => ht (beq_iff_eq.1 e).symm
      simp only [hne, Bool.false_eq_true, if_false]
      omega
  · rw [Entries.rename_of_not_mem hs]
    exact h.set target value

end Tidy

end LiveMarkup
