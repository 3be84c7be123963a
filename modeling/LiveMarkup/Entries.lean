/-
Named entries in order.

`set` overwrites the first entry of a name in its place and appends a new name, `erase` drops every entry of a name,
and `rename` puts one name in the place of another.
Names may repeat (attributes as they are read); `names_set` shows that `set` adds a name only if it is new, so a table
built by `set` alone has distinct names.
-/
namespace LiveMarkup

/-- entries in order; look-up finds the first one of a name -/
abbrev Entries (α : Type) := List (String × α)

namespace Entries

variable {α : Type}

def names (es : Entries α) : List String := es.map (·.1)

def get? (es : Entries α) (name : String) : Option α := (es.find? (·.1 == name)).map (·.2)

/-- overwrites the first entry of this name in its place, or appends one -/
def set (name : String) (value : α) : Entries α → Entries α
  | [] => [(name, value)]
  | (n, v) :: es => if n = name then (n, value) :: es else (n, v) :: set name value es

/-- drops every entry of this name -/
def erase (name : String) (es : Entries α) : Entries α := es.filter (·.1 ≠ name)

/-- replaces the first entry of `source` by one of `target`, in its place and as the only one; without such an entry,
`target` is set -/
def rename (source target : String) (value : α) (es : Entries α) : Entries α :=
  match es.dropWhile (·.1 ≠ source) with
  | [] => es.set target value
  | _ :: after => erase target (es.takeWhile (·.1 ≠ source)) ++ (target, value) :: erase target after

@[simp] theorem get?_nil (name : String) : get? ([] : Entries α) name = none := rfl

theorem get?_cons (n : String) (v : α) (es : Entries α) (name : String) :
    get? ((n, v) :: es) name = if n = name then some v else get? es name := by
  by_cases h : n = name <;> simp [get?, h]

/-- after `set`, the name has the new value and every other name what it had -/
theorem get?_set (es : Entries α) (name : String) (value : α) (n : String) :
    get? (es.set name value) n = if n = name then some value else get? es n := by
  induction es with
  | nil => simp [set, get?_cons, eq_comm]
  | cons e es ih =>
    obtain ⟨m, v⟩ := e
    by_cases h : m = name
    · by_cases hn : n = name <;> simp_all [set, get?_cons, eq_comm]
    · by_cases hn : m = n
      · subst hn; simp [set, get?_cons, h]
      · simp [set, get?_cons, h, hn, ih]

/-- after `erase`, the name is absent and every other name has what it had -/
theorem get?_erase (es : Entries α) (name n : String) :
    get? (es.erase name) n = if n = name then none else get? es n := by
  induction es with
  | nil => simp [erase]
  | cons e es ih =>
    obtain ⟨m, v⟩ := e
    rw [erase] at ih ⊢
    by_cases h : m = name <;> by_cases hn : n = name <;> by_cases hm : m = n <;>
      simp_all [get?_cons]

/-- `set` keeps the names and adds a new one at the end -/
theorem names_set (es : Entries α) (name : String) (value : α) :
    (es.set name value).names = if name ∈ es.names then es.names else es.names ++ [name] := by
  induction es with
  | nil => simp [set, names]
  | cons e es ih =>
    obtain ⟨m, v⟩ := e
    by_cases h : m = name
    · simp [set, names, h]
    · simp only [set, h, if_false, names, List.map_cons, List.mem_cons, eq_comm (a := name), false_or] at ih ⊢
      rw [ih]
      by_cases hn : name ∈ es.map (·.1) <;> simp [hn]

theorem nodup_names_set {es : Entries α} (h : es.names.Nodup) (name : String) (value : α) :
    (es.set name value).names.Nodup := by
  rw [names_set]
  split
  · exact h
  · next hn =>
    refine List.nodup_append.mpr ⟨h, by simp, ?_⟩
    intro a ha b hb hab
    simp only [List.mem_singleton] at hb
    exact hn (hb ▸ hab ▸ ha)

end Entries

end LiveMarkup
