/-
Edits: what an update does to a document.

An update changes nodes where they are, one after another. So what it does to one part of a document depends on the
edits of nodes in that part alone, and what is where stays as it was.

- `editAll_of_not_mem`: a part without edited nodes stays as it is;
- `subtree_editAll`: an edited tree is where the tree was.
-/
import LiveMarkup.Proofs.Document.Change

namespace LiveMarkup

open Forest

/-- a change of one node that leaves its tag alone -/
structure Edit where
  id : NodeId
  change : Kind → Kind
  tag : ∀ kind, (change kind).tag? = kind.tag?

namespace Edit

def data (id : NodeId) (text : String) : Edit := ⟨id, Kind.withData text, Kind.tag?_withData text⟩

def «attribute» (id : NodeId) (name text : String) : Edit :=
  ⟨id, Kind.mapAttributes (Entries.set name text), Kind.tag?_mapAttributes _⟩

/-- the forest with the node changed -/
def run (f : Forest Bare) (e : Edit) : Forest Bare := f.update (Document.isNode e.id) (Node.mapKind e.change)

end Edit

namespace Forest

/-- the forest after these edits, in order -/
def editAll (es : List Edit) (f : Forest Bare) : Forest Bare := es.foldl Edit.run f

variable {es : List Edit} {f g : Forest Bare}

theorem editAll_cons (e : Edit) (es : List Edit) (f : Forest Bare) : f.editAll (e :: es) = (e.run f).editAll es := rfl

theorem editAll_editAll (es es' : List Edit) (f : Forest Bare) : (f.editAll es).editAll es' = f.editAll (es ++ es') :=
  List.foldl_append.symm

theorem ids_editAll (es : List Edit) (f : Forest Bare) : (f.editAll es).ids = f.ids := by
  induction es generalizing f with
  | nil => rfl
  | cons e es ih => rw [editAll_cons, ih, Edit.run, ids_update (Node.id_mapKind e.change)]

/-- an edit changes nothing where its node is not -/
theorem run_of_not_mem {e : Edit} (h : e.id ∉ f.ids) : e.run f = f := update_of_none (Document.isNode_of_not_mem h) _

/-- edits change nothing where their nodes are not -/
theorem editAll_of_not_mem (h : ∀ e ∈ es, e.id ∉ f.ids) : f.editAll es = f := by
  induction es with
  | nil => rfl
  | cons e es ih =>
    rw [List.forall_mem_cons] at h
    rw [editAll_cons, run_of_not_mem h.1, ih h.2]

theorem editAll_append (es : List Edit) (f g : Forest Bare) : (f ++ g).editAll es = f.editAll es ++ g.editAll es := by
  induction es generalizing f g with
  | nil => rfl
  | cons e es ih => rw [editAll_cons, Edit.run, update_append, ih]; rfl

theorem editAll_nil_forest (es : List Edit) : (nil : Forest Bare).editAll es = nil :=
  editAll_of_not_mem fun _ _ => List.not_mem_nil

/-- edits below a root -/
theorem editAll_tree {n : Bare} (h : ∀ e ∈ es, e.id ≠ n.id) (cs : Forest Bare) :
    (tree n cs).editAll es = tree n (cs.editAll es) := by
  induction es generalizing cs with
  | nil => rfl
  | cons e es ih =>
    rw [List.forall_mem_cons] at h
    have hne : Document.isNode e.id n = false := Document.isNode_eq_false_iff.2 h.1.symm
    have hstep : e.run (tree n cs) = tree n (e.run cs) := by
      rw [Edit.run, tree, update, hne]
      rfl
    rw [editAll_cons, hstep, ih h.2, editAll_cons]

theorem subtree_run {n : Bare} {cs : Forest Bare} (h : (n, cs) ∈ f.subtrees) (e : Edit) :
    ∃ n', n'.id = n.id ∧ n'.kind.tag? = n.kind.tag? ∧ (n', e.run cs) ∈ (e.run f).subtrees := by
  induction f with
  | nil => cases h
  | cons a as rest ihc ihr =>
    rw [subtrees, List.mem_cons, List.mem_append] at h
    rw [Edit.run, update, subtrees]
    rcases h with h | h | h
    · obtain ⟨rfl, rfl⟩ := Prod.mk.inj h
      refine ⟨_, ?_, ?_, List.mem_cons_self⟩
      · split <;> rfl
      · split
        · exact e.tag _
        · rfl
    · obtain ⟨n', hid, ht, hin⟩ := ihc h
      exact ⟨n', hid, ht, List.mem_cons_of_mem _ (List.mem_append_left _ hin)⟩
    · obtain ⟨n', hid, ht, hin⟩ := ihr h
      exact ⟨n', hid, ht, List.mem_cons_of_mem _ (List.mem_append_right _ hin)⟩

/-- an edited tree is where the tree was -/
theorem subtree_editAll {n : Bare} {cs : Forest Bare} (h : (n, cs) ∈ f.subtrees) (es : List Edit) :
    ∃ n', n'.id = n.id ∧ n'.kind.tag? = n.kind.tag? ∧ (n', cs.editAll es) ∈ (f.editAll es).subtrees := by
  induction es generalizing f n cs with
  | nil => exact ⟨n, rfl, rfl, h⟩
  | cons e es ih =>
    obtain ⟨m, hid, ht, hin⟩ := subtree_run h e
    obtain ⟨n', hid', ht', hin'⟩ := ih hin
    exact ⟨n', hid'.trans hid, ht'.trans ht, hin'⟩

theorem roots_run (e : Edit) (f : Forest Bare) : (e.run f).roots.map Node.id = f.roots.map Node.id := by
  induction f with
  | nil => rfl
  | cons a cs rest _ ih =>
    rw [Edit.run] at ih ⊢
    rw [update, roots, roots, List.map_cons, List.map_cons, ih]
    split <;> rfl

/-- edited roots are the same nodes -/
theorem roots_editAll (es : List Edit) (f : Forest Bare) : (f.editAll es).roots.map Node.id = f.roots.map Node.id := by
  induction es generalizing f with
  | nil => rfl
  | cons e es ih => rw [editAll_cons, ih, roots_run]

end Forest

end LiveMarkup
