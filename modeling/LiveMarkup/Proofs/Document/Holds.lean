/-
What a document holds, apart from listeners and the order of its roots.

`Holds d f` says that the document's trees, without their listeners, are those of `f` in some order, that ids are
distinct, and that fresh ids are unused. Looking something up in the document is then looking it up in `f`, and every
change of the document is a change of `f`:

- `Holds.updateAttributes`, `Holds.setData`: one node changes and nothing else;
- `Holds.replaceWith`: a root takes the place of a node;
- `Holds.insertFragment`: what a fragment holds goes before an anchor, in order;
- `Holds.discard`: a node is taken out.

Trees that a change leaves behind are only said to be there.
-/
import Mathlib.Data.List.Pairwise
import LiveMarkup.Document.Edit
import LiveMarkup.Document.Print
import LiveMarkup.Proofs.Document.Forest

namespace LiveMarkup

variable {L : Type}

abbrev Bare := Node Empty

def Node.bare (n : Node L) : Bare := ⟨n.id, n.kind, [], 0⟩

namespace Forest

def ids (f : Forest (Node L)) : List NodeId := f.labels.map (·.id)

def bare (f : Forest (Node L)) : Forest Bare := f.map Node.bare

@[simp] theorem ids_nil : (nil : Forest (Node L)).ids = [] := rfl

@[simp] theorem ids_cons (n : Node L) (cs rest : Forest (Node L)) :
    (cons n cs rest).ids = n.id :: (cs.ids ++ rest.ids) := by
  simp [ids, labels]

@[simp] theorem ids_append (f g : Forest (Node L)) : (f ++ g).ids = f.ids ++ g.ids := by simp [ids]

@[simp] theorem ids_tree (n : Node L) (cs : Forest (Node L)) : (tree n cs).ids = n.id :: cs.ids := by simp [ids]

theorem ids_bare (f : Forest (Node L)) : f.bare.ids = f.ids := by
  rw [ids, bare, labels_map, List.map_map]
  rfl

theorem mem_ids_of_mem {n : Node L} {f : Forest (Node L)} (h : n ∈ f.labels) : n.id ∈ f.ids := List.mem_map_of_mem h

/-- puts `x` in the place of the node with this id -/
def replace (f : Forest Bare) (id : NodeId) (x : Forest Bare) : Forest Bare :=
  f.fill fun n => if Document.isNode id n then some x else none

/-- what `anchor` names -/
def isAnchor (anchor : Option NodeId) (n : Node L) : Bool := anchor.any (Document.isNode · n)

end Forest

namespace Document

open Forest

theorem isNode_iff {id : NodeId} {n : Node L} : isNode id n = true ↔ n.id = id := by simp [isNode]

theorem isNode_eq_false_iff {id : NodeId} {n : Node L} : isNode id n = false ↔ n.id ≠ id := by
  rw [Bool.eq_false_iff, ne_eq, isNode_iff]

theorem count_isNode (id : NodeId) (f : Forest (Node L)) : Forest.count (isNode id) f = f.ids.count id := by
  rw [Forest.count, ids, List.count, List.countP_map]
  rfl

theorem count_isNode_of_mem {id : NodeId} {f : Forest (Node L)} (hn : f.ids.Nodup) (h : id ∈ f.ids) :
    Forest.count (isNode id) f = 1 := by
  rw [count_isNode, List.count_eq_one_of_mem hn h]

theorem count_isNode_of_not_mem {id : NodeId} {f : Forest (Node L)} (h : id ∉ f.ids) :
    Forest.count (isNode id) f = 0 := by
  rw [count_isNode, List.count_eq_zero_of_not_mem h]

theorem isNode_of_not_mem {id : NodeId} {f : Forest (Node L)} (h : id ∉ f.ids) :
    ∀ n ∈ f.labels, isNode id n = false :=
  fun _ hn => isNode_eq_false_iff.2 fun e => h (e ▸ mem_ids_of_mem hn)

/-- the document's trees are those of `f` in some order, with distinct ids below the first fresh one -/
structure Holds (d : Document L) (f : Forest Bare) : Prop where
  same : d.forest.bare.Same f
  nodup : f.ids.Nodup
  below : ∀ id ∈ f.ids, id < d.fresh

/-- a document whose ids are distinct and below the first fresh one -/
def Valid (d : Document L) : Prop := d.Holds d.forest.bare

variable {d : Document L} {f g : Forest Bare}

theorem Holds.of_same (h : d.Holds f) (s : f.Same g) : d.Holds g := by
  have hp : f.ids.Perm g.ids := s.labels.map _
  exact ⟨h.same.trans s, hp.nodup_iff.1 h.nodup, fun id hid => h.below id (hp.mem_iff.2 hid)⟩

theorem Holds.valid (h : d.Holds f) : d.Valid := h.of_same h.same.symm

/-- a changed document holds a changed forest if no ids came in -/
theorem Holds.of_perm {d' : Document L} (h : d.Holds f) (s : d'.forest.bare.Same g) (hp : f.ids.Perm g.ids)
    (hf : d.fresh ≤ d'.fresh) : d'.Holds g :=
  ⟨s, hp.nodup_iff.1 h.nodup, fun id hid => Nat.lt_of_lt_of_le (h.below id (hp.mem_iff.2 hid)) hf⟩

/-! ## Looking -/

theorem find?_of_unique {α : Type} {l : List α} {p : α → Bool} {x : α} (hx : x ∈ l) (hp : p x = true)
    (hu : ∀ y ∈ l, p y = true → y = x) : l.find? p = some x := by
  cases hf : l.find? p with
  | none => exact absurd hp (List.find?_eq_none.1 hf x hx)
  | some y => rw [hu y (List.mem_of_find?_eq_some hf) (List.find?_some hf)]

/-- two subtrees with the same id are the same -/
theorem subtree_unique (hn : f.ids.Nodup) {s t : Bare × Forest Bare} (hs : s ∈ f.subtrees) (ht : t ∈ f.subtrees)
    (h : s.1.id = t.1.id) : s = t := by
  rw [ids, labels_eq_subtrees, List.map_map] at hn
  exact List.inj_on_of_nodup_map hn hs ht h

/-- a node is the child of one node -/
theorem parent_unique (hn : f.ids.Nodup) {s t : Bare × Forest Bare} (hs : s ∈ f.subtrees) (ht : t ∈ f.subtrees)
    {id : NodeId} (hs' : s.2.roots.any (isNode id) = true) (ht' : t.2.roots.any (isNode id) = true) : s = t := by
  have hchildren : ((f.subtrees.flatMap (·.2.roots)).map Node.id).Nodup := by
    have := ((labels_perm_children f).map Node.id).nodup_iff.1 hn
    rw [List.map_append] at this
    exact (List.nodup_append.1 this).2.1
  rw [List.map_flatMap] at hchildren
  by_contra hne
  have : Std.Symm (Function.onFun List.Disjoint fun t : Bare × Forest Bare => t.2.roots.map Node.id) :=
    ⟨fun _ _ h => List.Disjoint.symm h⟩
  have hdisjoint := (List.nodup_flatMap.1 hchildren).2.forall hs ht hne
  have hmem : ∀ {t : Bare × Forest Bare}, t.2.roots.any (isNode id) = true → id ∈ t.2.roots.map Node.id := by
    intro t ht
    obtain ⟨n, hn, hp⟩ := List.any_eq_true.1 ht
    exact isNode_iff.1 hp ▸ List.mem_map_of_mem hn
  exact hdisjoint (hmem hs') (hmem ht')

theorem Holds.find?_none (h : d.Holds f) {id : NodeId} (hid : id ∉ f.ids) : d.find? id = none := by
  rw [Document.find?, find?_eq_subtrees, List.find?_eq_none]
  intro t ht hp
  refine hid ((h.same.labels.map Node.id).mem_iff.1 ?_)
  rw [← ids, ids_bare]
  exact isNode_iff.1 hp ▸ mem_ids_of_mem (mem_labels_of_subtree ht)

/-- a subtree is found by its id -/
theorem Holds.find?_some (h : d.Holds f) {n : Bare} {cs : Forest Bare} (hs : (n, cs) ∈ f.subtrees) :
    ∃ m ms, d.find? n.id = some (m, ms) ∧ m.bare = n ∧ ms.bare = cs := by
  have hs' := h.same.subtrees.mem_iff.2 hs
  rw [bare, subtrees_map] at hs'
  obtain ⟨⟨m, ms⟩, hm, he⟩ := List.mem_map.1 hs'
  cases he
  refine ⟨m, ms, ?_, rfl, rfl⟩
  rw [Document.find?, find?_eq_subtrees]
  refine find?_of_unique hm (isNode_iff.2 rfl) fun t ht hp => ?_
  have hn : (d.forest.subtrees.map (·.1.id)).Nodup := by
    have := (h.same.labels.map Node.id).nodup_iff.2 h.nodup
    rwa [← ids, ids_bare, ids, labels_eq_subtrees, List.map_map] at this
  exact List.inj_on_of_nodup_map hn ht hm (isNode_iff.1 hp)

theorem Holds.find?_isSome (h : d.Holds f) {id : NodeId} (hid : id ∈ f.ids) : ∃ m ms, d.find? id = some (m, ms) := by
  rw [ids, labels_eq_subtrees, List.map_map] at hid
  obtain ⟨⟨n, cs⟩, hs, rfl⟩ := List.mem_map.1 hid
  obtain ⟨m, ms, hm, -⟩ := h.find?_some hs
  exact ⟨m, ms, hm⟩

theorem Holds.mem_ids_of_find? (h : d.Holds f) {id : NodeId} (hid : d.find? id ≠ none) : id ∈ f.ids := by
  by_contra hno
  exact hid (h.find?_none hno)

section

variable {n : Bare} {cs : Forest Bare}

theorem Holds.kind? (h : d.Holds f) (hs : (n, cs) ∈ f.subtrees) : d.kind? n.id = some n.kind := by
  obtain ⟨m, ms, hm, rfl, -⟩ := h.find?_some hs
  rw [Document.kind?, hm]
  rfl

theorem Holds.childForest (h : d.Holds f) (hs : (n, cs) ∈ f.subtrees) : (d.childForest n.id).bare = cs := by
  obtain ⟨m, ms, hm, -, rfl⟩ := h.find?_some hs
  rw [Document.childForest, hm]
  rfl

theorem Holds.children (h : d.Holds f) (hs : (n, cs) ∈ f.subtrees) : d.children n.id = cs.roots.map Node.id := by
  rw [Document.children, ← h.childForest hs, bare, roots_map, List.map_map]
  rfl

theorem Holds.tag? (h : d.Holds f) (hs : (n, cs) ∈ f.subtrees) : d.tag? n.id = n.kind.tag? := by
  rw [Document.tag?, h.kind? hs]
  rfl

theorem Holds.isFragment (h : d.Holds f) (hs : (n, cs) ∈ f.subtrees) : d.isFragment n.id = n.kind.isFragment := by
  rw [Document.isFragment, h.kind? hs]
  rfl

theorem Holds.contains (h : d.Holds f) (hs : (n, cs) ∈ f.subtrees) {id : NodeId} (hid : id ∉ (tree n cs).ids) :
    d.contains n.id id = false := by
  rw [ids_tree, List.mem_cons, not_or] at hid
  have hbelow : (d.childForest n.id).labels.any (isNode id) = false := by
    rw [List.any_eq_false]
    intro m hm
    refine Bool.eq_false_iff.1 (isNode_eq_false_iff.2 fun e => hid.2 ?_)
    rw [← h.childForest hs, ids_bare]
    exact e ▸ mem_ids_of_mem hm
  rw [Document.contains, hbelow, Bool.or_false, beq_eq_false_iff_ne]
  exact fun e => hid.1 e.symm

/-- a node contains what is below it -/
theorem Holds.contains_of_mem (h : d.Holds f) (hs : (n, cs) ∈ f.subtrees) {id : NodeId} (hid : id ∈ (tree n cs).ids) :
    d.contains n.id id = true := by
  rw [Document.contains, Bool.or_eq_true, beq_iff_eq]
  rw [ids_tree, List.mem_cons] at hid
  refine hid.imp Eq.symm fun hid => ?_
  rw [← h.childForest hs, ids_bare] at hid
  obtain ⟨m, hm, rfl⟩ := List.mem_map.1 hid
  exact List.any_eq_true.2 ⟨m, hm, isNode_iff.2 rfl⟩

theorem any_isNode_bare (id : NodeId) (g : Forest (Node L)) : g.bare.roots.any (isNode id) = g.roots.any (isNode id) := by
  rw [bare, roots_map, List.any_map]
  rfl

theorem Holds.parent? (h : d.Holds f) (hs : (n, cs) ∈ f.subtrees) {id : NodeId}
    (hid : cs.roots.any (isNode id) = true) : d.parent? id = some n.id := by
  have hs' := h.same.subtrees.mem_iff.2 hs
  rw [bare, subtrees_map] at hs'
  obtain ⟨⟨m, ms⟩, hm, he⟩ := List.mem_map.1 hs'
  cases he
  have hn : d.forest.bare.ids.Nodup := (h.same.labels.map Node.id).nodup_iff.2 h.nodup
  have hms : ms.roots.any (isNode id) = true := (any_isNode_bare id ms).symm.trans hid
  obtain ⟨x, hx⟩ : ∃ x, d.forest.subtrees.find? (·.2.roots.any (isNode id)) = some x := by
    refine Option.ne_none_iff_exists'.1 fun hnone => ?_
    exact List.find?_eq_none.1 hnone _ hm hms
  have hx1 := List.mem_of_find?_eq_some hx
  have hx2 := List.find?_some hx
  have hbare : ∀ t ∈ d.forest.subtrees, (t.1.bare, t.2.bare) ∈ d.forest.bare.subtrees := by
    intro t ht
    rw [bare, subtrees_map]
    exact List.mem_map_of_mem (f := fun t => (Node.bare t.1, t.2.map Node.bare)) ht
  have he := parent_unique hn (hbare _ hx1) (hbare _ hm) ((any_isNode_bare id x.2).trans hx2)
    ((any_isNode_bare id ms).trans hms)
  have hid : x.1.id = m.id := congrArg (fun t : Bare × Forest Bare => t.1.id) he
  rw [Document.parent?, parentOf?_eq_subtrees, hx]
  exact congrArg some hid

theorem Holds.parent?_eq_none (h : d.Holds f) {id : NodeId}
    (hid : ∀ t ∈ f.subtrees, t.2.roots.any (isNode id) = false) : d.parent? id = none := by
  have hnone : d.forest.subtrees.find? (·.2.roots.any (isNode id)) = none := by
    refine List.find?_eq_none.2 fun t ht => Bool.eq_false_iff.1 ?_
    have hb : (t.1.bare, t.2.bare) ∈ d.forest.bare.subtrees := by
      rw [bare, subtrees_map]
      exact List.mem_map_of_mem (f := fun t => (Node.bare t.1, t.2.map Node.bare)) ht
    rw [← any_isNode_bare]
    exact hid _ (h.same.subtrees.mem_iff.1 hb)
  rw [Document.parent?, parentOf?_eq_subtrees, hnone]
  rfl

/-- a parent is above its child -/
theorem Holds.parent?_eq_some (h : d.Holds f) {id p : NodeId} (hp : d.parent? id = some p) :
    ∃ t ∈ f.subtrees, t.1.id = p ∧ t.2.roots.any (isNode id) = true := by
  by_contra hno
  push Not at hno
  by_cases hany : ∃ t ∈ f.subtrees, t.2.roots.any (isNode id) = true
  · obtain ⟨t, ht, hid⟩ := hany
    exact hno t ht (Option.some.inj ((h.parent? ht hid).symm.trans hp)) hid
  · push Not at hany
    rw [h.parent?_eq_none fun t ht => Bool.eq_false_iff.2 (hany t ht)] at hp
    cases hp

/-- nothing is found if nothing passes the test; otherwise something that does -/
theorem Holds.firstBelow?_cases (h : d.Holds f) (hs : (n, cs) ∈ f.subtrees) {test : Node L → Bool}
    {test' : Bare → Bool} (ht : ∀ m, test' m.bare = test m) :
    (d.firstBelow? n.id test = none ∧ ∀ m ∈ cs.labels, test' m = false) ∨
      ∃ m ∈ cs.labels, test' m = true ∧ d.firstBelow? n.id test = some m.id := by
  have hcs : cs.labels = (d.childForest n.id).labels.map Node.bare := by
    rw [← h.childForest hs, bare, labels_map]
  rw [Document.firstBelow?]
  cases hf : (d.childForest n.id).labels.find? test with
  | none =>
    refine .inl ⟨rfl, fun m hm => ?_⟩
    rw [hcs] at hm
    obtain ⟨k, hk, rfl⟩ := List.mem_map.1 hm
    rw [ht]
    exact Bool.eq_false_iff.2 (List.find?_eq_none.1 hf k hk)
  | some x =>
    refine .inr ⟨x.bare, ?_, (ht x).trans (List.find?_some hf), rfl⟩
    rw [hcs]
    exact List.mem_map_of_mem (List.mem_of_find?_eq_some hf)

end

end Document

end LiveMarkup
