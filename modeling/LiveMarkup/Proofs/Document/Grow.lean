/-
New trees.

`Grows` says that a document has got one more tree and is otherwise the same. It holds whenever a tree with the ids from
the first fresh one on is added (`grows_of_tree`), whether that is a single node or a copy of markup, which reads back
as what was copied (`toMarkup_plantNode`).
-/
import LiveMarkup.Proofs.Document.Copy

namespace LiveMarkup.Document

open Forest

variable {L : Type} {d : Document L}

/-- nodes have come as one new tree; nothing else is different -/
structure Grows (d d' : Document L) : Prop where
  node : ∀ id, id < d.fresh → d'.node? id = d.node? id
  parent : ∀ id, id < d.fresh → d'.parent? id = d.parent? id
  children : ∀ id, id < d.fresh → d'.children id = d.children id
  root : d'.parent? d.fresh = none
  tree : ∀ id, d.fresh ≤ id → id < d'.fresh → d'.contains d.fresh id = true

mutual
/-- a copy reads back as what was copied -/
theorem toMarkup_plantNode : (n : Markup.Node) → (id : NodeId) → (plant.plantNode (L := L) n id).1.toMarkup = [n]
  | .element tag attributes children, id => by
    rw [plant.plantNode, tree, Forest.toMarkup, toMarkup_plant children]
    rfl
  | .text _, _ => rfl
  | .comment _, _ => rfl
theorem toMarkup_plant : (ns : List Markup.Node) → (id : NodeId) → (plant (L := L) ns id).1.toMarkup = ns
  | [], _ => rfl
  | n :: ns, id => by
    rw [plant, toMarkup_append, toMarkup_plantNode n, toMarkup_plant ns]
    rfl
end

/-! ## One more tree -/

section

variable {n : Node L} {cs : Forest (Node L)} {m id p c : NodeId} (hv : d.Valid)
  (hv' : Valid ⟨d.forest ++ tree n cs, m⟩) (hids : (tree n cs).ids = List.range' d.fresh (m - d.fresh))

theorem subtree_new : (n, cs) ∈ (d.forest ++ tree n cs).subtrees := by
  rw [subtrees_append]
  exact List.mem_append_right _ List.mem_cons_self

include hids in
theorem node?_old (hlt : id < d.fresh) : node? ⟨d.forest ++ tree n cs, m⟩ id = d.node? id := by
  have hout : id ∉ (tree n cs).ids := by
    rw [hids, List.mem_range'_1]
    exact fun hin => Nat.not_lt.2 hin.1 hlt
  have hnone : (tree n cs).labels.find? (isNode id) = none :=
    List.find?_eq_none.2 fun k hk => Bool.eq_false_iff.1 (isNode_of_not_mem hout k hk)
  rw [node?_eq_labels, node?_eq_labels, labels_append, List.find?_append, hnone, Option.or_none]

include hv hv' hids in
theorem children_old (hlt : id < d.fresh) : children ⟨d.forest ++ tree n cs, m⟩ id = d.children id := by
  have hnode := node?_old (m := m) hids hlt
  rw [Document.children, Document.children, Document.childForest, Document.childForest]
  cases hf : d.find? id with
  | none =>
    rw [node?, node?, hf, Option.map_none, Option.map_eq_none_iff] at hnode
    rw [hnode]
  | some t =>
    obtain ⟨k, ks⟩ := t
    obtain ⟨hk, hs, -⟩ := find?_subtree hv hf
    have hs' : (k, ks) ∈ (d.forest ++ tree n cs).subtrees := by
      rw [subtrees_append]
      exact List.mem_append_left _ hs
    rw [← hk, find?_of_subtree hv' hs']

include hv hv' in
/-- the children of a new node are in the new tree, below its root -/
theorem mem_of_child_new (hge : d.fresh ≤ p) (hc : c ∈ children ⟨d.forest ++ tree n cs, m⟩ p) : c ∈ cs.ids := by
  obtain ⟨k, ks, hs, rfl⟩ := exists_subtree_bare (mem_ids_of_parent? hv' ((mem_children_iff hv').1 hc)).1
  rw [Holds.children hv' hs] at hc
  rw [bare, map_append, subtrees_append, List.mem_append] at hs
  rcases hs with hs | hs
  · have hin : k.id ∈ d.forest.bare.ids := mem_ids_of_mem (mem_labels_of_subtree hs)
    rw [ids_bare] at hin
    exact absurd (hv.below hin) (Nat.not_lt.2 hge)
  · rw [← ids_bare]
    refine List.map_subset _ (fun x hx => ?_) hc
    rcases List.mem_cons.1 hs with he | hs
    · obtain ⟨-, rfl⟩ := Prod.mk.inj he
      exact roots_subset_labels _ hx
    · refine labels_subset_of_subtree (a := k) ?_ (roots_subset_labels ks hx)
      rcases List.mem_append.1 hs with hs | hs
      · exact hs
      · cases hs

include hids in
theorem below_new (hid : n.id = d.fresh) (hc : c ∈ cs.ids) : d.fresh < c := by
  have hnodup : (tree n cs).ids.Nodup := hids ▸ List.nodup_range'
  rw [ids_tree, List.nodup_cons, hid] at hnodup
  have hin : c ∈ (tree n cs).ids := by
    rw [ids_tree]
    exact List.mem_cons_of_mem _ hc
  rw [hids, List.mem_range'_1] at hin
  exact Nat.lt_of_le_of_ne hin.1 fun e => hnodup.1 (e ▸ hc)

include hv hv' hids in
/-- a document that has got a tree of the ids from the first fresh one on has grown by that tree -/
theorem grows_of_tree (hid : n.id = d.fresh) (hm : d.fresh ≤ m) :
    d.Grows ⟨d.forest ++ tree n cs, m⟩ ∧ treeOf ⟨d.forest ++ tree n cs, m⟩ d.fresh = tree n cs := by
  have hfind : Document.find? ⟨d.forest ++ tree n cs, m⟩ d.fresh = some (n, cs) := by
    rw [← hid]
    exact find?_of_subtree hv' subtree_new
  have hold : ∀ {p c}, c ∈ d.children p → p < d.fresh ∧ c < d.fresh := fun hc =>
    (mem_ids_of_parent? hv ((mem_children_iff hv).1 hc)).imp hv.below hv.below
  refine ⟨⟨fun id => node?_old hids, fun id hlt => parent?_ext hv hv' fun p => ?_, fun id => children_old hv hv' hids,
    parent?_eq_none_of_children hv' fun p hc => ?_, fun id hge hlt => ?_⟩, ?_⟩
  · rcases Nat.lt_or_ge p d.fresh with hp | hp
    · rw [children_old hv hv' hids hp]
    · refine iff_of_false (fun hc => ?_) fun hc => Nat.not_lt.2 hp (hold hc).1
      exact Nat.lt_asymm hlt (below_new hids hid (mem_of_child_new hv hv' hp hc))
  · rcases Nat.lt_or_ge p d.fresh with hp | hp
    · rw [children_old hv hv' hids hp] at hc
      exact Nat.lt_irrefl _ (hold hc).2
    · exact Nat.lt_irrefl _ (below_new hids hid (mem_of_child_new hv hv' hp hc))
  · have hin : id ∈ (tree n cs).ids := by
      rw [hids, List.mem_range'_1, Nat.add_sub_cancel' hm]
      exact ⟨hge, hlt⟩
    rw [ids_tree, List.mem_cons, hid] at hin
    rw [Document.contains, Document.childForest, hfind, Bool.or_eq_true, beq_iff_eq]
    refine hin.imp Eq.symm fun hin => ?_
    obtain ⟨k, hk, rfl⟩ := List.mem_map.1 hin
    exact List.any_eq_true.2 ⟨k, hk, isNode_iff.2 rfl⟩
  · rw [treeOf, hfind]

end

end LiveMarkup.Document
