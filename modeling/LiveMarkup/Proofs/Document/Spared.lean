/-
Trees of a document that nothing is done to.

A tree stands in a document by itself if its root is nobody's child. Every change of the document leaves it as it is, with
all that is in its nodes, if the nodes that the change names are not in the tree; and what is found from a node outside of
the tree, below it or above it, is outside of it as well.

- `Spared.insertBefore`, `Spared.detach`, `Spared.discard`, `Spared.perform`, `Spared.addFragment`: one lemma for each
  change;
- `Spared.parent?`, `Spared.children`: what is found from outside.
-/
import LiveMarkup.Proofs.Document.Writes

namespace LiveMarkup

open Forest

variable {L : Type}

namespace Forest

variable {α : Type} {f : Forest α} {t : α × Forest α}

/-- a tree of a forest stands between others -/
theorem exists_append_of_tree (h : t ∈ f.trees) : ∃ g k, f = g ++ (tree t.1 t.2 ++ k) := by
  induction f with
  | nil => cases h
  | cons a cs rest _ ih =>
    rcases List.mem_cons.1 h with rfl | h
    · exact ⟨nil, rest, rfl⟩
    · obtain ⟨g, k, rfl⟩ := ih h
      exact ⟨tree a cs ++ g, k, rfl⟩

/-- what is done to a forest tree by tree leaves the trees that it does nothing to -/
theorem mem_trees_of_append {op : Forest α → Forest α} (happend : ∀ f g, op (f ++ g) = op f ++ op g)
    (hself : op (tree t.1 t.2) = tree t.1 t.2) (h : t ∈ f.trees) : t ∈ (op f).trees := by
  obtain ⟨g, k, rfl⟩ := exists_append_of_tree h
  rw [happend, happend, hself]
  simp

end Forest

namespace Document

variable {T : Node L × Forest (Node L)} {d : Document L} {x y : NodeId}

/-- the node is not in this tree -/
def Outside (T : Node L × Forest (Node L)) (x : NodeId) : Prop := x ∉ (tree T.1 T.2).ids

/-- a document that is intact, in which this tree stands by itself -/
structure Spared (T : Node L × Forest (Node L)) (d : Document L) : Prop where
  intact : d.Intact
  tree : T ∈ d.forest.trees

theorem Outside.isNode (h : Outside T x) : ∀ n ∈ (tree T.1 T.2).labels, isNode x n = false := isNode_of_not_mem h

namespace Spared

variable (h : d.Spared T)
include h

/-! ## Nodes outside -/

/-- the other trees of the document -/
theorem exists_rest : ∃ g, d.forest.Same (Forest.tree T.1 T.2 ++ g) := by
  obtain ⟨g, k, hf⟩ := exists_append_of_tree h.tree
  refine ⟨g ++ k, ?_⟩
  rw [hf, Forest.Same]
  simp only [trees_append]
  rw [← List.append_assoc, ← List.append_assoc]
  exact List.perm_append_comm.append_right _

/-- new nodes are outside -/
theorem outside_of_fresh (hx : d.fresh ≤ x) : Outside T x := by
  obtain ⟨g, hg⟩ := h.exists_rest
  intro hin
  have hmem : x ∈ d.forest.ids := (ids_of_same hg).mem_iff.2 (List.mem_append_left _ hin)
  exact Nat.not_lt.2 hx (h.intact.valid.below hmem)

/-- what is below a node outside is outside -/
theorem outside_of_below (hx : Outside T x) (hy : y ∈ (d.childForest x).ids) : Outside T y := by
  obtain ⟨g, hg⟩ := h.exists_rest
  have hv := h.intact.valid
  have hin : y ∈ g.ids := by
    have hfind : d.childForest x = (d.within g).childForest x := by
      rw [childForest, childForest, find?_within hv hg hx]
    rw [hfind, childForest] at hy
    cases hf : (d.within g).find? x with
    | none => rw [hf] at hy; cases hy
    | some t =>
      rw [hf] at hy
      obtain ⟨-, hsub, -⟩ := find?_subtree (valid_within hv hg) hf
      exact List.map_subset _ (labels_subset_of_subtree hsub) hy
  have hapart := (List.nodup_append'.1 ((ids_of_same hg).nodup_iff.1 hv.nodup)).2.2
  exact fun hT => hapart hT hin

theorem children (hx : Outside T x) : ∀ y ∈ d.children x, Outside T y := fun _ hy =>
  h.outside_of_below hx (List.map_subset _ (roots_subset_labels _) hy)

/-- a node outside has its parent outside -/
theorem parent? (hx : Outside T x) (hy : d.parent? x = some y) : Outside T y := by
  obtain ⟨g, hg⟩ := h.exists_rest
  have hv := h.intact.valid
  rw [parent?_within hv hg hx] at hy
  have hin : y ∈ g.ids := (mem_ids_of_parent? (valid_within hv hg) hy).1
  have hapart := (List.nodup_append'.1 ((ids_of_same hg).nodup_iff.1 hv.nodup)).2.2
  exact fun hT => hapart hT hin

/-! ## Changes -/

theorem add (kind : Kind) : (d.add kind).1.Spared T := by
  refine ⟨h.intact.add kind, ?_⟩
  show T ∈ (d.forest ++ Forest.tree _ nil).trees
  rw [trees_append]
  exact List.mem_append_left _ h.tree

theorem addFragment (nodes : List Markup.Node) : (d.addFragment nodes).1.Spared T := by
  refine ⟨h.intact.addFragment nodes, ?_⟩
  show T ∈ (d.forest ++ Forest.tree _ _).trees
  rw [trees_append]
  exact List.mem_append_left _ h.tree

/-- a node outside is written into -/
theorem perform (hx : Outside T x) (writing : Writing L) : (writing.perform x d).Spared T := by
  refine ⟨(rewrites_perform h.intact writing x).1, ?_⟩
  rw [writing.perform_eq]
  exact mem_trees_of_append (update_append _ _) (update_of_none hx.isNode _) h.tree

theorem detach (hx : Outside T x) : (d.detach x).Spared T := by
  refine ⟨h.intact.detach x, ?_⟩
  unfold Document.detach
  split
  · have hpruned : T ∈ (d.forest.prune (isNode x)).trees :=
      mem_trees_of_append (prune_append _) (prune_of_none hx.isNode) h.tree
    rw [trees_append]
    exact List.mem_append_left _ hpruned
  · exact h.tree

omit h in
theorem mem_trees_place (hT : T ∈ d.forest.trees) (hx : Outside T x) (hy : Outside T y) (anchor : Option NodeId) :
    T ∈ (d.place x y anchor).forest.trees := by
  unfold Document.place
  split
  · have hpruned : T ∈ (d.forest.prune (isNode y)).trees :=
      mem_trees_of_append (prune_append _) (prune_of_none hy.isNode) hT
    exact mem_trees_of_append (graft_append _ _) (graft_of_none hx.isNode _) hpruned
  · exact hT

theorem insertBefore (hx : Outside T x) (hy : Outside T y) (anchor : Option NodeId) :
    (d.insertBefore x y anchor).Spared T := by
  refine ⟨h.intact.insertBefore x y anchor, ?_⟩
  have hpieces : ∀ z ∈ d.pieces x y, Outside T z := by
    intro z hz
    unfold pieces at hz
    split at hz
    · cases hz
    · split at hz
      · exact h.children hy z hz
      · exact List.mem_singleton.1 hz ▸ hy
  have htree := h.tree
  rw [insertBefore_eq]
  generalize d.pieces x y = pieces at hpieces
  clear h
  induction pieces generalizing d with
  | nil => exact htree
  | cons z pieces ih =>
    rw [List.forall_mem_cons] at hpieces
    exact ih (mem_trees_place htree hx hpieces.1 anchor) hpieces.2

theorem replaceWith (hx : Outside T x) (hy : Outside T y) : (d.replaceWith x y).Spared T := by
  unfold Document.replaceWith
  cases hp : d.parent? x with
  | none => exact h
  | some parent => exact (h.insertBefore (h.parent? hx hp) hy (some x)).detach hx

/-- a node outside is taken out for good, with what nobody holds -/
theorem discard (hx : Outside T x) (held : NodeId → Bool) : (d.discard held x).Spared T := by
  refine ⟨h.intact.discard held x, ?_⟩
  have hroot : T.1 ∈ (d.detach x).forest.roots := by
    rw [roots_eq_trees]
    exact List.mem_map_of_mem (h.detach hx).tree
  have hne : T.1.id ≠ x := fun he => hx (by simp [ids, he])
  refine mem_trees_of_append (retain_append _) ?_ (h.detach hx).tree
  refine retain_of_roots fun n hn => ?_
  rw [show n = T.1 from List.mem_singleton.1 hn]
  have hany : (d.detach x).forest.roots.any (Document.isNode T.1.id) = true :=
    List.any_eq_true.2 ⟨T.1, hroot, isNode_iff.2 rfl⟩
  simp [hany, hne]

end Spared

end Document

end LiveMarkup
