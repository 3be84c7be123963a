/-
Looking at a part of a document.

A document that holds two forests is looked at in one of them at a time: what stands in a forest, and below what, does not
depend on what else there is (`find?_within`, `parent?_within`). So a tree that falls apart changes nothing elsewhere, and
what is left of it is what stood below the nodes that are kept (`discard_rest`, `discard_tree`).

Nodes may go by other names. A look-up of a renamed node in a renamed forest gives what the look-up gave, renamed
(`find?_rename`, `parentOf?_rename`).
-/
import LiveMarkup.Proofs.Document.Relink

namespace LiveMarkup

open Forest

variable {L : Type}

theorem Forest.retain_congr {α : Type} {p q : α → Bool} (f : Forest α) (h : ∀ a ∈ f.labels, p a = q a) :
    f.retain p = f.retain q := by
  induction f with
  | nil => rfl
  | cons a cs rest ihc ihr =>
    rw [Forest.retain, Forest.retain, h a List.mem_cons_self,
      ihc fun b hb => h b (List.mem_cons_of_mem _ (List.mem_append_left _ hb)),
      ihr fun b hb => h b (List.mem_cons_of_mem _ (List.mem_append_right _ hb))]

/-- what is left of a forest was in it, with the same below it -/
theorem Forest.subtrees_retain {α : Type} (p : α → Bool) (f : Forest α) : (f.retain p).subtrees ⊆ f.subtrees := by
  induction f with
  | nil => exact List.Subset.refl _
  | cons a cs rest ihc ihr =>
    intro t ht
    rw [Forest.retain] at ht
    split at ht
    · rcases List.mem_cons.1 ht with rfl | ht
      · exact List.mem_cons_self
      · refine List.mem_cons_of_mem _ ?_
        exact (List.mem_append.1 ht).elim (List.mem_append_left _) fun h => List.mem_append_right _ (ihr h)
    · rw [subtrees_append] at ht
      refine List.mem_cons_of_mem _ ?_
      exact (List.mem_append.1 ht).elim (fun h => List.mem_append_left _ (ihc h))
        fun h => List.mem_append_right _ (ihr h)

namespace Document

variable {d d' : Document L} {f g : Forest (Node L)} {id c p : NodeId}

/-! ## One of two forests -/

/-- the document with nothing but this forest -/
def within (d : Document L) (g : Forest (Node L)) : Document L := ⟨g, d.fresh⟩

theorem valid_of_forest (hn : d.forest.ids.Nodup) (hb : ∀ id ∈ d.forest.ids, id < d.fresh) : d.Valid :=
  ⟨Same.refl _, by rwa [ids_bare], by rwa [ids_bare]⟩

theorem ids_of_same (hs : d.forest.Same (f ++ g)) : d.forest.ids.Perm (f.ids ++ g.ids) := by
  rw [← ids_append]
  exact hs.labels.map _

theorem find?_of_not_mem (hv : d.Valid) (hid : id ∉ d.forest.ids) : d.find? id = none := by
  rw [find?_eq_node?, hv.node?_eq_none.2 hid]
  rfl

section

variable (hv : d.Valid) (hs : d.forest.Same (f ++ g))
include hv hs

theorem valid_within : (d.within g).Valid := by
  have hp := ids_of_same hs
  refine valid_of_forest (List.nodup_append.1 (hp.nodup_iff.1 hv.nodup)).2.1 fun id hid => hv.below ?_
  exact hp.mem_iff.2 (List.mem_append_right _ hid)

/-- what is not in one of two forests is looked for in the other -/
theorem find?_within (hid : id ∉ f.ids) : d.find? id = (d.within g).find? id := by
  have hv' := valid_within hv hs
  by_cases hg : id ∈ g.ids
  · obtain ⟨n, hn, rfl⟩ := List.mem_map.1 hg
    obtain ⟨cs, hcs⟩ := exists_subtree hn
    rw [find?_of_subtree hv' hcs, find?_of_subtree hv (hs.subtrees.mem_iff.2 ?_)]
    rw [subtrees_append]
    exact List.mem_append_right _ hcs
  · have hd : id ∉ d.forest.ids := fun h => ((List.mem_append.1 ((ids_of_same hs).mem_iff.1 h)).elim hid hg)
    rw [find?_of_not_mem hv hd, find?_of_not_mem hv' hg]

theorem children_within (hid : id ∉ f.ids) : d.children id = (d.within g).children id := by
  rw [children, children, childForest, childForest, find?_within hv hs hid]

/-- what stands in one of two forests stands below nodes of that forest -/
theorem parent?_within (hid : id ∉ f.ids) : d.parent? id = (d.within g).parent? id := by
  have hv' := valid_within hv hs
  have hs' := hs.trans (Same.comm f g)
  have hdisjoint := (List.nodup_append.1 ((ids_of_same hs).nodup_iff.1 hv.nodup)).2.2
  refine parent?_ext hv' hv fun p => ?_
  by_cases hp : p ∈ f.ids
  · -- what is below a node of the other forest is in that forest
    have hother : id ∉ d.children p := by
      intro hc
      rw [children_within hv hs' fun h => hdisjoint p hp p h rfl] at hc
      have hvf := valid_within hv hs'
      exact hid (mem_ids_of_parent? hvf ((mem_children_iff hvf).1 hc)).2
    have hnone : id ∉ (d.within g).children p := fun hc =>
      hdisjoint p hp p (mem_ids_of_parent? hv' ((mem_children_iff hv').1 hc)).1 rfl
    exact ⟨fun h => absurd h hother, fun h => absurd h hnone⟩
  · rw [children_within hv hs hp]

end

/-! ## A tree that falls apart -/

/-- a node that is made a root has its tree beside all others -/
theorem detach_same (hv : d.Valid) {n : Node L} {cs : Forest (Node L)} (h : d.find? id = some (n, cs)) :
    ∃ rest, (d.detach id).forest.Same (rest ++ tree n cs) := by
  obtain ⟨rfl, hsub, hone⟩ := find?_subtree hv h
  rw [detach, h]
  cases hp : d.parent? n.id with
  | some p => exact ⟨_, Same.refl _⟩
  | none =>
    have hroot : n ∈ d.forest.roots := by
      by_contra hr
      obtain ⟨t, ht, hn⟩ := exists_parent (mem_labels_of_subtree hsub) hr
      have hc : n.id ∈ d.children t.1.id := by
        rw [children_of_subtree hv ht]
        exact List.mem_map_of_mem hn
      rw [(mem_children_iff hv).1 hc] at hp
      cases hp
    obtain ⟨ds, hds⟩ := exists_tree hroot
    obtain rfl : ds = cs := by
      have hfound := find?_of_subtree hv (trees_subset_subtrees _ hds)
      rw [h] at hfound
      exact ((Prod.mk.inj (Option.some_inj.1 hfound)).2).symm
    exact ⟨_, same_prune_root hone hds (isNode_iff.2 rfl)⟩

/-- a root's tree falls apart down to what is held -/
theorem release_same (hv : d.Valid) {n : Node L} {cs rest : Forest (Node L)} (hs : d.forest.Same (rest ++ tree n cs))
    (held : NodeId → Bool) :
    (d.release held n.id).forest.Same (rest ++ (tree n cs).retain fun m => held m.id) := by
  have hn := (ids_of_same hs).nodup_iff.1 hv.nodup
  have hroots : ∀ id, d.forest.roots.any (isNode id) = true ↔ id ∈ rest.roots.map (·.id) ∨ id = n.id := by
    intro id
    rw [List.any_eq_true]
    constructor
    · rintro ⟨m, hm, hid⟩
      rw [hs.roots.mem_iff, roots_append, List.mem_append] at hm
      rcases hm with hm | hm
      · exact .inl (isNode_iff.1 hid ▸ List.mem_map_of_mem hm)
      · exact .inr (isNode_iff.1 hid ▸ congrArg Node.id (List.mem_singleton.1 hm))
    · rintro (hid | rfl)
      · obtain ⟨m, hm, rfl⟩ := List.mem_map.1 hid
        refine ⟨m, hs.roots.mem_iff.2 ?_, isNode_iff.2 rfl⟩
        rw [roots_append]
        exact List.mem_append_left _ hm
      · refine ⟨n, hs.roots.mem_iff.2 ?_, isNode_iff.2 rfl⟩
        rw [roots_append]
        exact List.mem_append_right _ List.mem_cons_self
  let keep : Node L → Bool := fun m => held m.id || (d.forest.roots.any (isNode m.id) && m.id != n.id)
  have hrest : rest.retain keep = rest := by
    refine retain_of_roots fun m hm => ?_
    have hne : m.id ≠ n.id := (List.nodup_append.1 hn).2.2 m.id (mem_ids_of_mem (roots_subset_labels _ hm)) n.id
      (by rw [ids_tree]; exact List.mem_cons_self)
    dsimp only [keep]
    rw [(hroots m.id).2 (.inl (List.mem_map_of_mem hm)), bne_iff_ne.2 hne, Bool.and_self, Bool.or_true]
  -- no node of the tree but its root is a root of the document
  have htree : (tree n cs).retain keep = (tree n cs).retain fun m => held m.id := by
    refine retain_congr _ fun m hm => ?_
    dsimp only [keep]
    rw [labels_tree, List.mem_cons] at hm
    rcases hm with rfl | hm
    · rw [bne_self_eq_false, Bool.and_false, Bool.or_false]
    · have hroot : d.forest.roots.any (isNode m.id) = false := by
        rw [Bool.eq_false_iff, ne_eq, hroots]
        have hcs : m.id ∈ cs.ids := mem_ids_of_mem hm
        rw [ids_tree, List.nodup_append] at hn
        rintro (h | h)
        · obtain ⟨k, hk, hid⟩ := List.mem_map.1 h
          exact hn.2.2 m.id (hid ▸ mem_ids_of_mem (roots_subset_labels _ hk)) m.id (List.mem_cons_of_mem _ hcs) rfl
        · exact (List.nodup_cons.1 hn.2.1).1 (h ▸ hcs)
      rw [hroot, Bool.false_and, Bool.or_false]
  have hkept := hs.retain keep
  rwa [retain_append, hrest, htree] at hkept

/-- a document from which a node is taken out for good, if nobody holds it -/
def discard (d : Document L) (held : NodeId → Bool) (id : NodeId) : Document L := (d.detach id).release held id

section

variable (hv : d.Valid) {n : Node L} {cs : Forest (Node L)} (h : d.find? id = some (n, cs)) (held : NodeId → Bool)
include hv h

theorem valid_discard : (d.discard held id).Valid := by
  obtain ⟨rfl, -, -⟩ := find?_subtree hv h
  obtain ⟨rest, hs⟩ := detach_same hv h
  have hv' := valid_detach hv n.id
  have hp := ids_of_same (release_same hv' hs held)
  have hsub : (rest.ids ++ ((tree n cs).retain fun m => held m.id).ids).Sublist (rest.ids ++ (tree n cs).ids) :=
    (List.Sublist.refl _).append ((labels_retain_sublist _ _).map _)
  refine valid_of_forest (hp.nodup_iff.2 (hsub.nodup ((ids_of_same hs).nodup_iff.1 hv'.nodup))) fun x hx => ?_
  exact hv'.below ((ids_of_same hs).mem_iff.2 (hsub.subset (hp.mem_iff.1 hx)))

/-- what was not below the node is where it was -/
theorem discard_rest {x : NodeId} (hx : x ∉ (tree n cs).ids) :
    (d.discard held id).find? x = (d.detach id).find? x ∧ (d.discard held id).parent? x = (d.detach id).parent? x := by
  have hvd := valid_discard hv h held
  obtain ⟨rfl, -, -⟩ := find?_subtree hv h
  obtain ⟨rest, hs⟩ := detach_same hv h
  have hv' := valid_detach hv n.id
  have hs1 := hs.trans (Same.comm rest _)
  have hs2 := (release_same hv' hs held).trans (Same.comm rest _)
  have hx' : x ∉ ((tree n cs).retain fun m => held m.id).ids := fun hin =>
    hx (((labels_retain_sublist _ _).map _).subset hin)
  rw [find?_within hv' hs1 hx, parent?_within hv' hs1 hx, find?_within hvd hs2 hx', parent?_within hvd hs2 hx']
  exact ⟨rfl, rfl⟩

/-- of what was below the node, there is what is left of its tree -/
theorem discard_tree {x : NodeId} (hx : x ∈ (tree n cs).ids) :
    (d.discard held id).find? x = (d.within ((tree n cs).retain fun m => held m.id)).find? x ∧
      (d.discard held id).parent? x = (d.within ((tree n cs).retain fun m => held m.id)).parent? x := by
  have hvd := valid_discard hv h held
  obtain ⟨rfl, -, -⟩ := find?_subtree hv h
  obtain ⟨rest, hs⟩ := detach_same hv h
  have hv' := valid_detach hv n.id
  have hs2 := release_same hv' hs held
  have hx' : x ∉ rest.ids := fun hin =>
    (List.nodup_append.1 ((ids_of_same hs).nodup_iff.1 hv'.nodup)).2.2 x hin x hx rfl
  rw [find?_within hvd hs2 hx', parent?_within hvd hs2 hx']
  exact ⟨rfl, rfl⟩

/-- a node is gone, or it is there with what was below it -/
theorem discard_cases (x : NodeId) :
    (d.discard held id).find? x = none ∨ (d.discard held id).find? x = (d.detach id).find? x := by
  by_cases hx : x ∈ (tree n cs).ids
  · rw [(discard_tree hv h held hx).1]
    cases hfind : (d.within ((tree n cs).retain fun m => held m.id)).find? x with
    | none => exact .inl rfl
    | some t =>
      rw [Document.find?, find?_eq_subtrees] at hfind
      have hpick : isNode x t.1 = true := List.find?_some (p := fun t : Node L × Forest (Node L) => isNode x t.1) hfind
      have hid : t.1.id = x := isNode_iff.1 hpick
      have hsub := subtrees_retain _ _ (List.mem_of_find?_eq_some hfind)
      obtain ⟨rest, hs⟩ := detach_same hv h
      refine .inr ?_
      rw [← hid]
      refine (find?_of_subtree (valid_detach hv id) (hs.subtrees.mem_iff.2 ?_)).symm
      rw [subtrees_append]
      exact List.mem_append_right _ hsub
  · exact .inr (discard_rest hv h held hx).1

end

theorem children_congr (h : d'.find? id = d.find? id) : d'.children id = d.children id := by
  rw [children, children, childForest, childForest, h]

theorem node?_congr (h : d'.find? id = d.find? id) : d'.node? id = d.node? id := by
  rw [node?, node?, h]

/-- taking out a node that is not there does nothing -/
theorem discard_of_unknown (hv : d.Valid) (h : d.find? id = none) (held : NodeId → Bool) : d.discard held id = d := by
  have hdetach : d.detach id = d := by
    rw [detach, h]
    split
    · next h2 => cases h2
    · rfl
  rw [discard, hdetach, release, Document.retain]
  refine congrArg (Document.mk · d.fresh) (retain_of_roots fun m hm => ?_)
  have hne : m.id ≠ id := by
    rintro rfl
    obtain ⟨cs, hcs⟩ := exists_tree hm
    rw [find?_of_subtree hv (trees_subset_subtrees _ hcs)] at h
    cases h
  have hroot : d.forest.roots.any (isNode m.id) = true := List.any_eq_true.2 ⟨m, hm, isNode_iff.2 rfl⟩
  dsimp only
  rw [hroot, bne_iff_ne.2 hne, Bool.and_self, Bool.or_true]

theorem Intact.discard (hd : d.Intact) (held : NodeId → Bool) (id : NodeId) : (d.discard held id).Intact := by
  cases h : d.find? id with
  | none =>
    rw [discard_of_unknown hd.valid h]
    exact hd
  | some t =>
    obtain ⟨n, cs⟩ := t
    refine ⟨valid_discard hd.valid h held, fun p c hc => ?_⟩
    have hp : (d.discard held id).find? p = (d.detach id).find? p := by
      refine (discard_cases hd.valid h held p).resolve_left fun hnone => ?_
      rw [children, childForest, hnone] at hc
      cases hc
    rw [children_congr hp] at hc
    have hplain := (hd.detach id).top p c hc
    rw [isFragment_eq_node?] at hplain ⊢
    rcases discard_cases hd.valid h held c with hnone | hsame
    · rw [node?, hnone]
      rfl
    · rwa [node?_congr hsame]

/-- what is left of a node that is taken out for good is what it was -/
theorem node?_of_discard (hd : d.Intact) {held : NodeId → Bool} {x y : NodeId} {n : Node L}
    (h : (d.discard held x).node? y = some n) : d.node? y = some n := by
  cases hx : d.find? x with
  | none =>
    rw [discard_of_unknown hd.valid hx] at h
    exact h
  | some t =>
    rcases discard_cases hd.valid hx held y with hnone | hsame
    · rw [node?, hnone] at h
      cases h
    · rw [← node?_detach hd.valid x y, ← node?_congr hsame]
      exact h

/-- nothing gets another parent -/
theorem parent?_of_discard (hd : d.Intact) {held : NodeId → Bool} {x : NodeId}
    (h : (d.discard held x).parent? c = some p) : d.parent? c = some p := by
  cases hx : d.find? x with
  | none =>
    rw [discard_of_unknown hd.valid hx] at h
    exact h
  | some t =>
    have hchild := (mem_children_iff (hd.discard held x).valid).2 h
    rcases discard_cases hd.valid hx held p with hnone | hsame
    · rw [children, childForest, hnone] at hchild
      cases hchild
    · rw [children_congr hsame, children_detach hd.valid] at hchild
      exact (mem_children_iff hd.valid).1 (List.mem_of_mem_filter hchild)

end Document

/-! ## Other names -/

def Node.rename (ρ : NodeId → NodeId) (n : Node L) : Node L := { n with id := ρ n.id }

namespace Forest

variable {ρ : NodeId → NodeId}

theorem ids_rename (ρ : NodeId → NodeId) (f : Forest (Node L)) : (f.map (Node.rename ρ)).ids = f.ids.map ρ := by
  rw [ids, labels_map, List.map_map, ids, List.map_map]
  rfl

theorem roots_rename (ρ : NodeId → NodeId) (f : Forest (Node L)) :
    (f.map (Node.rename ρ)).roots.map (·.id) = (f.roots.map (·.id)).map ρ := by
  rw [roots_map, List.map_map, List.map_map]
  rfl

/-- names are not written -/
theorem toMarkup_rename (ρ : NodeId → NodeId) (f : Forest (Node L)) :
    (f.map (Node.rename ρ)).toMarkup = f.toMarkup := by
  induction f with
  | nil => rfl
  | cons n cs rest ihc ihr => rw [map, toMarkup, toMarkup, ihc, ihr, Node.rename]

section

variable (hρ : Function.Injective ρ)
include hρ

theorem isNode_rename (id : NodeId) (n : Node L) : Document.isNode (ρ id) (n.rename ρ) = Document.isNode id n := by
  rw [Bool.eq_iff_iff, Document.isNode_iff, Document.isNode_iff]
  exact hρ.eq_iff

theorem find?_rename (id : NodeId) (f : Forest (Node L)) : (f.map (Node.rename ρ)).find? (Document.isNode (ρ id)) =
    (f.find? (Document.isNode id)).map fun t => (t.1.rename ρ, t.2.map (Node.rename ρ)) := by
  induction f with
  | nil => rfl
  | cons n cs rest ihc ihr =>
    rw [map, find?, find?, isNode_rename hρ, ihc, ihr]
    split
    · rfl
    · rw [Option.map_or]

theorem any_roots_rename (id : NodeId) (f : Forest (Node L)) :
    (f.map (Node.rename ρ)).roots.any (Document.isNode (ρ id)) = f.roots.any (Document.isNode id) := by
  rw [roots_map, List.any_map]
  exact List.any_congr rfl fun n => isNode_rename hρ id n

theorem parentOf?_rename (id : NodeId) (f : Forest (Node L)) :
    (f.map (Node.rename ρ)).parentOf? (Document.isNode (ρ id)) =
      (f.parentOf? (Document.isNode id)).map (Node.rename ρ) := by
  induction f with
  | nil => rfl
  | cons n cs rest ihc ihr =>
    rw [map, parentOf?, parentOf?, any_roots_rename hρ, ihc, ihr]
    split
    · rfl
    · rw [Option.map_or]

end

end Forest

namespace Document

variable {d d' : Document L} {ρ : NodeId → NodeId} (hρ : Function.Injective ρ)
  (h : d'.forest = d.forest.map (Node.rename ρ))
include hρ h

theorem find?_renamed (id : NodeId) :
    d'.find? (ρ id) = (d.find? id).map fun t => (t.1.rename ρ, t.2.map (Node.rename ρ)) := by
  rw [find?, h, find?_rename hρ]
  rfl

theorem node?_renamed (id : NodeId) : d'.node? (ρ id) = (d.node? id).map (Node.rename ρ) := by
  rw [node?, node?, find?_renamed hρ h, Option.map_map, Option.map_map]
  rfl

theorem children_renamed (id : NodeId) : d'.children (ρ id) = (d.children id).map ρ := by
  rw [children, children, childForest, childForest, find?_renamed hρ h]
  cases d.find? id with
  | none => rfl
  | some t => exact roots_rename ρ t.2

theorem parent?_renamed (id : NodeId) : d'.parent? (ρ id) = (d.parent? id).map ρ := by
  rw [parent?, parent?, h, parentOf?_rename hρ, Option.map_map, Option.map_map]
  rfl

end Document

end LiveMarkup
