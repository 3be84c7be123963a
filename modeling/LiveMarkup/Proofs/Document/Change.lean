/-
Changes of a document as changes of the forest that it holds.

One lemma for each operation of the document. Changing a node changes it in the forest; adding appends trees; moving a
node takes it out and puts it in elsewhere. From the moves come the three that components make: a root in the place of a
node (`Holds.replaceWith`), the content of a fragment before an anchor (`Holds.insertFragment`), and a node taken out
(`Holds.discard`).
-/
import LiveMarkup.World
import LiveMarkup.Proofs.Document.Holds

namespace LiveMarkup

open Forest

variable {L : Type}

/-! ## One node -/

def Kind.withData (data : String) : Kind → Kind
  | .text _ => .text data
  | .comment _ => .comment data
  | kind => kind

def Kind.mapAttributes (g : Attributes → Attributes) : Kind → Kind
  | .element tag attributes => .element tag (g attributes)
  | kind => kind

theorem Kind.tag?_withData (data : String) (k : Kind) : (k.withData data).tag? = k.tag? := by cases k <;> rfl

theorem Kind.tag?_mapAttributes (g : Attributes → Attributes) (k : Kind) : (k.mapAttributes g).tag? = k.tag? := by
  cases k <;> rfl

def Node.mapKind (g : Kind → Kind) (n : Bare) : Bare := { n with kind := g n.kind }

@[simp] theorem Node.id_mapKind (g : Kind → Kind) (n : Bare) : (n.mapKind g).id = n.id := rfl

namespace Forest

theorem ids_update {g : Bare → Bare} (hg : ∀ n, (g n).id = n.id) (pick : Bare → Bool) (f : Forest Bare) :
    (f.update pick g).ids = f.ids := by
  rw [ids, labels_update, List.map_map]
  refine List.map_congr_left fun n _ => ?_
  dsimp only [Function.comp]
  split
  · exact hg n
  · rfl

theorem range'_cons {s m : Nat} (h : s + 1 ≤ m) : s :: List.range' (s + 1) (m - (s + 1)) = List.range' s (m - s) := by
  rw [← List.range'_succ, show m - (s + 1) + 1 = m - s by omega]

theorem range'_join {s k m : Nat} (hk : s ≤ k) (hm : k ≤ m) :
    List.range' s (k - s) ++ List.range' k (m - k) = List.range' s (m - s) := by
  have := List.range'_append_1 (s := s) (m := k - s) (n := m - k)
  rwa [Nat.add_sub_cancel' hk, show k - s + (m - k) = m - s by omega] at this

mutual
/-- a copy of a markup node takes the ids from the given one on, and what is left is fresh -/
theorem plantNode_ids : (n : Markup.Node) → (id : NodeId) → id ≤ (Document.plant.plantNode (L := L) n id).2 ∧
    (Document.plant.plantNode (L := L) n id).1.ids =
      List.range' id ((Document.plant.plantNode (L := L) n id).2 - id)
  | .element tag attributes children, id => by
    obtain ⟨hle, hids⟩ := plant_ids children (id + 1)
    rw [Document.plant.plantNode]
    refine ⟨Nat.le_of_succ_le hle, ?_⟩
    rw [ids_tree, hids]
    exact range'_cons hle
  | .text _, id => ⟨Nat.le_succ id, by simp [Document.plant.plantNode, List.range'_one]⟩
  | .comment _, id => ⟨Nat.le_succ id, by simp [Document.plant.plantNode, List.range'_one]⟩
/-- a copy of a markup forest takes the ids from the given one on, and what is left is fresh -/
theorem plant_ids : (ns : List Markup.Node) → (id : NodeId) → id ≤ (Document.plant (L := L) ns id).2 ∧
    (Document.plant (L := L) ns id).1.ids = List.range' id ((Document.plant (L := L) ns id).2 - id)
  | [], id => ⟨Nat.le_refl id, by simp [Document.plant]⟩
  | n :: ns, id => by
    obtain ⟨hle, hids⟩ := plantNode_ids n id
    obtain ⟨hle', hids'⟩ := plant_ids ns (Document.plant.plantNode (L := L) n id).2
    rw [Document.plant]
    refine ⟨Nat.le_trans hle hle', ?_⟩
    rw [ids_append, hids, hids']
    exact range'_join hle hle'
end

mutual
theorem bare_plantNode : (n : Markup.Node) → (id : NodeId) →
    (Document.plant.plantNode (L := L) n id).1.bare = (Document.plant.plantNode n id).1 ∧
      (Document.plant.plantNode (L := L) n id).2 = (Document.plant.plantNode (L := Empty) n id).2
  | .element tag attributes children, id => by
    obtain ⟨h1, h2⟩ := bare_plant children (id + 1)
    rw [Document.plant.plantNode, Document.plant.plantNode]
    exact ⟨congrArg (tree _) h1, h2⟩
  | .text _, _ => ⟨rfl, rfl⟩
  | .comment _, _ => ⟨rfl, rfl⟩
/-- copies do not depend on the type of listeners -/
theorem bare_plant : (ns : List Markup.Node) → (id : NodeId) →
    (Document.plant (L := L) ns id).1.bare = (Document.plant ns id).1 ∧
      (Document.plant (L := L) ns id).2 = (Document.plant (L := Empty) ns id).2
  | [], _ => ⟨rfl, rfl⟩
  | n :: ns, id => by
    obtain ⟨h1, h2⟩ := bare_plantNode n id
    obtain ⟨h3, h4⟩ := bare_plant ns (Document.plant.plantNode (L := L) n id).2
    rw [Document.plant, Document.plant, ← h2]
    refine ⟨?_, h4⟩
    rw [bare, map_append]
    exact congrArg₂ _ h1 h3
end

end Forest

namespace Document

variable {d : Document L} {f : Forest Bare}

theorem Holds.update (h : d.Holds f) (id : NodeId) {g : Node L → Node L} (g' : Bare → Bare)
    (hg : ∀ n, (g n).bare = g' n.bare) (hid : ∀ n, (g' n).id = n.id) :
    (d.update id g).Holds (f.update (isNode id) g') := by
  refine h.of_perm ?_ (.of_eq (ids_update hid _ f).symm) (Nat.le_refl _)
  have hmap := map_update (h := Node.bare (L := L)) (p := isNode id) (q := isNode id) (fun _ => rfl) hg d.forest
  exact (Same.of_eq hmap).trans (h.same.update _ _)

theorem Holds.updateKind (h : d.Holds f) (id : NodeId) (g : Kind → Kind) :
    (d.updateKind id g).Holds (f.update (isNode id) (Node.mapKind g)) :=
  h.update id _ (fun _ => rfl) fun _ => rfl

theorem Holds.setData (h : d.Holds f) (id : NodeId) (data : String) :
    (d.setData id data).Holds (f.update (isNode id) (Node.mapKind (Kind.withData data))) := by
  have hg : Kind.withData data = (fun | .text _ => .text data | .comment _ => .comment data | kind => kind) := by
    funext k
    cases k <;> rfl
  rw [hg]
  exact h.updateKind id _

theorem Holds.updateAttributes (h : d.Holds f) (id : NodeId) (g : Attributes → Attributes) :
    (d.updateAttributes id g).Holds (f.update (isNode id) (Node.mapKind (Kind.mapAttributes g))) := by
  have hg : Kind.mapAttributes g = (fun | .element tag attributes => .element tag (g attributes) | kind => kind) := by
    funext k
    cases k <;> rfl
  rw [hg]
  exact h.updateKind id _

theorem Holds.listen (h : d.Holds f) (id : NodeId) (event : String) (l : L) : (d.listen id event l).1.Holds f := by
  have := h.update id (fun n => n)
    (g := fun n => { n with listeners := n.listeners ++ [⟨n.nextTicket, event, l⟩], nextTicket := n.nextTicket + 1 })
    (fun _ => rfl) fun _ => rfl
  rwa [update_self] at this

theorem Holds.unlisten (h : d.Holds f) (id : NodeId) (ticket : Nat) : (d.unlisten id ticket).Holds f := by
  have := h.update id (fun n => n)
    (g := fun n => { n with listeners := n.listeners.filter (·.ticket != ticket) }) (fun _ => rfl) fun _ => rfl
  rwa [update_self] at this

/-! ## New nodes -/

theorem Holds.of_append {d' : Document L} (h : d.Holds f) {g : Forest Bare}
    (same : d'.forest.bare = d.forest.bare ++ g) (nodup : g.ids.Nodup)
    (new : ∀ id ∈ g.ids, d.fresh ≤ id ∧ id < d'.fresh) (hf : d.fresh ≤ d'.fresh) : d'.Holds (f ++ g) := by
  refine ⟨(Same.of_eq same).trans (h.same.append (Same.refl g)), ?_, fun id hid => ?_⟩
  · rw [ids_append, List.nodup_append]
    refine ⟨h.nodup, nodup, fun a ha b hb e => ?_⟩
    exact Nat.lt_irrefl a (Nat.lt_of_lt_of_le (h.below a ha) (e ▸ (new b hb).1))
  · rw [ids_append, List.mem_append] at hid
    rcases hid with hid | hid
    · exact Nat.lt_of_lt_of_le (h.below id hid) hf
    · exact (new id hid).2

theorem Holds.add (h : d.Holds f) (kind : Kind) :
    (d.add kind).1.Holds (f ++ tree ⟨d.fresh, kind, [], 0⟩ nil) := by
  refine h.of_append ?_ (by simp) (fun id hid => ?_) (Nat.le_succ _)
  · rw [Document.add, bare, map_append]
    rfl
  · obtain rfl : id = d.fresh := by simpa using hid
    exact ⟨Nat.le_refl _, Nat.lt_succ_self _⟩

theorem Holds.addFragment (h : d.Holds f) (nodes : List Markup.Node) :
    (d.addFragment nodes).1.Holds (f ++ tree ⟨d.fresh, .fragment, [], 0⟩ (plant nodes (d.fresh + 1)).1) := by
  obtain ⟨hle, hids⟩ := plant_ids (L := Empty) nodes (d.fresh + 1)
  obtain ⟨hb, hnext⟩ := bare_plant (L := L) nodes (d.fresh + 1)
  have hfresh : (d.addFragment nodes).1.fresh = (plant (L := Empty) nodes (d.fresh + 1)).2 := hnext
  have hrange : ∀ id ∈ (plant (L := Empty) nodes (d.fresh + 1)).1.ids, d.fresh < id ∧
      id < (plant (L := Empty) nodes (d.fresh + 1)).2 := by
    intro id hid
    rw [hids, List.mem_range'_1] at hid
    have := hid.2
    rw [Nat.add_sub_cancel' hle] at this
    exact ⟨hid.1, this⟩
  refine h.of_append ?_ ?_ (fun id hid => ?_) ?_
  · rw [Document.addFragment, bare, map_append]
    exact congrArg (fun x => d.forest.bare ++ tree ⟨d.fresh, .fragment, [], 0⟩ x) hb
  · rw [ids_tree, List.nodup_cons]
    refine ⟨fun hid => Nat.lt_irrefl _ (hrange _ hid).1, ?_⟩
    rw [hids]
    exact List.nodup_range'
  · rw [ids_tree, List.mem_cons] at hid
    rw [hfresh]
    rcases hid with rfl | hid
    · exact ⟨Nat.le_refl _, hle⟩
    · exact ⟨Nat.le_of_lt (hrange id hid).1, (hrange id hid).2⟩
  · rw [hfresh]
    exact Nat.le_of_succ_le hle

/-! ## Moving -/

section

variable {n : Bare} {cs : Forest Bare}

theorem count_of_subtree (h : d.Holds f) (hs : (n, cs) ∈ f.subtrees) : Forest.count (isNode n.id) f = 1 :=
  count_isNode_of_mem h.nodup (mem_ids_of_mem (mem_labels_of_subtree hs))

theorem Holds.place (h : d.Holds f) {parent : NodeId} (hp : parent ∈ f.ids) (hs : (n, cs) ∈ f.subtrees)
    (hnot : parent ∉ (tree n cs).ids) (anchor : Option NodeId) :
    (d.place parent n.id anchor).Holds
      ((f.prune (isNode n.id)).graft (isNode parent) (Forest.insertBefore (isAnchor anchor) (tree n cs))) := by
  obtain ⟨q, qs, hq⟩ := h.find?_isSome hp
  obtain ⟨m, ms, hm, rfl, rfl⟩ := h.find?_some hs
  have hprune := labels_prune_perm (count_of_subtree h hs) hs (isNode_iff.2 rfl)
  have hpruned : parent ∈ (f.prune (isNode m.bare.id)).ids := by
    have := (hprune.map Node.id).mem_iff.1 hp
    rw [List.map_append, List.mem_append] at this
    refine this.resolve_right fun hin => hnot ?_
    rwa [← labels_tree] at hin
  have hnodup : (f.prune (isNode m.bare.id)).ids.Nodup := ((labels_prune_sublist _ f).map Node.id).nodup h.nodup
  refine h.of_perm ?_ ?_ ?_
  · rw [Document.place, hq, hm]
    dsimp only
    have hmap := map_graft (h := Node.bare (L := L)) (p := isNode parent) (q := isNode parent) (fun _ => rfl)
      (map_insertBefore (h := Node.bare (L := L)) (p := isAnchor anchor) (q := isAnchor anchor) (fun _ => rfl)
        (tree m ms)) (d.forest.prune (isNode m.id))
    have hmap' := map_prune (h := Node.bare (L := L)) (p := isNode m.id) (q := isNode m.id) (fun _ => rfl) d.forest
    rw [hmap'] at hmap
    exact (Same.of_eq hmap).trans ((h.same.prune _).graft _ _)
  · have hgraft := labels_graft_perm (count_isNode_of_mem hnodup hpruned)
      (labels_insertBefore_perm (isAnchor anchor) (tree m.bare ms.bare))
    rw [labels_tree] at hgraft
    exact (hprune.trans hgraft.symm).map Node.id
  · rw [Document.place, hq, hm]

theorem Holds.detach (h : d.Holds f) (hs : (n, cs) ∈ f.subtrees) (hr : n ∉ f.roots) :
    (d.detach n.id).Holds (f.prune (isNode n.id) ++ tree n cs) := by
  obtain ⟨t, ht, hnt⟩ := exists_parent (mem_labels_of_subtree hs) hr
  have hparent := h.parent? ht (List.any_eq_true.2 ⟨n, hnt, isNode_iff.2 rfl⟩)
  obtain ⟨m, ms, hm, rfl, rfl⟩ := h.find?_some hs
  have hprune := labels_prune_perm (count_of_subtree h hs) hs (isNode_iff.2 rfl)
  have hd : d.detach m.bare.id = { d with forest := d.forest.prune (isNode m.id) ++ tree m ms } := by
    rw [Document.detach, hparent, hm]
    rfl
  rw [hd]
  refine h.of_perm ?_ ?_ (Nat.le_refl _)
  · have hmap := map_prune (h := Node.bare (L := L)) (p := isNode m.id) (q := isNode m.id) (fun _ => rfl) d.forest
    rw [bare, map_append, hmap]
    exact (h.same.prune _).append (Same.refl _)
  · rw [ids_append, ids_tree]
    have := hprune.map Node.id
    rwa [List.map_append] at this

/-- a root is nobody's child -/
theorem not_child_of_root (hn : f.ids.Nodup) {n : Bare} (hr : n ∈ f.roots) :
    ∀ t ∈ f.subtrees, t.2.roots.any (isNode n.id) = false := by
  intro t ht
  rw [List.any_eq_false]
  intro m hm hp
  have := ((labels_perm_children f).map Node.id).nodup_iff.1 hn
  rw [List.map_append, List.nodup_append] at this
  refine this.2.2 n.id (List.mem_map_of_mem hr) m.id ?_ (isNode_iff.1 hp).symm
  exact List.mem_map_of_mem (List.mem_flatMap.2 ⟨t, ht, hm⟩)

/-- detaching any node keeps all nodes -/
theorem Holds.detach_ids (h : d.Holds f) (id : NodeId) : ∃ g, (d.detach id).Holds g ∧ g.ids.Perm f.ids := by
  cases hp : d.parent? id with
  | none =>
    refine ⟨f, ?_, .refl _⟩
    rw [Document.detach, hp]
    exact h
  | some p =>
    obtain ⟨t, ht, -, hid⟩ := h.parent?_eq_some hp
    obtain ⟨o, ho, hoid⟩ := List.any_eq_true.1 hid
    obtain rfl := isNode_iff.1 hoid
    obtain ⟨os, hos⟩ := exists_tree ho
    have hsub : (o, os) ∈ f.subtrees := subtrees_trans ht (trees_subset_subtrees _ hos)
    have hroot : o ∉ f.roots := fun hr => Bool.false_ne_true ((not_child_of_root h.nodup hr t ht).symm.trans hid)
    refine ⟨_, h.detach hsub hroot, ?_⟩
    rw [ids, labels_append, labels_tree]
    exact ((labels_prune_perm (count_of_subtree h hsub) hsub (isNode_iff.2 rfl)).map Node.id).symm

/-- a root takes the place of a node -/
theorem Holds.replaceWith (h : d.Holds (f ++ tree n cs)) (hk : n.kind.isFragment = false) {o : Bare}
    (ho : o ∈ f.labels) (hr : o ∉ f.roots) :
    ∃ g, (d.replaceWith o.id n.id).Holds (f.replace o.id (tree n cs) ++ g) := by
  have hnodup := h.nodup
  rw [ids_append, List.nodup_append] at hnodup
  obtain ⟨hf, -, hdisjoint⟩ := hnodup
  have hnew : ∀ {id : NodeId}, id ∈ f.ids → id ∉ (tree n cs).ids := fun ha hb => hdisjoint _ ha _ hb rfl
  obtain ⟨⟨q, qs⟩, hq, hoq⟩ := exists_parent ho hr
  obtain ⟨os, hos⟩ := exists_tree hoq
  have hosub : (o, os) ∈ f.subtrees := subtrees_trans hq (trees_subset_subtrees qs hos)
  have hany : qs.roots.any (isNode o.id) = true := List.any_eq_true.2 ⟨o, hoq, isNode_iff.2 rfl⟩
  have hqids : q.id ∈ f.ids := mem_ids_of_mem (mem_labels_of_subtree hq)
  have hoids : o.id ∈ f.ids := mem_ids_of_mem ho
  -- the parent is above the old node and all below that
  have habove : q.id ∉ qs.ids := by
    have := ((subtree_sublist hq).map Node.id).nodup hf
    exact (List.nodup_cons.1 this).1
  have hqo : q.id ∉ (tree o os).ids := by
    rw [ids_tree]
    intro hin
    refine habove ?_
    rcases List.mem_cons.1 hin with e | hin
    · exact e ▸ mem_ids_of_mem (roots_subset_labels qs hoq)
    · exact List.map_subset _ (labels_subset_of_subtree (trees_subset_subtrees qs hos)) hin
  have hq' : (q, qs) ∈ (f ++ tree n cs).subtrees := by
    rw [subtrees_append]
    exact List.mem_append_left _ hq
  have hn' : (n, cs) ∈ (f ++ tree n cs).subtrees := by
    rw [subtrees_append]
    exact List.mem_append_right _ List.mem_cons_self
  have hinsert : d.insertBefore q.id n.id (some o.id) = d.place q.id n.id (some o.id) := by
    rw [Document.insertBefore, h.contains hn' (hnew hqids), h.isFragment hn', hk]
    rfl
  have hplace := h.place (mem_ids_of_mem (mem_labels_of_subtree hq')) hn' (hnew hqids) (some o.id)
  have hpruned : (f ++ tree n cs).prune (isNode n.id) = f := by
    have hself : (tree n cs).prune (isNode n.id) = nil := by
      rw [tree, prune, if_pos (isNode_iff.2 rfl)]
      rfl
    rw [prune_append, hself, append_nil,
      prune_of_none (isNode_of_not_mem fun hin => hnew hin (by rw [ids_tree]; exact List.mem_cons_self))]
  rw [hpruned, ← hinsert] at hplace
  have hanchor : isAnchor (some o.id) = (isNode o.id : Bare → Bool) := rfl
  rw [hanchor] at hplace
  have hcount : Forest.count (isNode q.id) (tree o os) = 0 := count_isNode_of_not_mem hqo
  rw [tree, count_cons] at hcount
  have hos' := subtree_graft (x := tree n cs) (q := isNode o.id) hosub
    (isNode_eq_false_iff.2 fun e => hqo (by rw [ids_tree, e]; exact List.mem_cons_self)) (by omega)
  have hdetach := hplace.detach hos' (by rwa [roots_graft])
  rw [prune_graft_insertBefore (count_isNode_of_not_mem (hnew hoids)) (count_isNode_of_mem hf hoids)
    (count_isNode_of_mem hf hqids) hq (isNode_iff.2 rfl) hany] at hdetach
  refine ⟨tree o os, ?_⟩
  rw [Document.replaceWith, h.parent? hq' hany]
  exact hdetach

theorem isAnchor_of_not_mem {anchor : Option NodeId} {y : Forest Bare} (hy : ∀ a ∈ anchor, a ∉ y.ids) :
    ∀ n ∈ y.roots, isAnchor anchor n = false := by
  intro n hn
  cases anchor with
  | none => rfl
  | some a => exact isNode_of_not_mem (hy a rfl) n (roots_subset_labels y hn)

/-- the next root of a fragment follows those that went before it; `y` are these -/
theorem Holds.place_next {r c : Bare} {cs rest y : Forest Bare} {target : NodeId} {anchor : Option NodeId}
    (h : d.Holds (f.graft (isNode target) (Forest.insertBefore (isAnchor anchor) y) ++ tree r (cons c cs rest)))
    (hf : f.ids.Nodup) (ht : target ∈ f.ids) (hy : ∀ a ∈ anchor, a ∉ y.ids) :
    (d.place target c.id anchor).Holds
      (f.graft (isNode target) (Forest.insertBefore (isAnchor anchor) (y ++ tree c cs)) ++ tree r rest) := by
  have hgraft := (labels_graft_perm (count_isNode_of_mem hf ht)
    (labels_insertBefore_perm (isAnchor anchor) y)).map Node.id
  have hnodup := h.nodup
  rw [ids_append, ids_tree, ids_cons, List.nodup_append] at hnodup
  obtain ⟨hleft, hright, hapart⟩ := hnodup
  obtain ⟨hr, hright⟩ := List.nodup_cons.1 hright
  obtain ⟨hc, -⟩ := List.nodup_cons.1 hright
  have htleft : target ∈ (f.graft (isNode target) (Forest.insertBefore (isAnchor anchor) y)).ids := by
    refine hgraft.mem_iff.2 ?_
    rw [List.map_append]
    exact List.mem_append_left _ ht
  have hty : target ∉ y.ids := by
    have := hgraft.nodup_iff.1 hleft
    rw [List.map_append, List.nodup_append] at this
    exact fun hin => this.2.2 _ ht _ hin rfl
  have htright : target ∉ r.id :: c.id :: (cs.ids ++ rest.ids) := fun hin => hapart _ htleft _ hin rfl
  have hsub : (c, cs) ∈ (f.graft (isNode target) (Forest.insertBefore (isAnchor anchor) y) ++
      tree r (cons c cs rest)).subtrees := by
    rw [subtrees_append, tree, subtrees, subtrees]
    exact List.mem_append_right _ (List.mem_cons_of_mem _ (List.mem_append_left _ List.mem_cons_self))
  have htc : target ∉ (tree c cs).ids := by
    rw [ids_tree]
    intro hin
    refine htright (List.mem_cons_of_mem _ ?_)
    rw [← List.cons_append]
    exact List.mem_append_left _ hin
  have hplace := h.place (by rw [ids_append]; exact List.mem_append_left _ htleft) hsub htc anchor
  have hprune : (tree r (cons c cs rest)).prune (isNode c.id) = tree r rest := by
    have hrc : isNode c.id r = false := isNode_eq_false_iff.2 fun e => hr (e ▸ List.mem_cons_self)
    have hrest : (cons c cs rest).prune (isNode c.id) = rest := by
      rw [prune, if_pos (isNode_iff.2 rfl)]
      exact prune_of_none (isNode_of_not_mem fun hin => hc (List.mem_append_right _ hin))
    rw [tree, prune, hrc, hrest]
    rfl
  have hkeep : (f.graft (isNode target) (Forest.insertBefore (isAnchor anchor) y)).prune (isNode c.id) =
      f.graft (isNode target) (Forest.insertBefore (isAnchor anchor) y) :=
    prune_of_none (isNode_of_not_mem fun hin => hapart _ hin _ (List.mem_cons_of_mem _ List.mem_cons_self) rfl)
  have hrest : (tree r rest).graft (isNode target) (Forest.insertBefore (isAnchor anchor) (tree c cs)) =
      tree r rest := by
    refine graft_of_none (isNode_of_not_mem fun hin => htright ?_) _
    rw [ids_tree] at hin
    rcases List.mem_cons.1 hin with rfl | hin
    · exact List.mem_cons_self
    · exact List.mem_cons_of_mem _ (List.mem_cons_of_mem _ (List.mem_append_right _ hin))
  have hfuse : (f.graft (isNode target) (Forest.insertBefore (isAnchor anchor) y)).graft (isNode target)
      (Forest.insertBefore (isAnchor anchor) (tree c cs)) =
      f.graft (isNode target) (Forest.insertBefore (isAnchor anchor) (y ++ tree c cs)) := by
    rw [graft_graft (Nat.le_of_eq (count_isNode_of_mem hf ht))]
    · exact congrArg (f.graft (isNode target)) (funext (insertBefore_insertBefore _ (isAnchor_of_not_mem hy)))
    · intro l hl
      rw [count_insertBefore, hl, count_isNode_of_not_mem hty]
  rwa [prune_append, hprune, hkeep, graft_append, hrest, hfuse] at hplace

/-- what a fragment holds goes before the anchor, in order, and the fragment stays behind empty -/
theorem Holds.insertFragment {r : Bare} {x : Forest Bare} (h : d.Holds (f ++ tree r x))
    (hk : r.kind.isFragment = true) {target : NodeId} (ht : target ∈ f.ids) {anchor : Option NodeId}
    (ha : ∀ a ∈ anchor, a ∉ x.ids) :
    (d.insertBefore target r.id anchor).Holds
      (f.graft (isNode target) (Forest.insertBefore (isAnchor anchor) x) ++ tree r nil) := by
  have hr : (r, x) ∈ (f ++ tree r x).subtrees := by
    rw [subtrees_append]
    exact List.mem_append_right _ List.mem_cons_self
  obtain ⟨hf, -, hdisjoint⟩ := List.nodup_append.1 (ids_append f (tree r x) ▸ h.nodup)
  have hnot : target ∉ (tree r x).ids := fun hin => hdisjoint _ ht _ hin rfl
  have hinsert : d.insertBefore target r.id anchor =
      (x.roots.map Node.id).foldl (fun d c => d.place target c anchor) d := by
    rw [Document.insertBefore, h.contains hr hnot, h.isFragment hr, hk, h.children hr]
    rfl
  -- the roots move one by one; `y` are those that have moved
  have hrun : ∀ (x y : Forest Bare) (d : Document L), (∀ a ∈ anchor, a ∉ x.ids) → (∀ a ∈ anchor, a ∉ y.ids) →
      d.Holds (f.graft (isNode target) (Forest.insertBefore (isAnchor anchor) y) ++ tree r x) →
      ((x.roots.map Node.id).foldl (fun d c => d.place target c anchor) d).Holds
        (f.graft (isNode target) (Forest.insertBefore (isAnchor anchor) (y ++ x)) ++ tree r nil) := by
    intro x
    induction x with
    | nil =>
      intro y d _ _ h
      rwa [append_nil]
    | cons c cs rest _ ih =>
      intro y d hx hy h
      have hassoc : y ++ tree c cs ++ rest = y ++ cons c cs rest := append_assoc y (tree c cs) rest
      rw [roots, List.map_cons, List.foldl_cons, ← hassoc]
      refine ih (y ++ tree c cs) _ (fun a haa hin => hx a haa ?_) (fun a haa hin => ?_) (h.place_next hf ht hy)
      · rw [ids_cons]
        exact List.mem_cons_of_mem _ (List.mem_append_right _ hin)
      · rw [ids_append, List.mem_append, ids_tree] at hin
        rcases hin with hin | hin
        · exact hy a haa hin
        · refine hx a haa ?_
          rw [ids_cons, ← List.cons_append]
          exact List.mem_append_left _ hin
  rw [hinsert]
  have hstart : f.graft (isNode target) (Forest.insertBefore (isAnchor anchor) nil) = f :=
    graft_self _ f (insertBefore_nil _)
  exact hrun x nil d ha (fun _ _ hin => absurd hin List.not_mem_nil) (by rwa [hstart])

/-! ## Taking out -/

/-- dissolving the tree of a root leaves all other trees alone -/
theorem Holds.release (h : d.Holds (f ++ tree n cs)) (held : NodeId → Bool) :
    ∃ g, (d.release held n.id).Holds (f ++ g) := by
  let keep : NodeId → Bool := fun id => held id || (d.forest.roots.any (isNode id) && id != n.id)
  have hnodup := List.nodup_append.1 (ids_append f (tree n cs) ▸ h.nodup)
  have hkeep : ∀ m ∈ f.roots, keep m.id = true := by
    intro m hm
    have hroot : d.forest.roots.any (isNode m.id) = true := by
      rw [← any_isNode_bare]
      refine List.any_eq_true.2 ⟨m, h.same.roots.mem_iff.2 ?_, isNode_iff.2 rfl⟩
      rw [roots_append]
      exact List.mem_append_left _ hm
    have hne : (m.id != n.id) = true := by
      rw [bne_iff_ne]
      refine hnodup.2.2 _ (mem_ids_of_mem (roots_subset_labels f hm)) _ ?_
      rw [ids_tree]
      exact List.mem_cons_self
    dsimp only [keep]
    rw [hroot, hne, Bool.and_self, Bool.or_true]
  refine ⟨(tree n cs).retain fun m => keep m.id, ?_⟩
  have hids := ((labels_retain_sublist (fun m => keep m.id) (tree n cs)).map Node.id)
  refine ⟨?_, ?_, fun id hid => h.below id ?_⟩
  · have hmap := map_retain (h := Node.bare (L := L)) (p := fun m => keep m.id) (q := fun m => keep m.id)
      (fun _ => rfl) d.forest
    have hsame := h.same.retain fun m => keep m.id
    rw [retain_append, retain_of_roots hkeep] at hsame
    exact (Same.of_eq hmap).trans hsame
  · rw [ids_append]
    exact ((List.Sublist.refl _).append hids).nodup (ids_append f (tree n cs) ▸ h.nodup)
  · rw [ids_append] at hid ⊢
    exact ((List.Sublist.refl _).append hids).subset hid

/-- a node is taken out; what was below it is no longer where it was -/
theorem Holds.discard (h : d.Holds f) (held : NodeId → Bool) (id : NodeId) :
    ∃ g, ((d.detach id).release held id).Holds (f.prune (isNode id) ++ g) := by
  by_cases hid : id ∈ f.ids
  · obtain ⟨n, hn, rfl⟩ := List.mem_map.1 hid
    by_cases hr : n ∈ f.roots
    · obtain ⟨cs, hcs⟩ := exists_tree hr
      have hdetach : d.detach n.id = d := by
        rw [Document.detach, h.parent?_eq_none (not_child_of_root h.nodup hr)]
      rw [hdetach]
      have hsame := same_prune_root (count_of_subtree h (trees_subset_subtrees f hcs)) hcs (isNode_iff.2 rfl)
      exact (h.of_same hsame).release held
    · obtain ⟨cs, hcs⟩ := exists_subtree hn
      exact (h.detach hcs hr).release held
  · have hdetach : d.detach id = d := by
      rw [Document.detach, h.find?_none hid]
      split
      · next h2 => cases h2
      · rfl
    rw [hdetach, prune_of_none (isNode_of_not_mem hid)]
    refine ⟨nil, ?_⟩
    rw [append_nil]
    have hforest : (d.release held id).forest = d.forest := by
      refine retain_of_roots fun m hm => ?_
      have hne : m.id ≠ id := by
        rintro rfl
        refine hid ((h.same.labels.map Node.id).mem_iff.1 ?_)
        rw [← ids, ids_bare]
        exact mem_ids_of_mem (roots_subset_labels _ hm)
      have hroot : d.forest.roots.any (isNode m.id) = true := List.any_eq_true.2 ⟨m, hm, isNode_iff.2 rfl⟩
      show (held m.id || (d.forest.roots.any (isNode m.id) && m.id != id)) = true
      rw [hroot, bne_iff_ne.2 hne, Bool.and_self, Bool.or_true]
    exact ⟨hforest ▸ h.same, h.nodup, h.below⟩

end

end Document

end LiveMarkup
