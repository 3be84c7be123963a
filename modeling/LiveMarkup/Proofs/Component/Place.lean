/-
Where a block goes.

Mounting puts a block before the anchor. What it puts there is a forest whose roots are the block's tops, and everything
else in the document stays as it is; if the mount fails, all of it does. `Block.Places` says so of one block, and a row
is mounted when each of its blocks has this.

- `TextBlock.places`: a text block, wherever it is put;
- `mountRow_placed`: the blocks of a row, each in the place of its marker.
-/
import LiveMarkup.Proofs.Component.Marks
import LiveMarkup.Proofs.Component.Row
import LiveMarkup.Proofs.Component.Tops

namespace LiveMarkup

open Markup Marker Forest

variable {H : Host}

/-! ## Single nodes -/

/-- what is in a fragment goes before the anchor, and the handle of the fragment is left behind -/
theorem Document.Holds.insertOut {L : Type} {d : Document L} {r : Bare} {x U Q : Forest Bare}
    (h : d.Holds (tree r x ++ (U ++ Q))) (hk : r.kind.isFragment = true) {target : NodeId} (ht : target ∈ Q.ids)
    {anchor : Option NodeId} (ha : ∀ a ∈ anchor, a ∉ x.ids) : (d.insertBefore target r.id anchor).Holds
      (Q.graft (isNode target) (Forest.insertBefore (isAnchor anchor) x) ++ (U ++ tree r nil)) := by
  have hnot : target ∉ U.ids := fun hin => by
    have hnodup := h.nodup
    rw [ids_append, ids_append] at hnodup
    exact (List.nodup_append.1 (List.nodup_append.1 hnodup).2.1).2.2 _ hin _ ht rfl
  have hinsert := (h.of_same (Same.comm _ _)).insertFragment hk
    (by rw [ids_append]; exact List.mem_append_right _ ht) ha
  rw [graft_append, graft_of_none (isNode_of_not_mem hnot)] at hinsert
  refine hinsert.of_same ?_
  simp only [Same, trees_append, ← Multiset.coe_eq_coe, ← Multiset.coe_add]
  abel

/-- a root of a skeleton whose marker has not been filled is still a root -/
theorem Forest.mem_roots_fillBy {f : Forest Bare} {fills : List (Marker × Forest Bare)} {n : Bare} (hn : n ∈ f.roots)
    (hl : n.kind.marker?.bind (fills.lookup ·) = none) : n ∈ (f.fillBy fills).roots := by
  induction f with
  | nil => cases hn
  | cons b cs rest _ ih =>
    rw [fillBy, fill_cons, roots_append]
    rcases List.mem_cons.1 hn with rfl | hn
    · rw [fill_tree_of_none hl]
      exact List.mem_append_left _ List.mem_cons_self
    · exact List.mem_append_right _ (ih hn)

/-- a root of a filled skeleton was a root, or was put in -/
theorem Forest.root_of_fillBy {f : Forest Bare} {fills : List (Marker × Forest Bare)} {n : Bare}
    (hn : n ∈ (f.fillBy fills).roots) : n ∈ f.roots ∨ ∃ e ∈ fills, n ∈ e.2.roots := by
  induction f with
  | nil => cases hn
  | cons b cs rest _ ih =>
    rw [fillBy, fill_cons, roots_append, List.mem_append] at hn
    rcases hn with hn | hn
    · cases hx : b.kind.marker?.bind (fills.lookup ·) with
      | none =>
        rw [fill_tree_of_none hx] at hn
        exact .inl (List.mem_singleton.1 hn ▸ List.mem_cons_self)
      | some x =>
        rw [fill_tree_of_some hx] at hn
        obtain ⟨m, -, hm⟩ := Option.bind_eq_some_iff.1 hx
        exact .inr ⟨_, mem_of_lookup hm, hn⟩
    · exact (ih hn).imp_left (List.mem_cons_of_mem _)

/-- what is put in the place of a marker at the top level is there in the end -/
theorem Forest.mem_ids_fillBy_of_root {f x : Forest Bare} {fills : List (Marker × Forest Bare)} {n : Bare}
    (hn : n ∈ f.roots) (hx : n.kind.marker?.bind (fills.lookup ·) = some x) : x.ids ⊆ (f.fillBy fills).ids := by
  induction f with
  | nil => cases hn
  | cons b cs rest _ ih =>
    rw [fillBy, fill_cons, ids_append]
    rcases List.mem_cons.1 hn with rfl | hn
    · rw [fill_tree_of_some hx]
      exact List.subset_append_left _ _
    · exact List.Subset.trans (ih hn) (List.subset_append_right _ _)

/-! ## Blocks -/

/-- a block has put `M` somewhere, and `L` is what it has besides; `X` is what it had before -/
structure Placed (b : Block H) (M L X : Forest Bare) : Prop where
  tops : M.roots.map Node.top = b.tops
  ids : (M ++ L).ids ⊆ X.ids
  detached : b.detached ⊆ (M ++ L).ids
  taken : b.tops.map (·.node) ⊆ b.detached
  own : ∀ c, b = .component c → c.roots = (c.tops.map (·.node)).filter (· ∉ c.nestedTops) ∧
    c.roots.length = c.core.template.breadth

namespace Placed

variable {b : Block H} {M L X : Forest Bare}

theorem mounted_subset (h : Placed b M L X) : M.ids ⊆ X.ids := by
  refine List.Subset.trans ?_ h.ids
  rw [ids_append]
  exact List.subset_append_left _ _

theorem left_subset (h : Placed b M L X) : L.ids ⊆ X.ids := by
  refine List.Subset.trans ?_ h.ids
  rw [ids_append]
  exact List.subset_append_right _ _

/-- the nodes at the top level are the block's own -/
theorem tops_subset (h : Placed b M L X) : b.tops.map (·.node) ⊆ X.ids := by
  intro id hid
  rw [← h.tops, List.map_map] at hid
  obtain ⟨n, hn, rfl⟩ := List.mem_map.1 hid
  exact h.mounted_subset (mem_ids_of_mem (roots_subset_labels M hn))

end Placed

/-- a mount, in every outcome: the block's nodes are before the anchor, or nothing is; all of `Q` is left alone -/
structure Placing (X Q : Forest Bare) (target : NodeId) (anchor : Option NodeId) (w : World H)
    (o : Outcome H (Block H)) : Prop where
  backend : o.world.backend = w.backend
  calm : o.self.Calm
  outcome : (o.result = .ok () ∧ ∃ M L G, Placed o.self M L X ∧ o.world.document.Holds
      (Q.graft (Document.isNode target) (Forest.insertBefore (isAnchor anchor) M) ++ (L ++ G))) ∨
    (∃ fault, o.result = .error fault) ∧ ∃ Z, o.world.document.Holds (Z ++ Q)

variable [ForeignBlocks H]

/-- wherever this block is put, everything else is left alone -/
def Block.Places (b : Block H) (X : Forest Bare) : Prop :=
  ∀ (target : NodeId) (anchor : Option NodeId) (w : World H) (Q : Forest Bare), w.backend = .faithful →
    w.document.Holds (Q ++ X) → target ∈ Q.ids → (∀ a ∈ anchor, a ∉ X.ids) →
      Placing X Q target anchor w (b.mountCreated target anchor w)

theorem TextBlock.places {t : TextBlock} {n : Bare} (hn : t.node = some n.id) (hplain : n.Plain) :
    (Block.text t : Block H).Places (tree n nil) := by
  intro target anchor w Q _ hw ht _
  rw [TextBlock.mountCreated_eq hn]
  refine ⟨rfl, ⟨trivial, trivial⟩, .inl ⟨rfl, tree n nil, nil, nil, ⟨?_, List.Subset.refl _, ?_, ?_,
    fun _ h => by cases h⟩, ?_⟩⟩
  · show [Node.top n] = t.node.toList.map (⟨·, none⟩)
    rw [hn, Node.top, hplain.tag]
    rfl
  · show t.node.toList ⊆ _
    rw [hn]
    exact List.Subset.refl _
  · show (t.node.toList.map fun id => (⟨id, none⟩ : Top)).map (·.node) ⊆ t.node.toList
    rw [hn]
    exact List.Subset.refl _
  · rw [append_nil, append_nil]
    exact hw.insertRoot hplain.fragment ht anchor

/-! ## Rows -/

omit [ForeignBlocks H] in
/-- what is in the place of a marker; at the top level it is what is at the top level of the block -/
structure Filled (f X : Forest Bare) (category : Category) (row : List (Nested H)) (e : Nat × NodeId)
    (given : Marker × Forest Bare) : Prop where
  marker : given.1 = ⟨category, e.1⟩
  ids : given.2.ids ⊆ X.ids
  tops : e.2 ∈ f.roots.map Node.id → given.2.roots.map Node.top = topsAt row e.1
  taken : e.2 ∈ f.roots.map Node.id → (topsAt row e.1).map (·.node) ⊆ detachedOf row

/-- a row has been mounted: what is in the places of the markers, and besides; `G` is what markers have left behind -/
structure RowPlaced (r : Bare) (f : Forest Bare) (fills : List (Marker × Forest Bare)) (category : Category)
    (spots : List (Nat × NodeId)) (X Q : Forest Bare) (row : List (Nested H)) (d : Document (Listener H.Handler)) :
    Prop where
  tops : topsOf row ⊆ X.ids
  holds : ∃ given L G, d.Holds (tree r (f.fillBy (fills ++ given)) ++ (G ++ (L ++ Q))) ∧ L.ids ⊆ X.ids ∧
    List.Forall₂ (Filled f X category row) spots given ∧ ∀ id ∈ detachedOf row, id ∈ L.ids ∨
      ∃ e ∈ given, (∃ b ∈ f.roots, b.kind.marker? = some e.1) ∧ id ∈ e.2.ids

/-- mounting a row, in every outcome -/
structure RowPlacing (r : Bare) (f : Forest Bare) (fills : List (Marker × Forest Bare)) (category : Category)
    (spots : List (Nat × NodeId)) (X Q : Forest Bare) (row : List (Nested H)) (w : World H)
    (o : Outcome H (List (Nested H))) : Prop where
  backend : o.world.backend = w.backend
  calm : ∀ n ∈ o.self, n.block.Calm
  indices : o.self.map Nested.index = row.map Nested.index
  outcome : (o.result = .ok () ∧ RowPlaced r f fills category spots X Q o.self o.world.document) ∨
    (∃ fault, o.result = .error fault) ∧ ∃ Z, o.world.document.Holds (Z ++ Q)

omit [ForeignBlocks H] in
/-- what a row has in the place of a marker, it has with one more block that is for another marker -/
theorem Filled.cons {f X Y : Forest Bare} {category : Category} {row : List (Nested H)} {e : Nat × NodeId}
    {given : Marker × Forest Bare} (h : Filled f X category row e given) {n : Nested H} (hn : n.index ≠ e.1) :
    Filled f (Y ++ X) category (n :: row) e given := by
  obtain ⟨index, atRoot, block⟩ := n
  have hne : ¬ index = e.1 := hn
  have htops : topsAt (.mk index atRoot block :: row) e.1 = topsAt row e.1 := by
    rw [topsAt, if_neg hne]
  refine ⟨h.marker, ?_, fun hroot => by rw [htops]; exact h.tops hroot, fun hroot => ?_⟩
  · rw [ids_append]
    exact List.Subset.trans h.ids (List.subset_append_right _ _)
  · rw [htops, detachedOf]
    exact List.Subset.trans (h.taken hroot) (List.subset_append_right _ _)

section

variable {r : Bare} {f Q : Forest Bare} {others : List NodeId} {category : Category}

omit [ForeignBlocks H] in
/-- a marker at the top level of the skeleton is at the top level of the fragment until its turn comes -/
theorem Spotted.parent? {fills : List (Marker × Forest Bare)} {i : Nat} {s : NodeId} {spots : List (Nat × NodeId)}
    (h : Spotted f fills category ((i, s) :: spots) others) {d : Document (Listener H.Handler)} {R : Forest Bare}
    (hd : d.Holds (tree r (f.fillBy fills) ++ R)) (hs : s ∈ f.roots.map Node.id) : d.parent? s = some r.id := by
  obtain ⟨n, rfl, hn⟩ := h.carrier _ List.mem_cons_self
  obtain ⟨b, hb, hid⟩ := List.mem_map.1 hs
  obtain rfl : b = n := List.inj_on_of_nodup_map h.nodup (roots_subset_labels f hb) hn.mem hid
  have hroot : b ∈ (f.fillBy fills).roots := mem_roots_fillBy hb (by
    rw [hn.marker]
    exact h.free _ List.mem_cons_self)
  exact hd.parent? Document.mem_subtrees_tree (List.any_eq_true.2 ⟨b, hroot, Document.isNode_iff.2 rfl⟩)

omit [ForeignBlocks H] in
/-- what is at the top level of the fragment is at the top level of the skeleton -/
theorem Spotted.root_of_parent? {fills : List (Marker × Forest Bare)} {i : Nat} {s : NodeId}
    {spots : List (Nat × NodeId)} (h : Spotted f fills category ((i, s) :: spots) others)
    {R : Forest Bare} (hn : (tree r (f.fillBy fills) ++ R).ids.Nodup) {n : Bare} {cs : Forest Bare}
    (hs : (n, cs) ∈ (tree r (f.fillBy fills) ++ R).subtrees) (hcs : cs.roots.any (Document.isNode s) = true)
    (hr : n.id = r.id) : ∃ b ∈ f.roots, b.id = s ∧ b.kind.marker? = some ⟨category, i⟩ := by
  obtain ⟨rfl, rfl⟩ := Prod.mk.inj (Document.subtree_unique hn hs Document.mem_subtrees_tree hr)
  obtain ⟨b, hb, hid⟩ := List.any_eq_true.1 hcs
  rw [Document.isNode_iff] at hid
  have hroot : b ∈ f.roots := by
    refine (root_of_fillBy hb).resolve_right ?_
    rintro ⟨e, he, hin⟩
    exact h.filled _ List.mem_cons_self e he (hid ▸ mem_ids_of_mem (roots_subset_labels _ hin))
  obtain ⟨k, hk, hcarrier⟩ := h.carrier _ List.mem_cons_self
  obtain rfl : b = k := List.inj_on_of_nodup_map h.nodup (roots_subset_labels _ hroot) hcarrier.mem (hid.trans hk.symm)
  exact ⟨b, hroot, hid, hcarrier.marker⟩

omit [ForeignBlocks H] in
/-- a block has been dealt with, and then the rest of its row: `M` is in the place of its marker, `U` is what it has
besides -/
theorem RowPlacing.cons {fills : List (Marker × Forest Bare)} {index : Nat} {s : NodeId} {spots : List (Nat × NodeId)}
    {first kept M U : Forest Bare} {row : List (Nested H)} {atRoot root : Bool} {block b : Block H} {w u : World H}
    {o : Outcome H (List (Nested H))}
    (h : RowPlacing r f (fills ++ [(⟨category, index⟩, M)]) category spots kept (U ++ Q) row u o)
    (hbackend : u.backend = w.backend) (hne : ∀ e ∈ spots, index ≠ e.1) (hcalm : b.Calm) (hM : M.ids ⊆ first.ids)
    (hU : U.ids ⊆ first.ids) (htops : b.tops.map (·.node) ⊆ first.ids)
    (hroot : s ∈ f.roots.map Node.id →
      root = true ∧ M.roots.map Node.top = b.tops ∧ b.tops.map (·.node) ⊆ b.detached)
    (hdetached : root = true → ∀ id ∈ b.detached, id ∈ U.ids ∨
      (∃ b ∈ f.roots, b.kind.marker? = some ⟨category, index⟩) ∧ id ∈ M.ids) :
    RowPlacing r f fills category ((index, s) :: spots) (first ++ kept) Q (.mk index atRoot block :: row) w
      (o.map (.mk index root b :: ·)) := by
  refine ⟨h.backend.trans hbackend, List.forall_mem_cons.2 ⟨hcalm, h.calm⟩, congrArg (index :: ·) h.indices, ?_⟩
  rcases h.outcome with ⟨hok, hplaced⟩ | ⟨herr, Z, hZ⟩
  · obtain ⟨given, L, G, hG, hL, hgiven, hrest⟩ := hplaced.holds
    refine .inl ⟨hok, ?_, (⟨category, index⟩, M) :: given, L ++ U, G, ?_, ?_,
      .cons ⟨rfl, ?_, fun hin => ?_, fun hin => ?_⟩ ?_, fun id hid => ?_⟩
    · show b.tops.map (·.node) ++ topsOf o.self ⊆ _
      rw [ids_append]
      exact List.append_subset.2 ⟨List.Subset.trans htops (List.subset_append_left _ _),
        List.Subset.trans hplaced.tops (List.subset_append_right _ _)⟩
    · rw [List.append_cons, append_assoc]
      exact hG
    · rw [ids_append, ids_append]
      exact List.append_subset.2 ⟨List.Subset.trans hL (List.subset_append_right _ _),
        List.Subset.trans hU (List.subset_append_left _ _)⟩
    · rw [ids_append]
      exact List.Subset.trans hM (List.subset_append_left _ _)
    · show _ = if index = index then b.tops else topsAt o.self index
      rw [if_pos rfl]
      exact (hroot hin).2.1
    · show (if index = index then b.tops else topsAt o.self index).map (·.node) ⊆
        (if root then b.detached else []) ++ detachedOf o.self
      rw [if_pos rfl, (hroot hin).1, if_pos rfl]
      exact List.Subset.trans (hroot hin).2.2 (List.subset_append_left _ _)
    · exact ((List.forall₂_and_left _ _).2 ⟨hne, hgiven⟩).imp fun e g hg => hg.2.cons hg.1
    · have hid : id ∈ (if root then b.detached else []) ++ detachedOf o.self := hid
      rw [ids_append, List.mem_append]
      rcases List.mem_append.1 hid with hid | hid
      · cases root with
        | false => cases hid
        | true => exact (hdetached rfl id hid).imp .inr fun hin => ⟨_, List.mem_cons_self, hin⟩
      · exact (hrest id hid).imp .inl fun ⟨e, he, hin⟩ => ⟨e, List.mem_cons_of_mem _ he, hin⟩
  · exact .inr ⟨herr, Z ++ U, by rw [append_assoc]; exact hZ⟩

omit [ForeignBlocks H] in
/-- a marker that no block of the row is for has been taken out, and then the row -/
theorem RowPlacing.skip {fills : List (Marker × Forest Bare)} {i : Nat} {s : NodeId} {spots : List (Nat × NodeId)}
    {X : Forest Bare} {row : List (Nested H)} {w u : World H} {o : Outcome H (List (Nested H))}
    (h : RowPlacing r f (fills ++ [(⟨category, i⟩, nil)]) category spots X Q row u o) (hbackend : u.backend = w.backend)
    (hi : i ∉ row.map Nested.index) : RowPlacing r f fills category ((i, s) :: spots) X Q row w o := by
  refine ⟨h.backend.trans hbackend, h.calm, h.indices, h.outcome.imp_left ?_⟩
  rintro ⟨hok, hplaced⟩
  obtain ⟨given, L, G, hG, hL, hgiven, hdetached⟩ := hplaced.holds
  have hnone := topsAt_of_not_mem (h.indices ▸ hi)
  refine ⟨hok, hplaced.tops, (⟨category, i⟩, nil) :: given, L, G, ?_, hL, .cons ?_ hgiven, fun id hid => ?_⟩
  · rw [List.append_cons]
    exact hG
  · refine ⟨rfl, List.nil_subset _, fun _ => hnone.symm, fun _ => ?_⟩
    rw [show topsAt _ (i, s).1 = [] from hnone]
    exact List.nil_subset _
  · refine (hdetached id hid).imp_right ?_
    rintro ⟨e, he, hin⟩
    exact ⟨e, List.mem_cons_of_mem _ he, hin⟩

omit [ForeignBlocks H] in
/-- a block has been put before the next marker, and the marker is taken out: what the block has put there is in its
place, at the top level if the marker was there -/
theorem Spotted.seat {fills : List (Marker × Forest Bare)} {i : Nat} {s : NodeId} {spots : List (Nat × NodeId)}
    (hs : Spotted f fills category ((i, s) :: spots) others) (hr : r.id ∈ others) {G R first M L g : Forest Bare}
    (hR : ∀ id ∈ R.ids, id ∈ others) (hfirst : ∀ id ∈ first.ids, id ∈ others) {b : Block H}
    (hplaced : Placed b M L first) (hnodup : (tree r (f.fillBy fills) ++ (G ++ R)).ids.Nodup) {n : Bare} {cs : Forest Bare}
    (hsub : (n, cs) ∈ (tree r (f.fillBy fills) ++ (G ++ R)).subtrees) (hcs : cs.roots.any (Document.isNode s) = true)
    {d : Document (Listener H.Handler)} (hd : d.Holds ((tree r (f.fillBy fills) ++ (G ++ R)).graft
      (Document.isNode n.id) (Forest.insertBefore (isAnchor (some s)) M) ++ (L ++ g))) (held : NodeId → Bool) :
    Spotted f (fills ++ [(⟨category, i⟩, M)]) category spots others ∧
      (∃ G', ((d.detach s).release held s).Holds (tree r (f.fillBy (fills ++ [(⟨category, i⟩, M)])) ++
        (G' ++ (L ++ R)))) ∧
      (n.id = r.id → ∀ id ∈ b.detached, id ∈ L.ids ∨
        (∃ b ∈ f.roots, b.kind.marker? = some ⟨category, i⟩) ∧ id ∈ M.ids) := by
  have hso := hs.outside _ List.mem_cons_self
  obtain ⟨hfill, hnext⟩ := hs.step fun id hid => hfirst id (hplaced.mounted_subset hid)
  refine ⟨hnext, hfill ▸ Document.Holds.discard_mounted hnodup hsub hcs hd (fun e => hso (by rw [e]; exact hr))
    (fun hin => hso (hR _ hin)) (fun hin => hso (hfirst _ (hplaced.mounted_subset hin)))
    (fun hin => hso (hfirst _ (hplaced.left_subset hin))) held, fun he id hid => ?_⟩
  have hid := hplaced.detached hid
  rw [ids_append, List.mem_append] at hid
  refine hid.symm.imp_right fun hid => ⟨?_, hid⟩
  obtain ⟨b, hb, -, hm⟩ := hs.root_of_parent? hnodup hsub hcs he
  exact ⟨b, hb, hm⟩

omit [ForeignBlocks H] in
/-- the first block of a row in order is the one for the first marker, if there is one for that -/
theorem Nested.exists_head {row : List (Nested H)} {i : Nat} {is : List Nat}
    (h : (row.map Nested.index).Sublist (i :: is)) (hi : i ∈ row.map Nested.index) (his : i ∉ is) :
    ∃ atRoot block rest, row = .mk i atRoot block :: rest ∧ (rest.map Nested.index).Sublist is := by
  cases row with
  | nil => cases hi
  | cons n rest =>
    obtain ⟨index, atRoot, block⟩ := n
    rcases List.cons_sublist_cons'.1 h with hlater | ⟨rfl, hrest⟩
    · exact absurd (hlater.subset hi) his
    · exact ⟨atRoot, block, rest, rfl, hrest⟩

/-- **A row.** Its blocks are mounted one after another, each in the place of its marker, up to the first that fails. -/
theorem mountRow_placed {row : List (Nested H)} {X : Forest Bare}
    (h : alongRow (fun b X => b.Unplaced true X ∧ b.Calm ∧ b.Places X) row X) (held later : List NodeId)
    (spots : List (Nat × NodeId)) (his : (row.map Nested.index).Sublist (spots.map (·.1))) (w : World H)
    (hb : w.backend = .faithful) {fills : List (Marker × Forest Bare)} {G : Forest Bare}
    (hs : Spotted f fills category spots others) (hr : r.id ∈ others) (hK : ∀ id ∈ (X ++ Q).ids, id ∈ others)
    (hw : w.document.Holds (tree r (f.fillBy fills) ++ (G ++ (X ++ Q)))) :
    RowPlacing r f fills category spots X Q row w (mountRow r.id held later row spots w) := by
  induction spots generalizing row X Q held w fills G with
  | nil =>
    obtain rfl : row = [] := List.map_eq_nil_iff.1 (List.sublist_nil.1 his)
    obtain rfl : X = nil := h
    refine ⟨rfl, fun _ hn => absurd hn List.not_mem_nil, rfl, .inl ⟨rfl, List.nil_subset _, [], nil, G, ?_,
      List.nil_subset _, .nil, fun _ hid => absurd hid List.not_mem_nil⟩⟩
    rw [List.append_nil]
    exact hw
  | cons e spots ih =>
    obtain ⟨i, s⟩ := e
    have hso := hs.outside _ List.mem_cons_self
    have hsr : s ≠ r.id := fun e => hso (by rw [e]; exact hr)
    have hdistinct := hs.distinct
    rw [List.map_cons, List.nodup_cons] at hdistinct
    rw [List.map_cons] at his
    by_cases hi : i ∈ row.map Nested.index
    · obtain ⟨atRoot, block, row, rfl, hrest⟩ := Nested.exists_head his hi hdistinct.1
      obtain ⟨first, kept, ⟨hunplaced, hcalm, hplaces⟩, hkept, rfl⟩ := h
      rw [append_assoc] at hw hK
      have hne : ∀ e ∈ spots, i ≠ e.1 := fun e he hi => hdistinct.1 (List.mem_map.2 ⟨e, he, hi.symm⟩)
      have hKfirst : ∀ id ∈ first.ids, id ∈ others := fun id hid => hK id (by
        rw [ids_append]
        exact List.mem_append_left _ hid)
      have hKkept : ∀ id ∈ (kept ++ Q).ids, id ∈ others := fun id hid => hK id (by
        rw [ids_append]
        exact List.mem_append_right _ hid)
      have hsK : s ∉ (kept ++ Q).ids := fun hin => hso (hKkept _ hin)
      -- what the first block has besides is left alone from then on
      have hKnext : ∀ {U : Forest Bare}, U.ids ⊆ first.ids → ∀ id ∈ (kept ++ (U ++ Q)).ids, id ∈ others := by
        intro U hU id hid
        rw [ids_append, ids_append, List.mem_append, List.mem_append] at hid
        rcases hid with hid | hid | hid
        · exact hKkept id (by rw [ids_append]; exact List.mem_append_left _ hid)
        · exact hKfirst id (hU hid)
        · exact hKkept id (by rw [ids_append]; exact List.mem_append_right _ hid)
      rw [mountRow_cons]
      cases hp : w.document.parent? s with
      | none =>
        -- the marker has lost its place: the block is left as it is
        obtain ⟨hfill, hnext⟩ := hs.step (x := nil) fun _ hid => absurd hid List.not_mem_nil
        have hw' : w.document.Holds (tree r (f.fillBy fills) ++ (G ++ (kept ++ (first ++ Q)))) :=
          hw.of_same (Same.append (Same.refl _) (Same.append (Same.refl G) (Same.left_comm first kept Q)))
        obtain ⟨G', hG'⟩ := hw'.discard_in hsr (fun hin => hso (hKnext (List.Subset.refl _) _ hin))
          (held ++ (spots.map (·.2) ++ later)).contains
        rw [hfill] at hG'
        have hrow := ih hkept held hrest (w.discard (held ++ (spots.map (·.2) ++ later)) s) hb hnext
          (hKnext (List.Subset.refl _)) hG'
        refine hrow.cons rfl hne hcalm (List.nil_subset _) (List.Subset.refl _) hunplaced.tops (fun hroot => ?_)
          fun _ id hid => .inl (hunplaced.detached hid)
        rw [hs.parent? hw hroot] at hp
        cases hp
      | some p =>
        have hsame : (tree r (f.fillBy fills) ++ (G ++ (first ++ (kept ++ Q)))).Same
            (tree r (f.fillBy fills) ++ (G ++ (kept ++ Q)) ++ first) := by
          simp only [Same, trees_append, ← Multiset.coe_eq_coe, ← Multiset.coe_add]
          abel
        have hroot : s ∈ f.roots.map Node.id → p = r.id := fun hin =>
          Option.some.inj (hp.symm.trans (hs.parent? hw hin))
        have hw' := hw.of_same hsame
        obtain ⟨⟨n, cs⟩, hsub, rfl, hcs⟩ := hw'.parent?_eq_some hp
        rw [subtrees_append, List.mem_append] at hsub
        have hsub := hsub.resolve_right fun hin => by
          obtain ⟨o, ho, hos⟩ := List.any_eq_true.1 hcs
          rw [Document.isNode_iff] at hos
          exact hso (hKfirst _ (hos ▸ mem_ids_of_mem (labels_subset_of_subtree hin (roots_subset_labels cs ho))))
        have hanchor : ∀ a ∈ some s, a ∉ first.ids := fun a ha hin => by
          obtain rfl := Option.mem_some_iff.1 ha
          exact hso (hKfirst _ hin)
        have hmount := hplaces n.id (some s) w _ hb hw' (mem_ids_of_mem (mem_labels_of_subtree hsub)) hanchor
        dsimp only
        generalize block.mountCreated n.id (some s) w = o at hmount
        rcases hmount.outcome with ⟨hok, M, L, g, hplaced, hM⟩ | ⟨⟨fault, herr⟩, Z, hZ⟩
        · have hnodup := (List.nodup_append.1 (ids_append _ first ▸ hw'.nodup)).1
          obtain ⟨hnext, ⟨G', hG'⟩, hdetached⟩ := hs.seat hr hKkept hKfirst hplaced hnodup hsub hcs hM
            (held ++ o.self.handles ++ (spots.map (·.2) ++ later)).contains
          have hG' := hG'.of_same (Same.append (Same.refl _) (Same.append (Same.refl G')
            (Same.left_comm L kept Q)))
          rw [hok]
          have hrow := ih hkept (held ++ o.self.handles) hrest (o.world.discard _ s) (hmount.backend.trans hb) hnext
            (hKnext hplaced.left_subset) hG'
          exact hrow.cons hmount.backend hne hmount.calm hplaced.mounted_subset hplaced.left_subset hplaced.tops_subset
            (fun hin => ⟨beq_iff_eq.2 (hroot hin), hplaced.tops, hplaced.taken⟩) fun he => hdetached (beq_iff_eq.1 he)
        · have hrow : ∀ n ∈ row, n.block.Calm := fun n hn => by
            obtain ⟨-, ⟨-, hcalm, -⟩, -⟩ := alongRow_forall hkept n hn
            exact hcalm
          rw [herr]
          refine ⟨hmount.backend, List.forall_mem_cons.2 ⟨hmount.calm, hrow⟩, rfl, .inr ⟨⟨fault, rfl⟩,
            Z ++ (tree r (f.fillBy fills) ++ (G ++ kept)), hZ.of_same ?_⟩⟩
          simp only [Same, trees_append, ← Multiset.coe_eq_coe, ← Multiset.coe_add]
          abel
    · -- no block is for this marker
      obtain ⟨held', hskip⟩ := mountRow_skip r.id held later row hi s spots w
      obtain ⟨hfill, hnext⟩ := hs.step (x := nil) fun _ hid => absurd hid List.not_mem_nil
      obtain ⟨G', hG'⟩ := hw.discard_in hsr (fun hin => hso (hK _ hin)) held'.contains
      rw [hfill] at hG'
      have hrest : (row.map Nested.index).Sublist (spots.map (·.1)) :=
        (List.sublist_cons_iff.1 his).resolve_right (by
          rintro ⟨is, he, -⟩
          exact hi (by rw [he]; exact List.mem_cons_self))
      have hrow := ih h held hrest (w.discard held' s) hb hnext hK hG'
      rw [hskip]
      exact hrow.skip rfl hi

/-- one row after another: what is in the places of the markers of the first stays there -/
theorem RowPlaced.next {fills : List (Marker × Forest Bare)} {category' : Category} {spots spots' : List (Nat × NodeId)}
    {X Y : Forest Bare} {row row' : List (Nested H)} {w : World H}
    (h : RowPlaced r f fills category spots X (Y ++ Q) row w.document) (hne : category ≠ category')
    (hrow : alongRow (fun b X => b.Unplaced true X ∧ b.Calm ∧ b.Places X) row' Y) (held later : List NodeId)
    (his : (row'.map Nested.index).Sublist (spots'.map (·.1))) (hb : w.backend = .faithful)
    (hs : Spotted f fills category' spots' others) (hr : r.id ∈ others) (hX : ∀ id ∈ (X ++ (Y ++ Q)).ids, id ∈ others) :
    ∃ given L, L.ids ⊆ X.ids ∧ List.Forall₂ (Filled f X category row) spots given ∧
      (∀ id ∈ detachedOf row, id ∈ L.ids ∨ ∃ e ∈ given, (∃ b ∈ f.roots, b.kind.marker? = some e.1) ∧ id ∈ e.2.ids) ∧
        RowPlacing r f (fills ++ given) category' spots' Y (L ++ Q) row' w
          (mountRow r.id held later row' spots' w) := by
  obtain ⟨given, L, G, hG, hL, hfilled, hdetached⟩ := h.holds
  refine ⟨given, L, hL, hfilled, hdetached, mountRow_placed hrow held later spots' his w hb (G := G)
    (hs.append (fun e he => ?_) fun e he id hid => hX id ?_) hr (fun id hid => hX id ?_) (hG.of_same ?_)⟩
  · obtain ⟨_, -, hfill⟩ := exists_of_forall₂ hfilled e he
    rw [hfill.marker]
    exact hne
  · obtain ⟨_, -, hfill⟩ := exists_of_forall₂ hfilled e he
    rw [ids_append]
    exact List.mem_append_left _ (hfill.ids hid)
  · rw [ids_append, ids_append, List.mem_append, List.mem_append] at hid
    rw [ids_append, ids_append, List.mem_append, List.mem_append]
    exact hid.elim (fun hin => .inr (.inl hin)) fun hid => hid.imp (fun hin => hL hin) .inr
  · simp only [Same, trees_append, ← Multiset.coe_eq_coe, ← Multiset.coe_add]
    abel

end

end LiveMarkup
