/-
Where a component goes.

A component that has been created is in a fragment of its own. Mounting it binds its text cells, mounts its slots and its
children in the places of their markers, and at last puts what is in the fragment before the anchor. `Core.Seated` says
where the blocks of a row are when that is over.

- `Core.fits_of_seated`: each root of the fragment is one of the component's tops, or what a nested block put there;
- `Component.mountCreated_cases`, `Core.Ready.mountBlocks`: what a mount comes to, up to the first block and from there on;
- `Block.Unplaced.places`: a block that has been created goes where it is put.
-/
import LiveMarkup.Proofs.Component.Place

namespace LiveMarkup

open Markup Marker Forest

variable {H : Host} [ForeignBlocks H]

/-! ## Components -/

/-- comes of a definition that was accepted, and its actions leave the document alone -/
structure Template.Fit (t : Template (Action H)) : Prop where
  accepted : t.Accepted
  quiet : t.Quiet

def Core.Fit (c : Core H) : Prop := c.template.Fit

namespace Core

variable {c : Core H} {r : Bare} {h : Bare → Bare} {node : TextCell → Bare} {category : Category}

omit [ForeignBlocks H] in
/-- the markers of slots or children that were found are still to come -/
theorem spotted_of_laid (hm : c.template.Marked) (hh : Touch h)
    (hc : CellNodes c.template.skeleton (r.id + 1) node c.textCells) (hcategory : category = .slot ∨ category = .child)
    {spots : List (Nat × NodeId)} (his : spots.map (·.1) = indicesOf c.template.placeholders category)
    (hall : ∀ e ∈ spots, ∃ n ∈ (c.laid r h node).labels, n.id = e.2 ∧ n.kind.answers ⟨category, e.1⟩ = true)
    {others : List NodeId} (ho : ∀ id ∈ (planted c.template.skeleton (r.id + 1)).ids, id ∉ others) :
    Spotted ((planted c.template.skeleton (r.id + 1)).map h) (c.textCells.map (TextCell.put node)) category spots
      others := by
  have hinTag : category.inTag = false := by rcases hcategory with rfl | rfl <;> rfl
  have hcarrier : ∀ e ∈ spots, ∃ n, n.id = e.2 ∧
      ((planted c.template.skeleton (r.id + 1)).map h).Carrier ⟨category, e.1⟩ n := by
    intro e he
    obtain ⟨n, hn, hid, ha⟩ := hall e he
    have hin : e.1 ∈ indicesOf c.template.placeholders category := his ▸ List.mem_map_of_mem he
    have hcount := hm ⟨category, e.1⟩ (mem_markersFor_zero.2 (mem_indicesOf.1 hin))
    exact ⟨n, hid, carrier_of_answers_map hh hcount hinTag (hc.mem_of_answers hn hinTag ha) ha⟩
  have hplanted : ∀ e ∈ spots, e.2 ∈ (planted c.template.skeleton (r.id + 1)).ids := by
    intro e he
    obtain ⟨n, hid, hn⟩ := hcarrier e he
    rw [← hid, ← ids_map hh]
    exact mem_ids_of_mem hn.mem
  refine ⟨by rw [ids_map hh]; exact nodup_planted _ _, by rw [his]; exact nodup_indicesOf _ _, hcarrier, fun e _ => ?_,
    fun e he x hx hid => ?_, fun e he => ho _ (hplanted e he)⟩
  · refine lookup_eq_none fun hin => ?_
    rw [List.map_map] at hin
    obtain ⟨cell, -, he⟩ := List.mem_map.1 hin
    have := (Marker.mk.inj he).1
    rcases hcategory with rfl | rfl <;> cases this
  · obtain ⟨cell, hcell, -, hx⟩ := mem_put hx
    rw [hx, ids_tree] at hid
    refine hc.outside cell hcell ?_
    rw [← (hc.nodes cell hcell).1, ← List.mem_singleton.1 hid]
    exact hplanted e he

/-- the blocks of a row have been mounted: `spots` are the markers of their category, `given` is what is in the places of
these, and `L` is what the blocks have besides -/
structure Seated (c : Core H) (f X L : Forest Bare) (category : Category) (spots : List (Nat × NodeId))
    (row : List (Nested H)) (given : List (Marker × Forest Bare)) : Prop where
  indices : spots.map (·.1) = indicesOf c.template.placeholders category
  carrier : ∀ e ∈ spots, ∃ n, n.id = e.2 ∧ f.Carrier ⟨category, e.1⟩ n
  filled : List.Forall₂ (Filled f X category row) spots given
  left : L.ids ⊆ X.ids
  tops : topsOf row ⊆ X.ids
  detached : ∀ id ∈ detachedOf row, id ∈ L.ids ∨
    ∃ e ∈ given, (∃ b ∈ f.roots, b.kind.marker? = some e.1) ∧ id ∈ e.2.ids

namespace Seated

variable {f X L : Forest Bare} {spots : List (Nat × NodeId)} {row : List (Nested H)}
  {given : List (Marker × Forest Bare)}

omit [ForeignBlocks H]

theorem keys (h : c.Seated f X L category spots row given) :
    given.map (·.1) = (indicesOf c.template.placeholders category).map (Marker.mk category) := by
  rw [← h.indices, List.map_map]
  exact map_eq_of_forall₂ h.filled fun _ _ hg => hg.marker

/-- a marker at the top level is among those of its category -/
theorem of_root (h : c.Seated f X L category spots row given) {b : Bare} (hb : b ∈ f.roots) {i : Nat}
    (hm : b.kind.marker? = some ⟨category, i⟩) (hi : i ∈ indicesOf c.template.placeholders category) :
    b.id ∈ spots.map (·.2) ∧ ∃ x, (⟨category, i⟩, x) ∈ given ∧ x.roots.map Node.top = topsAt row i ∧
      (topsAt row i).map (·.node) ⊆ detachedOf row := by
  obtain ⟨e, he, rfl⟩ := List.mem_map.1 (h.indices ▸ hi)
  obtain ⟨n, hid, hn⟩ := h.carrier e he
  obtain rfl := hn.unique b (roots_subset_labels f hb) hm
  obtain ⟨g, hg, hfilled⟩ := exists_of_forall₂ h.filled.flip e he
  have hroot : e.2 ∈ f.roots.map Node.id := hid ▸ List.mem_map_of_mem hb
  exact ⟨hid ▸ List.mem_map_of_mem he, g.2, hfilled.marker ▸ hg, hfilled.tops hroot, hfilled.taken hroot⟩

/-- what is no marker of the category is at none of its spots -/
theorem not_mem_spots (h : c.Seated f X L category spots row given) (hf : f.ids.Nodup) {b : Bare} (hb : b ∈ f.labels)
    (hm : ∀ i ∈ indicesOf c.template.placeholders category, b.kind.marker? ≠ some ⟨category, i⟩) :
    b.id ∉ spots.map (·.2) := by
  intro hin
  obtain ⟨e, he, hid⟩ := List.mem_map.1 hin
  obtain ⟨n, hn, hcarrier⟩ := h.carrier e he
  obtain rfl : b = n := List.inj_on_of_nodup_map hf hb hcarrier.mem (hid.symm.trans hn.symm)
  exact hm e.1 (h.indices ▸ List.mem_map_of_mem he) hcarrier.marker

theorem spots_subset (h : c.Seated f X L category spots row given) : spots.map (·.2) ⊆ f.ids := by
  intro id hin
  obtain ⟨e, he, rfl⟩ := List.mem_map.1 hin
  obtain ⟨n, hn, hcarrier⟩ := h.carrier e he
  exact hn ▸ mem_ids_of_mem hcarrier.mem

end Seated

section

variable {f X Y L L' : Forest Bare} {slotSpots childSpots : List (Nat × NodeId)} {slots children : List (Nested H)}
  {given given' : List (Marker × Forest Bare)}

omit [ForeignBlocks H] in
/-- the markers of the slots, and then those of the children -/
theorem Seated.keys_append (hs : c.Seated f X L .slot slotSpots slots given)
    (hk : c.Seated f Y L' .child childSpots children given') : (given ++ given').map (·.1) =
      (indicesOf c.template.placeholders .slot).map (Marker.mk .slot) ++
        (indicesOf c.template.placeholders .child).map (Marker.mk .child) := by
  rw [List.map_append, hs.keys, hk.keys]

omit [ForeignBlocks H] in
theorem keys_put (hindices : c.textCells.map (·.index) = indicesOf c.template.placeholders .text) :
    (c.textCells.map (TextCell.put node)).map (·.1) =
      (indicesOf c.template.placeholders .text).map (Marker.mk .text) := by
  rw [← hindices, List.map_map, List.map_map]
  rfl

omit [ForeignBlocks H] in
/-- what was put in the place of a marker is found there -/
theorem lookup_of_seated (node : TextCell → Bare)
    (hindices : c.textCells.map (·.index) = indicesOf c.template.placeholders .text)
    (hs : c.Seated f X L .slot slotSpots slots given) (hk : c.Seated f Y L' .child childSpots children given')
    {e : Marker × Forest Bare} (he : e ∈ given ++ given') :
    (c.textCells.map (TextCell.put node)).lookup e.1 = none ∧ (given ++ given').lookup e.1 = some e.2 := by
  have hkeys := hs.keys_append hk
  refine ⟨lookup_eq_none fun hin => ?_, lookup_of_mem ?_ he⟩
  · have hin' := List.mem_map_of_mem (f := fun e : Marker × Forest Bare => e.1) he
    rw [hkeys, List.mem_append] at hin'
    rw [keys_put hindices] at hin
    obtain ⟨i, -, hi⟩ := List.mem_map.1 hin
    rcases hin' with hin' | hin'
    · obtain ⟨j, -, hj⟩ := List.mem_map.1 hin'
      cases hi.trans hj.symm
    · obtain ⟨j, -, hj⟩ := List.mem_map.1 hin'
      cases hi.trans hj.symm
  · rw [hkeys]
    refine List.nodup_append.2 ⟨nodup_map_mk (nodup_indicesOf _ _), nodup_map_mk (nodup_indicesOf _ _), ?_⟩
    intro a ha b hb e
    obtain ⟨i, -, rfl⟩ := List.mem_map.1 ha
    obtain ⟨j, -, rfl⟩ := List.mem_map.1 hb
    cases e

variable {tops : Marker → List Top} {texts blocks : List (Marker × Forest Bare)} {spots nested : List NodeId}

omit [ForeignBlocks H] in
/-- a root that is no marker of the template is left alone -/
theorem fits_plain {b : Bare} (hno : ∀ category, ∀ i ∈ indicesOf c.template.placeholders category,
      b.kind.marker? ≠ some ⟨category, i⟩)
    (htexts : texts.map (·.1) = (indicesOf c.template.placeholders .text).map (Marker.mk .text))
    (hblocks : blocks.map (·.1) = (indicesOf c.template.placeholders .slot).map (Marker.mk .slot) ++
      (indicesOf c.template.placeholders .child).map (Marker.mk .child))
    (hown : b.id ∉ spots ∧ b.id ∉ nested) : Fits c.template tops texts blocks spots nested b := by
  have hnot : ∀ {m : Marker}, b.kind.marker? = some m → ∀ category, m ∉
      (indicesOf c.template.placeholders category).map (Marker.mk category) := by
    intro m hm category hin
    obtain ⟨i, hi, rfl⟩ := List.mem_map.1 hin
    exact hno category i hi hm
  refine .plain (fun m hm => ⟨?_, lookup_eq_none fun hin => ?_, lookup_eq_none fun hin => ?_⟩) ?_ hown
  · rw [Template.nests, Bool.and_eq_false_iff, List.contains_eq_mem, decide_eq_false_iff_not]
    exact .inr fun hin => hno m.category m.index hin hm
  · rw [htexts] at hin
    exact hnot hm _ hin
  · rw [hblocks, List.mem_append] at hin
    exact hin.elim (hnot hm _) (hnot hm _)
  · have hmarker : b.kind.tag?.bind ofTag? = b.kind.marker? := rfl
    rw [Template.shownTag, hmarker]
    cases hm : b.kind.marker? with
    | none => rfl
    | some m =>
      refine if_neg ?_
      rintro ⟨he, hi⟩
      exact hno .text m.index hi (by rw [hm, ← he])

omit [ForeignBlocks H] in
/-- in the place of the marker of a text is its node -/
theorem fits_text (hindices : c.textCells.map (·.index) = indicesOf c.template.placeholders .text)
    (hc : CellNodes c.template.skeleton (r.id + 1) node c.textCells) {cell : TextCell} (hcell : cell ∈ c.textCells)
    {b : Bare} (hm : b.kind.marker? = some ⟨.text, cell.index⟩) (hown : cell.node ∉ spots ∧ cell.node ∉ nested) :
    Fits c.template tops (c.textCells.map (TextCell.put node)) blocks spots nested b := by
  obtain ⟨hid, hplain⟩ := hc.nodes cell hcell
  have hi : cell.index ∈ indicesOf c.template.placeholders .text := hindices ▸ List.mem_map_of_mem hcell
  refine .text _ (node cell) hm rfl (lookup_of_mem ?_ (List.mem_map_of_mem hcell)) ?_ hplain.tag (hid ▸ hown)
  · rw [keys_put hindices]
    exact nodup_map_mk (nodup_indicesOf _ _)
  · have hmarker : b.kind.tag?.bind ofTag? = b.kind.marker? := rfl
    rw [Template.shownTag, hmarker, hm]
    exact if_pos ⟨rfl, hi⟩

omit [ForeignBlocks H] in
/-- in the place of the marker of a slot or a child is what the block has put there -/
theorem fits_block (hcategory : category = .slot ∨ category = .child)
    (hs : c.Seated f X L category slotSpots slots given) {b : Bare} (hb : b ∈ f.roots) {i : Nat}
    (hi : i ∈ indicesOf c.template.placeholders category) (hm : b.kind.marker? = some ⟨category, i⟩)
    (htops : tops ⟨category, i⟩ = topsAt slots i)
    (hlookup : ∀ e ∈ given, texts.lookup e.1 = none ∧ blocks.lookup e.1 = some e.2)
    (hspots : slotSpots.map (·.2) ⊆ spots) (hnested : topsOf slots ⊆ nested) :
    Fits c.template tops texts blocks spots nested b := by
  obtain ⟨hspot, x, hx, hroots, -⟩ := hs.of_root hb hm hi
  obtain ⟨hfree, hfilled⟩ := hlookup _ hx
  refine .block _ x hm ?_ hfree hfilled (hroots.trans htops.symm) (fun n hn => hnested (topsAt_subset slots i ?_))
    (hspots hspot)
  · rcases hcategory with rfl | rfl <;> simp [Template.nests, hi]
  · rw [← hroots, List.map_map]
    exact List.mem_map_of_mem hn

omit [ForeignBlocks H] in
/-- every root of a bound skeleton is what it should be once the nested blocks are in their places -/
theorem fits_of_seated (hh : Touch h) (hindices : c.textCells.map (·.index) = indicesOf c.template.placeholders .text)
    (hc : CellNodes c.template.skeleton (r.id + 1) node c.textCells)
    (hs : c.Seated ((planted c.template.skeleton (r.id + 1)).map h) X L .slot slotSpots slots given)
    (hk : c.Seated ((planted c.template.skeleton (r.id + 1)).map h) Y L' .child childSpots children given')
    (hapart : ∀ id ∈ topsOf slots ++ topsOf children,
      id ∉ (planted c.template.skeleton (r.id + 1)).ids ∧ id ∉ c.textCells.map (·.node)) :
    ∀ b ∈ ((planted c.template.skeleton (r.id + 1)).map h).roots, Fits c.template
      (fun m => if m.category = .slot then topsAt slots m.index else topsAt children m.index)
      (c.textCells.map (TextCell.put node)) (given ++ given') ((slotSpots ++ childSpots).map (·.2))
      (topsOf slots ++ topsOf children) b := by
  intro b hb
  have hf : ((planted c.template.skeleton (r.id + 1)).map h).ids.Nodup := by
    rw [ids_map hh]
    exact nodup_planted _ _
  have hlabel := roots_subset_labels _ hb
  have hbid : b.id ∈ (planted c.template.skeleton (r.id + 1)).ids := ids_map hh _ ▸ mem_ids_of_mem hlabel
  rw [List.map_append]
  by_cases hmarked : ∃ category, ∃ i ∈ indicesOf c.template.placeholders category, b.kind.marker? = some ⟨category, i⟩
  · obtain ⟨category, i, hi, hm⟩ := hmarked
    have hinTag : category.inTag = false := by
      obtain ⟨tag, -, htag⟩ := Option.bind_eq_some_iff.1 hm
      exact (ofTag?_eq_some_iff.1 htag).1
    cases category with
    | text =>
      obtain ⟨cell, hcell, rfl⟩ := List.mem_map.1 (hindices ▸ hi)
      refine fits_text hindices hc hcell hm
        ⟨fun hin => hc.outside cell hcell ?_, fun hin => (hapart _ hin).2 (List.mem_map_of_mem hcell)⟩
      rw [← ids_map hh]
      exact (List.mem_append.1 hin).elim (fun hin => hs.spots_subset hin) fun hin => hk.spots_subset hin
    | slot =>
      exact fits_block (.inl rfl) hs hb hi hm (by rfl)
        (fun e he => lookup_of_seated node hindices hs hk (List.mem_append_left _ he))
        (List.subset_append_left _ _) (List.subset_append_left _ _)
    | child =>
      exact fits_block (.inr rfl) hk hb hi hm (by rfl)
        (fun e he => lookup_of_seated node hindices hs hk (List.mem_append_right _ he))
        (List.subset_append_right _ _) (List.subset_append_right _ _)
    | «attribute» => cases hinTag
    | event => cases hinTag
    | action => cases hinTag
  · have hno : ∀ category, ∀ i ∈ indicesOf c.template.placeholders category, b.kind.marker? ≠ some ⟨category, i⟩ :=
      fun category i hi hm => hmarked ⟨category, i, hi, hm⟩
    refine fits_plain hno (keys_put hindices) (hs.keys_append hk) ⟨fun hin => ?_, fun hin => (hapart _ hin).1 hbid⟩
    exact (List.mem_append.1 hin).elim (hs.not_mem_spots hf hlabel (hno .slot))
      (hk.not_mem_spots hf hlabel (hno .child))

end

end Core

namespace Forest

/-- the tags at the top level of a planted skeleton -/
theorem tags_planted (ns : List Markup.Node) (id : NodeId) :
    (planted ns id).roots.map (·.kind.tag?) = ns.map Markup.Node.tag? := by
  induction ns generalizing id with
  | nil => rfl
  | cons n ns ih =>
    have hrest := ih (Document.plant.plantNode (L := Empty) n id).2
    rw [planted] at hrest
    rw [planted, Document.plant, roots_append, List.map_append, List.map_cons, hrest]
    cases n <;> rfl

theorem tags_map {t : Bare → Bare} (ht : Touch t) (f : Forest Bare) :
    (f.map t).roots.map (·.kind.tag?) = f.roots.map (·.kind.tag?) := by
  rw [roots_map, List.map_map]
  exact List.map_congr_left fun n _ => ht.tag n

end Forest

namespace Core

variable {c : Core H} {r : Bare} {h : Bare → Bare} {node : TextCell → Bare} {X Y Z L L' : Forest Bare}
  {slotSpots childSpots : List (Nat × NodeId)} {slots children : List (Nested H)}
  {given given' : List (Marker × Forest Bare)}

omit [ForeignBlocks H] in
/-- what is at the top level is the component's own, or a nested block at the top level put it there -/
theorem taken_of_seated {c' : Core H} (hh : Touch h)
    (hs : c.Seated ((planted c.template.skeleton (r.id + 1)).map h) X L .slot slotSpots slots given)
    (hk : c.Seated ((planted c.template.skeleton (r.id + 1)).map h) Y L' .child childSpots children given')
    (htemplate : c'.template = c.template) : (Component.mk c' slots children).tops.map (·.node) ⊆
      c'.roots ++ (detachedOf slots ++ detachedOf children) := by
  intro id hid
  obtain ⟨x, hx, rfl⟩ := List.mem_map.1 hid
  have hx : x ∈ (Component.mk c' slots children).tops := hx
  rw [Component.tops, htemplate] at hx
  rcases Template.mem_weave hx with hroot | ⟨tag, htag, m, hm, hin⟩
  · exact List.mem_append_left _ hroot
  · rw [← tags_planted _ (r.id + 1), ← tags_map hh] at htag
    obtain ⟨b, hb, rfl⟩ := List.mem_map.1 htag
    rw [Option.filter_eq_some_iff] at hm
    obtain ⟨hm, hnests⟩ := hm
    rw [Template.nests, Bool.and_eq_true, Bool.or_eq_true, decide_eq_true_iff, decide_eq_true_iff,
      List.contains_iff_mem] at hnests
    obtain ⟨hcategory, hi⟩ := hnests
    obtain ⟨category, i⟩ := m
    refine List.mem_append_right _ ?_
    rcases hcategory with rfl | rfl
    · obtain ⟨-, -, -, -, htaken⟩ := hs.of_root hb hm hi
      exact List.mem_append_left _ (htaken (List.mem_map_of_mem hin))
    · obtain ⟨-, -, -, -, htaken⟩ := hk.of_root hb hm hi
      exact List.mem_append_right _ (htaken (List.mem_map_of_mem hin))

omit [ForeignBlocks H] in
/-- what is in the fragment then, the component or a nested block had before -/
theorem ids_seated (hh : Touch h) (hc : CellNodes c.template.skeleton (r.id + 1) node c.textCells)
    (hs : c.Seated ((planted c.template.skeleton (r.id + 1)).map h) X L .slot slotSpots slots given)
    (hk : c.Seated ((planted c.template.skeleton (r.id + 1)).map h) Y L' .child childSpots children given') :
    (((planted c.template.skeleton (r.id + 1)).map h).fillBy
      (c.textCells.map (TextCell.put node) ++ (given ++ given'))).ids ⊆
        (planted c.template.skeleton (r.id + 1)).ids ++ c.textCells.map (·.node) ++ (X.ids ++ Y.ids) := by
  intro id hid
  rcases ids_fillBy hid with hid | ⟨e, he, hid⟩
  · rw [ids_map hh] at hid
    exact List.mem_append_left _ (List.mem_append_left _ hid)
  · rw [List.mem_append, List.mem_append] at he
    rcases he with he | he | he
    · obtain ⟨cell, hcell, -, hx⟩ := mem_put he
      rw [hx, ids_tree] at hid
      rw [List.mem_singleton.1 hid, (hc.nodes cell hcell).1]
      exact List.mem_append_left _ (List.mem_append_right _ (List.mem_map_of_mem hcell))
    · obtain ⟨_, -, hfilled⟩ := exists_of_forall₂ hs.filled e he
      exact List.mem_append_right _ (List.mem_append_left _ (hfilled.ids hid))
    · obtain ⟨_, -, hfilled⟩ := exists_of_forall₂ hk.filled e he
      exact List.mem_append_right _ (List.mem_append_right _ (hfilled.ids hid))

omit [ForeignBlocks H] in
/-- what a component has in its fragment once its nested blocks are in their places -/
theorem placed_of_seated (c' : Core H) (hh : Touch h)
    (hindices : c.textCells.map (·.index) = indicesOf c.template.placeholders .text)
    (hc : CellNodes c.template.skeleton (r.id + 1) node c.textCells)
    (hs : c.Seated ((planted c.template.skeleton (r.id + 1)).map h) X L .slot slotSpots slots given)
    (hk : c.Seated ((planted c.template.skeleton (r.id + 1)).map h) Y L' .child childSpots children given')
    (hapart : ∀ id ∈ X.ids ++ Y.ids,
      id ∉ (planted c.template.skeleton (r.id + 1)).ids ∧ id ∉ c.textCells.map (·.node))
    (hZ : (planted c.template.skeleton (r.id + 1)).ids ++ c.textCells.map (·.node) ++ (X.ids ++ Y.ids) ⊆ Z.ids)
    (htemplate : c'.template = c.template) (hphase : c'.phase = .mounted)
    (hroots : c'.roots = ((c.laid r h node).roots.map Node.id).filter (· ∉ (slotSpots ++ childSpots).map (·.2))) :
    Placed (.component (.mk c' slots children)) (((planted c.template.skeleton (r.id + 1)).map h).fillBy
      (c.textCells.map (TextCell.put node) ++ (given ++ given'))) (L ++ L') Z := by
  obtain ⟨htops, hfilter, hlength⟩ := Fits.tops (fits_of_seated hh hindices hc hs hk fun id hid => hapart id
    ((List.mem_append.1 hid).elim (fun hin => List.mem_append_left _ (hs.tops hin))
      fun hin => List.mem_append_right _ (hk.tops hin)))
  rw [laid] at hroots
  rw [← hroots] at htops hfilter hlength
  rw [tags_map hh, tags_planted] at htops hlength
  have htops : _ = (Component.mk c' slots children).tops := htops.trans (by rw [Component.tops, htemplate])
  have hdetached : (Block.component (.mk c' slots children)).detached =
      c'.roots ++ (detachedOf slots ++ detachedOf children) := by
    rw [Block.detached, Component.detached, hphase]
  -- what is in the place of a marker at the top level
  have hgiven : ∀ e ∈ given ++ given', ∀ b ∈ ((planted c.template.skeleton (r.id + 1)).map h).roots,
      b.kind.marker? = some e.1 → e.2.ids ⊆ (((planted c.template.skeleton (r.id + 1)).map h).fillBy
        (c.textCells.map (TextCell.put node) ++ (given ++ given'))).ids := by
    intro e he b hb hm
    obtain ⟨hfree, hfilled⟩ := lookup_of_seated node hindices hs hk he
    refine mem_ids_fillBy_of_root hb ?_
    rw [hm, Option.bind_some, List.lookup_append, hfree, Option.none_or, hfilled]
  refine ⟨htops, fun id hid => ?_, fun id hid => ?_, ?_, ?_⟩
  · rw [ids_append, ids_append, List.mem_append, List.mem_append] at hid
    rcases hid with hid | hid | hid
    · exact hZ (ids_seated hh hc hs hk hid)
    · exact hZ (List.mem_append_right _ (List.mem_append_left _ (hs.left hid)))
    · exact hZ (List.mem_append_right _ (List.mem_append_right _ (hk.left hid)))
  · rw [ids_append, ids_append]
    rw [hdetached, List.mem_append, List.mem_append] at hid
    rcases hid with hid | hid | hid
    · rw [← hfilter] at hid
      obtain ⟨n, hn, rfl⟩ := List.mem_map.1 (List.mem_of_mem_filter hid)
      exact List.mem_append_left _ (mem_ids_of_mem (roots_subset_labels _ hn))
    · rcases hs.detached id hid with hin | ⟨e, he, ⟨b, hb, hm⟩, hin⟩
      · exact List.mem_append_right _ (List.mem_append_left _ hin)
      · exact List.mem_append_left _ (hgiven e (List.mem_append_left _ he) b hb hm hin)
    · rcases hk.detached id hid with hin | ⟨e, he, ⟨b, hb, hm⟩, hin⟩
      · exact List.mem_append_right _ (List.mem_append_right _ hin)
      · exact List.mem_append_left _ (hgiven e (List.mem_append_right _ he) b hb hm hin)
  · rw [hdetached]
    exact taken_of_seated hh hs hk htemplate
  · rintro _ ⟨⟩
    refine ⟨?_, hlength.trans (congrArg Template.breadth htemplate.symm)⟩
    rw [← htops, List.map_map]
    exact hfilter.symm

end Core

/-! ## Mounting -/

/-- a mount has been given up: all of `Q` is left alone -/
structure Component.GivenUp (Q : Forest Bare) (w : World H) (o : Outcome H (Component H)) : Prop where
  backend : o.world.backend = w.backend
  fault : ∃ fault, o.result = .error fault
  holds : ∃ Z, o.world.document.Holds (Z ++ Q)

/-- a mount has succeeded: of `X`, what the component has at its top level is before the anchor, and all of `Q` is left
alone -/
structure Component.PutIn (X Q : Forest Bare) (target : NodeId) (anchor : Option NodeId) (w : World H)
    (o : Outcome H (Component H)) : Prop where
  backend : o.world.backend = w.backend
  ok : o.result = .ok ()
  hushed : o.self.Each Core.Hushed fun _ => True
  placed : ∃ M L G, Placed (.component o.self) M L X ∧ o.world.document.Holds
    (Q.graft (Document.isNode target) (Forest.insertBefore (isAnchor anchor) M) ++ (L ++ G))

theorem Component.Calm.givenUp {c : Component H} (h : c.Calm) (fault : LifecycleFault) {u w : World H} {Q : Forest Bare}
    (hb : u.backend = w.backend) (hu : ∃ Z, u.document.Holds (Z ++ Q)) : GivenUp Q w (c.abandon fault u) := by
  have hfrees := h.destroy_frees false u
  obtain ⟨Z, hZ⟩ := hu
  exact ⟨hfrees.backend.trans hb, ⟨fault, rfl⟩, Z, hfrees.document.holds_nil hZ⟩

omit [ForeignBlocks H] in
/-- the markers of a category that have been found are there -/
theorem World.spots_found {w : World H} (hb : w.backend = .faithful) {r : Bare} {Y R : Forest Bare}
    (hw : w.document.Holds (tree r Y ++ R)) {category : Category} {is : List Nat} {spots : List (Nat × NodeId)}
    (h : w.spots r.id category is = .ok spots) : spots.map (·.1) = is ∧
      ∀ e ∈ spots, ∃ n ∈ Y.labels, n.id = e.2 ∧ n.kind.answers ⟨category, e.1⟩ = true := by
  rcases World.spots_spec hb hw category is with ⟨spots', hspots, hfound⟩ | ⟨⟨fault, herr⟩, -⟩
  · obtain rfl := Except.ok.inj (h.symm.trans hspots)
    exact hfound
  · rw [herr] at h
    cases h

/-- mounts the nested blocks in the places of their markers, and puts what is in the fragment into the target then -/
def Core.mountBlocks (fragment target : NodeId) (anchor : Option NodeId) (slotSpots childSpots : List (Nat × NodeId))
    (c : Core H) (slots children : List (Nested H)) (w : World H) : Outcome H (Component H) :=
  let c := { c with
    roots := (w.document.children fragment).filter (!((slotSpots ++ childSpots).map (·.2)).contains ·) }
  let contents := mountRow fragment c.handles (childSpots.map (·.2)) slots slotSpots w
  match contents.result with
  | .error fault => Component.abandon fault (.mk c contents.self children) contents.world
  | .ok _ =>
    let kids := mountRow fragment (c.handles ++ handlesOf contents.self) [] children childSpots contents.world
    match kids.result with
    | .error fault => Component.abandon fault (.mk c contents.self kids.self) kids.world
    | .ok _ =>
      .ok (.mk { c with phase := .mounted } contents.self kids.self)
        (kids.world.edit (·.insertBefore target fragment anchor))

/-- a mount is given up before a block is mounted, or the markers of all blocks are found -/
theorem Component.mountCreated_cases {c : Core H} {fragment : NodeId} (hp : c.phase = .created fragment)
    (target : NodeId) (anchor : Option NodeId) (slots children : List (Nested H)) (w : World H) :
    (∃ fault, (Component.mk c slots children).mountCreated target anchor w =
      (Component.mk (c.bind fragment w).self slots children).abandon fault (c.bind fragment w).world) ∨
    (c.bind fragment w).result = .ok () ∧ ∃ slotSpots childSpots,
      (c.bind fragment w).world.spots fragment .slot (indicesOf c.template.placeholders .slot) = .ok slotSpots ∧
      (c.bind fragment w).world.spots fragment .child (indicesOf c.template.placeholders .child) = .ok childSpots ∧
      (Component.mk c slots children).mountCreated target anchor w =
        (c.bind fragment w).self.mountBlocks fragment target anchor slotSpots childSpots slots children
          (c.bind fragment w).world := by
  rw [mountCreated, hp]
  dsimp only
  split
  · exact .inl ⟨_, rfl⟩
  · next hok =>
    split
    · exact .inl ⟨_, rfl⟩
    · exact .inl ⟨_, rfl⟩
    · next slotSpots childSpots hslots hchildren => exact .inr ⟨hok, slotSpots, childSpots, hslots, hchildren, rfl⟩

namespace Core

variable {c : Core H} {r : Bare} {h : Bare → Bare} {node : TextCell → Bare} {contents kids K Q : Forest Bare}
  {slots children : List (Nested H)} {slotSpots childSpots : List (Nat × NodeId)}

omit [ForeignBlocks H] in
theorem Pends.ids_pending (hp : c.Pends r h node) : (c.pending r h node).ids =
    r.id :: ((planted c.template.skeleton (r.id + 1)).ids ++ c.textCells.map (·.node)) := by
  rw [pending, ids_append, ids_tree, ids_map hp.touch, ids_textNodes, List.cons_append]
  exact congrArg (fun xs => r.id :: (_ ++ xs)) (List.map_congr_left fun cell hc => (hp.nodes cell hc).1)

/-- a component that has been bound, and where the markers of its blocks are; `K` is what is not in its fragment -/
structure Ready (c : Core H) (r : Bare) (h : Bare → Bare) (node : TextCell → Bare)
    (slotSpots childSpots : List (Nat × NodeId)) (K : Forest Bare) : Prop where
  fragment : r.kind.isFragment = true
  touch : Touch h
  indices : c.textCells.map (·.index) = indicesOf c.template.placeholders .text
  cells : CellNodes c.template.skeleton (r.id + 1) node c.textCells
  slotIndices : slotSpots.map (·.1) = indicesOf c.template.placeholders .slot
  childIndices : childSpots.map (·.1) = indicesOf c.template.placeholders .child
  slots : Spotted ((planted c.template.skeleton (r.id + 1)).map h) (c.textCells.map (TextCell.put node)) .slot slotSpots
    (r.id :: K.ids)
  children : Spotted ((planted c.template.skeleton (r.id + 1)).map h) (c.textCells.map (TextCell.put node)) .child
    childSpots (r.id :: K.ids)
  apart : ∀ id ∈ K.ids, id ∉ (planted c.template.skeleton (r.id + 1)).ids ∧ id ∉ c.textCells.map (·.node)

omit [ForeignBlocks H] in
/-- a component that has been created is bound, and the markers of its blocks are found -/
theorem Pends.ready (hp : c.Pends r h node) (hfit : c.Fit) {d : Document (Listener H.Handler)}
    (hd : d.Holds (c.pending r h node ++ K)) {own : Core H} {cells : List AttributeCell} {cleanups : List (Cleanup H)}
    {hooks : List (UpdateHook H)}
    (hown : own = { c with attributeCells := cells, cleanups := cleanups, updateHooks := hooks })
    {h' : Bare → Bare} {node' : TextCell → Bare} (hh : Touch h')
    (hc : CellNodes c.template.skeleton (r.id + 1) node' c.textCells) {w : World H} (hb : w.backend = .faithful)
    {g : Forest Bare} (hw : w.document.Holds (tree r (c.laid r h' node') ++ (K ++ g)))
    (hslots : w.spots r.id .slot (indicesOf c.template.placeholders .slot) = .ok slotSpots)
    (hchildren : w.spots r.id .child (indicesOf c.template.placeholders .child) = .ok childSpots) :
    own.Ready r h' node' slotSpots childSpots K := by
  subst hown
  have hnodup := hd.nodup
  rw [ids_append, hp.ids_pending, List.nodup_append, List.nodup_cons] at hnodup
  obtain ⟨⟨hrown, -⟩, -, hothers⟩ := hnodup
  have hapart : ∀ id ∈ (planted c.template.skeleton (r.id + 1)).ids, id ∉ r.id :: K.ids := by
    intro id hid hin
    rcases List.mem_cons.1 hin with rfl | hin
    · exact hrown (List.mem_append_left _ hid)
    · exact hothers _ (List.mem_cons_of_mem _ (List.mem_append_left _ hid)) _ hin rfl
  obtain ⟨his, hallSlots⟩ := World.spots_found hb hw hslots
  obtain ⟨hjs, hallChildren⟩ := World.spots_found hb hw hchildren
  exact {
    fragment := hp.fragment
    touch := hh
    indices := hp.indices
    cells := hc
    slotIndices := his
    childIndices := hjs
    slots := spotted_of_laid hfit.accepted.marked hh hc (.inl rfl) his hallSlots hapart
    children := spotted_of_laid hfit.accepted.marked hh hc (.inr rfl) hjs hallChildren hapart
    apart := fun id hid =>
      ⟨fun hown => hothers _ (List.mem_cons_of_mem _ (List.mem_append_left _ hown)) _ hid rfl,
        fun hown => hothers _ (List.mem_cons_of_mem _ (List.mem_append_right _ hown)) _ hid rfl⟩ }

/-- a component that has been bound: its blocks are mounted, and then it is put in, or that is given up -/
theorem Ready.mountBlocks (hr : c.Ready r h node slotSpots childSpots (contents ++ (kids ++ Q)))
    (hcalm : (Component.mk c slots children).Calm)
    (hslots : alongRow (fun b X => b.Unplaced true X ∧ b.Calm ∧ b.Places X) slots contents)
    (hchildren : alongRow (fun b X => b.Unplaced true X ∧ b.Calm ∧ b.Places X) children kids) {w : World H}
    (hb : w.backend = .faithful) {g : Forest Bare}
    (hw : w.document.Holds (tree r (c.laid r h node) ++ (contents ++ (kids ++ Q) ++ g))) {X : Forest Bare}
    (hX : (planted c.template.skeleton (r.id + 1)).ids ++ c.textCells.map (·.node) ++ (contents.ids ++ kids.ids) ⊆ X.ids)
    {target : NodeId} (ht : target ∈ Q.ids) {anchor : Option NodeId} (ha : ∀ a ∈ anchor, a ∉ X.ids)
    {o : Outcome H (Component H)} (ho : c.mountBlocks r.id target anchor slotSpots childSpots slots children w = o) :
    Component.GivenUp Q w o ∨ Component.PutIn X Q target anchor w o := by
  obtain ⟨hindices, hhushed, hslotsCalm, hchildrenCalm⟩ := Component.calm_iff.1 hcalm
  -- giving up, when the blocks of the rows have become others
  have hgiveUp : ∀ {roots : List NodeId} {slots' children' : List (Nested H)} (fault : LifecycleFault) {u : World H},
      slots'.map Nested.index = slots.map Nested.index → children'.map Nested.index = children.map Nested.index →
      (∀ n ∈ slots', n.block.Calm) → (∀ n ∈ children', n.block.Calm) → u.backend = w.backend →
      (∃ Z, u.document.Holds (Z ++ Q)) →
        Component.GivenUp Q w ((Component.mk { c with roots } slots' children').abandon fault u) := by
    intro roots slots' children' fault u hi hj hs hk hb' hu
    have hcalm' : (Component.mk { c with roots } slots' children').Calm :=
      Component.calm_iff.2 ⟨by rw [hi, hj]; exact hindices, ⟨hhushed.cleanups, hhushed.updateHooks⟩, hs, hk⟩
    exact hcalm'.givenUp fault hb' hu
  rw [Core.mountBlocks] at ho
  dsimp only at ho
  -- the slots
  generalize hcontents : mountRow r.id _ _ slots slotSpots w = own at ho
  have hrow : RowPlacing r ((planted c.template.skeleton (r.id + 1)).map h) (c.textCells.map (TextCell.put node)) .slot
      slotSpots contents (kids ++ Q) slots w own := by
    rw [← hcontents]
    exact mountRow_placed hslots _ _ slotSpots (by rw [hr.slotIndices]; exact hindices.1) w hb (G := g) hr.slots
      List.mem_cons_self (fun id hid => List.mem_cons_of_mem _ hid)
      (hw.of_same (Same.append (Same.refl _) (Same.comm _ _)))
  rcases hrow.outcome with ⟨hok, hplaced⟩ | ⟨⟨fault, herr⟩, Z, hZ⟩
  swap
  · rw [herr] at ho
    subst ho
    exact .inl (hgiveUp fault hrow.indices rfl hrow.calm hchildrenCalm hrow.backend
      ⟨Z ++ kids, hZ.of_same (.of_eq (append_assoc Z kids Q).symm)⟩)
  rw [hok] at ho
  dsimp only at ho
  -- the children
  generalize hkids : mountRow r.id _ [] children childSpots own.world = others at ho
  obtain ⟨given, L, hL, hfilled, hdetached, hrow'⟩ := hplaced.next (fun e => by cases e) hchildren _ _
    (by rw [hr.childIndices, hindices.2]) (hrow.backend.trans hb) hr.children List.mem_cons_self
    fun id hid => List.mem_cons_of_mem _ hid
  rw [hkids] at hrow'
  have hbackend : others.world.backend = w.backend := hrow'.backend.trans hrow.backend
  rcases hrow'.outcome with ⟨hok', hplaced'⟩ | ⟨⟨fault, herr⟩, Z, hZ⟩
  swap
  · rw [herr] at ho
    subst ho
    exact .inl (hgiveUp fault hrow.indices hrow'.indices hrow.calm hrow'.calm hbackend
      ⟨Z ++ L, hZ.of_same (.of_eq (append_assoc Z L Q).symm)⟩)
  obtain ⟨given', L', G, hG, hL', hfilled', hdetached'⟩ := hplaced'.holds
  rw [hok'] at ho
  dsimp only at ho
  subst ho
  rw [List.append_assoc] at hG
  have hin := placed_of_seated { c with
      roots := (w.document.children r.id).filter (!((slotSpots ++ childSpots).map (·.2)).contains ·),
      phase := .mounted } hr.touch hr.indices hr.cells
    ⟨hr.slotIndices, hr.slots.carrier, hfilled, hL, hplaced.tops, hdetached⟩
    ⟨hr.childIndices, hr.children.carrier, hfilled', hL', hplaced'.tops, hdetached'⟩
    (fun id hid => hr.apart id ?_) hX rfl rfl ?_
  · refine .inr ⟨hbackend, rfl, ⟨⟨hhushed.cleanups, hhushed.updateHooks⟩,
      eachOf_iff.2 fun n hn => (hrow.calm n hn).2, eachOf_iff.2 fun n hn => (hrow'.calm n hn).2⟩, _, L ++ L',
      G ++ tree r nil, hin, ?_⟩
    have hsame : (G ++ (L' ++ (L ++ Q))).Same (G ++ (L' ++ L) ++ Q) :=
      .of_eq (by rw [append_assoc, append_assoc])
    refine ((hG.of_same (Same.append (Same.refl _) hsame)).insertOut hr.fragment ht
      fun a haa hid => ha a haa (hin.mounted_subset hid)).of_same (Same.append (Same.refl _) ?_)
    simp only [Same, trees_append, ← Multiset.coe_eq_coe, ← Multiset.coe_add]
    abel
  · rw [ids_append, ids_append, ← List.append_assoc]
    exact List.mem_append_left _ hid
  · show (w.document.children r.id).filter _ = _
    rw [hw.children Document.mem_subtrees_tree]
    exact List.filter_congr fun id _ => by simp

/-- a component that has been created, wherever it is put -/
theorem Pends.places (hp : c.Pends r h node) (hfit : c.Fit) (hcalm : (Component.mk c slots children).Calm)
    (hactive : (Component.mk c slots children).Active)
    (hslots : alongRow (fun b X => b.Unplaced true X ∧ b.Calm ∧ b.Places X) slots contents)
    (hchildren : alongRow (fun b X => b.Unplaced true X ∧ b.Calm ∧ b.Places X) children kids) :
    (Block.component (.mk c slots children)).Places (c.pending r h node ++ (contents ++ kids)) := by
  intro target anchor w Q hb hw ht ha
  have hw := hw.of_same (Same.comm Q (c.pending r h node ++ (contents ++ kids)))
  rw [append_assoc, append_assoc] at hw
  have hbuilt := ((Component.mk c slots children).mountCreated_values target anchor w).built_of_values hcalm.1
  have hmounting := hactive.mounting target anchor w
  have hbind := hp.bind hfit.accepted.marked hfit.quiet hb hw
  obtain ⟨cells, cleanups, hooks, hself⟩ := hbind.self
  have hown : (Component.mk (c.bind r.id w).self slots children).Calm := by
    obtain ⟨hindices, -, hslotsCalm, hchildrenCalm⟩ := Component.calm_iff.1 hcalm
    exact Component.calm_iff.2 ⟨by rw [hself]; exact hindices, hbind.hushed, hslotsCalm, hchildrenCalm⟩
  have hcases : Component.GivenUp Q w ((Component.mk c slots children).mountCreated target anchor w) ∨
      Component.PutIn (c.pending r h node ++ (contents ++ kids)) Q target anchor w
        ((Component.mk c slots children).mountCreated target anchor w) := by
    rcases Component.mountCreated_cases hp.phase target anchor slots children w with
      ⟨fault, hgone⟩ | ⟨hok, slotSpots, childSpots, hslotSpots, hchildSpots, hrest⟩
    · rw [hgone]
      refine .inl (hown.givenUp fault hbind.backend ?_)
      obtain ⟨Z, hZ⟩ := hbind.holds
      exact ⟨Z ++ (contents ++ kids), hZ.of_same (.of_eq (by rw [append_assoc, append_assoc]))⟩
    · obtain ⟨h', node', g, hh, hc, hw'⟩ := hbind.found hok
      have hready := hp.ready hfit hw hself hh hc (hbind.backend.trans hb) hw' hslotSpots hchildSpots
      have hX : (planted c.template.skeleton (r.id + 1)).ids ++ c.textCells.map (·.node) ++
          (contents.ids ++ kids.ids) ⊆ (c.pending r h node ++ (contents ++ kids)).ids := by
        rw [ids_append, ids_append, hp.ids_pending, List.cons_append]
        exact List.subset_cons_self _ _
      rw [hrest]
      rw [hself] at hready hown ⊢
      exact (hready.mountBlocks hown hslots hchildren (hbind.backend.trans hb) hw' hX ht ha rfl).imp
        (fun h => { h with backend := h.backend.trans hbind.backend })
        fun h => { h with backend := h.backend.trans hbind.backend }
  rcases hcases with hgone | hin
  · obtain ⟨fault, herr⟩ := hgone.fault
    have hidle := (hmounting.created (congrArg Phase.state hp.phase) (by rw [herr]; exact error_ne_ok)).idle
    exact ⟨hgone.backend, ⟨hbuilt, (Block.Idle.unplaced (b := .component _) hbuilt hidle).hushed⟩,
      .inr ⟨hgone.fault, hgone.holds⟩⟩
  · exact ⟨hin.backend, ⟨hbuilt, hin.hushed⟩, .inl ⟨hin.ok, hin.placed⟩⟩

end Core

/-- **Mounting.** A block that has been created goes where it is put, or nowhere; everything else is left alone. -/
theorem Block.Unplaced.places {b : Block H} {X : Forest Bare} (h : b.Unplaced true X) (hc : b.Calm)
    (hf : b.Each Core.Fit fun _ => True) : b.Places X := by
  have hrow : ∀ {row : List (Nested H)} {X : Forest Bare},
      alongRow (fun b X => b.Unplaced true X ∧ (true = true → b.Calm → b.Each Core.Fit (fun _ => True) → b.Places X))
        row X → (∀ n ∈ row, n.block.Calm) → eachOf Core.Fit (fun _ => True) row →
      alongRow (fun b X => b.Unplaced true X ∧ b.Calm ∧ b.Places X) row X := fun h hc hf =>
    alongRow_imp (fun n hn X ⟨hu, hp⟩ => ⟨hu, hc n hn, hp rfl (hc n hn) (eachOf_iff.1 hf n hn)⟩) h
  refine (h.induction (P := fun made b X => b.Unplaced made X ∧
    (made = true → b.Calm → b.Each Core.Fit (fun _ => True) → b.Places X)) (fun made t n hn hplain => ?_)
    (fun t hn => ⟨.inr ⟨rfl, hn, rfl⟩, fun he => by cases he⟩)
    (fun made core slots children r h node contents kids hp hslots hchildren => ?_)
    fun core slots children contents kids hd hslots hchildren => ?_).2 rfl hc hf
  · exact ⟨.inl ⟨n, hn, hplain, rfl⟩, fun _ _ _ => TextBlock.places hn hplain⟩
  · have hunplaced : ∀ made, (Block.component (.mk core slots children)).Unplaced made
        (core.pending r h node ++ (contents ++ kids)) := fun _ =>
      .inl ⟨r, h, node, contents, kids, hp, unplacedAll_iff.2 (alongRow_imp (fun _ _ _ h => h.1) hslots),
        unplacedAll_iff.2 (alongRow_imp (fun _ _ _ h => h.1) hchildren), rfl⟩
    refine ⟨hunplaced made, fun _ hc hf => ?_⟩
    obtain ⟨-, -, hsc, hkc⟩ := Component.calm_iff.1 hc
    exact hp.places hf.1 hc (hunplaced true).active (hrow hslots hsc hf.2.1) (hrow hchildren hkc hf.2.2)
  · exact ⟨.inr ⟨rfl, hd, contents, kids, unplacedAll_iff.2 (alongRow_imp (fun _ _ _ h => h.1) hslots),
      unplacedAll_iff.2 (alongRow_imp (fun _ _ _ h => h.1) hchildren), rfl⟩, fun he => by cases he⟩

end LiveMarkup
