/-
Mounting.

A component that waits to be mounted binds its own markers, then mounts what is in its slots and its children in the place
of theirs, and at last moves what is in its fragment into the target. By induction on how components are nested, this
succeeds if all markers are found, at every depth, and then what is in the target is what the component shows.

- `Core.Waits.mounts`: a waiting component with texts in its slots is mounted if its children are;
- `Stands.mounts`: a waiting component is mounted, or some marker in it is not found;
- `Stands.mount`: the same for a component in any state in which it can be mounted.
-/
import LiveMarkup.Proofs.Component.Create
import LiveMarkup.Proofs.Component.Row

namespace LiveMarkup

open Markup Marker Forest

variable {H : Host}

/-! ## Where the markers of slots and children are -/

theorem Forest.Carrier.attrs {f : Forest Bare} {m : Marker} {n : Bare} (h : f.Carrier m n)
    (α : NodeId → Attributes → Attributes) : (f.attrs α).Carrier m (n.mapKind (Kind.mapAttributes (α n.id))) := by
  have hmark : ∀ k : Bare, (k.mapKind (Kind.mapAttributes (α k.id))).kind.marker? = k.kind.marker? := fun k =>
    Kind.marker?_of_tag? (Kind.tag?_mapAttributes _ _)
  refine ⟨?_, (hmark n).trans h.marker, fun k hk hkm => ?_⟩
  · rw [labels_attrs]
    exact List.mem_map_of_mem (f := fun n : Bare => n.mapKind (Kind.mapAttributes (α n.id))) h.mem
  · obtain ⟨l, hl, rfl⟩ := mem_labels_attrs α f hk
    rw [h.unique l hl ((hmark l).symm.trans hkm)]

namespace Core

variable {c c' : Core H} {g : History} {fragment target : NodeId} {row row' : List (Kid H)} {α : NodeId → Attributes → Attributes}
  {Q : Forest Bare} {anchor : Option NodeId}

/-- the markers of slots or children that were found are still to come -/
theorem Waits.spotted (h : c.Waits fragment row) (hm : c.template.Marked)
    {category : Category} (hc : category = .slot ∨ category = .child) {spots : List (Nat × NodeId)}
    (his : spots.map (·.1) = indicesOf c.template.placeholders category)
    (hall : ∀ e ∈ spots, ∃ n ∈ (((planted c.template.skeleton (fragment + 1)).attrs α).fillBy
      (c.textCells.map (TextCell.fill c.props.text))).labels, n.id = e.2 ∧ n.kind.answers ⟨category, e.1⟩ = true)
    {others : List NodeId} (ho : ∀ id ∈ (planted c.template.skeleton (fragment + 1)).ids, id ∉ others) :
    Spotted ((planted c.template.skeleton (fragment + 1)).attrs α) (c.textCells.map (TextCell.fill c.props.text))
      category spots others := by
  have hinTag : category.inTag = false := by rcases hc with rfl | rfl <;> rfl
  have hcarrier : ∀ e ∈ spots, ∃ n ∈ (planted c.template.skeleton (fragment + 1)).labels, n.id = e.2 ∧
      (planted c.template.skeleton (fragment + 1)).Carrier ⟨category, e.1⟩ n := by
    intro e he
    obtain ⟨n, hn, hid, ha⟩ := hall e he
    have hin : e.1 ∈ indicesOf c.template.placeholders category := his ▸ List.mem_map_of_mem he
    have hcount := hm ⟨category, e.1⟩ (mem_markersFor_zero.2 (mem_indicesOf.1 hin))
    rcases mem_labels_fillBy hn with hn | ⟨x, hx, hn⟩
    · obtain ⟨k, hk, rfl⟩ := mem_labels_attrs α _ hn
      have htag : (k.mapKind (Kind.mapAttributes (α k.id))).kind.tag? = k.kind.tag? := Kind.tag?_mapAttributes _ _
      rw [Kind.answers_of_tag? (m := ⟨category, e.1⟩) hinTag htag] at ha
      exact ⟨k, hk, hid, carrier_of_answers hcount hinTag hk ha⟩
    · exact absurd ⟨n, hn, ha⟩ (TextCell.not_has_fill _ _ x hx)
  refine ⟨by rw [ids_attrs]; exact nodup_planted _ _, by rw [his]; exact nodup_indicesOf _ _, fun e he => ?_,
    fun e _ => ?_, fun e he x hx hid => ?_, fun e he => ?_⟩
  · obtain ⟨k, -, hid, hk⟩ := hcarrier e he
    exact ⟨k.mapKind (Kind.mapAttributes (α k.id)), hid, hk.attrs α⟩
  · refine List.lookup_eq_none_iff.2 fun x hx => bne_iff_ne.2 fun hne => ?_
    obtain ⟨cell, -, rfl⟩ := List.mem_map.1 hx
    have := (Marker.mk.inj hne).1
    rcases hc with rfl | rfl <;> cases this
  · obtain ⟨k, hk, hke, -⟩ := hcarrier e he
    obtain ⟨cell, hcell, hnode⟩ := TextCell.ids_fill hx hid
    exact (h.textCells hm).nodes cell hcell (by rw [hnode, ← hke]; exact mem_ids_of_mem hk)
  · obtain ⟨k, hk, hke, -⟩ := hcarrier e he
    exact hke ▸ ho _ (mem_ids_of_mem hk)

/-! ## What is shown -/

/-- a bound component of a sound template, once it has been mounted with its children -/
theorem Waits.shows (h : c.Waits fragment row) (hs : c.template.Sound) (hb : c.IsBound c' (fragment + 1))
    (hrow : (row'.flatMap fun k => k.ground.ids).Subperm (row.flatMap fun k => k.ground.ids)) (roots : List NodeId) :
    ({ c' with roots, phase := .mounted } : Core H).Shows (fragment + 1) row' := by
  have hcells := hb.cells
  obtain ⟨cells, cleanups, hooks, rfl⟩ := hb.rest
  refine ⟨rfl, ⟨h.celled.texts, ?_, fun cell hin => ?_⟩, ?_, fun cell hin => ?_, hb.cleanups, hb.updateHooks⟩
  · rw [← h.celled.attributes]
    exact map_eq_of_forall₂ hcells fun _ _ hcell => by rw [hcell.1, hcell.2.1, hcell.2.2.1]
  · obtain ⟨old, hold, -, hprop, -, hvalue, -⟩ := exists_of_forall₂ hcells cell hin
    rw [hprop, hvalue]
    exact h.celled.values old hold
  · have hdistinct := h.distinct
    obtain ⟨l, hl, hsub⟩ := hrow
    refine ((List.Perm.refl _).append ((List.Perm.refl _).append hl)).nodup_iff.1 ?_
    exact ((List.Sublist.refl _).append ((List.Sublist.refl _).append hsub)).nodup hdistinct
  · obtain ⟨old, hold, hindex, -, -, -, n, hn, he, hname⟩ := exists_of_forall₂ hcells cell hin
    exact ⟨n, hn, he, hindex ▸ hname (h.celled.tidy hs)⟩

/-- when a component is mounted, its cells say what its elements show -/
theorem Celled.elements (h : c.Celled) (hs : c.template.Sound) (start : NodeId) :
    (planted c.template.skeleton start).attrs (fun _ => fillAttributes (lookOf c.attributeCells)) =
      c.elements c.props [] start := by
  refine attrs_congr fun n hn => fillAttributes_congr fun name hin => ?_
  rw [latestBinding?_nil]
  refine h.look (h.index_lt hs) name fun m hm => ?_
  obtain ⟨a, ha, rfl⟩ := List.mem_map.1 hin
  exact clean_planted _ _ hs.clean n hn a ha m hm

/-- what a bound component of a sound template shows -/
theorem Waits.showing (h : c.Waits fragment row) (hs : c.template.Sound) (hb : c.IsBound c' (fragment + 1))
    {fills : List (Marker × Forest Bare)}
    (hr : Rewritten c.template.skeleton (fragment + 1) fills c.changes α) (roots : List NodeId)
    (x : Nat → Forest Bare) :
    ((planted c.template.skeleton (fragment + 1)).attrs α).fillBy (c.fillsWith x row') =
      (({ c' with roots, phase := .mounted } : Core H).elements c.props [] (fragment + 1)).fillBy
        (({ c' with roots, phase := .mounted } : Core H).fillsWith x row') := by
  obtain ⟨cells, cleanups, hooks, rfl⟩ := hb.rest
  rw [h.celled.settled hs hr, h.celled.elements hs]
  rfl

/-- what the component has in its fragment comes from what it had -/
theorem mem_waiting_of_fillBy {insets : List Inset}
    (hids : (row'.flatMap fun k => k.ground.ids).Subperm (row.flatMap fun k => k.ground.ids)) {id : NodeId}
    (hid : id ∈ (((planted c.template.skeleton (fragment + 1)).attrs α).fillBy
      (c.fillsWith (contentAt insets) row')).ids) :
    id ∈ (c.waiting fragment row ++ join (insets.map Inset.ground)).ids := by
  rw [ids_append, ids_waiting, List.mem_append]
  rcases Forest.ids_fillBy hid with hid | ⟨x, hx, hid⟩
  · rw [ids_attrs] at hid
    exact .inl (List.mem_cons_of_mem _ (List.mem_append_left _ hid))
  · rcases List.mem_append.1 hx with hx | hx
    · obtain ⟨cell, hc, rfl⟩ := TextCell.ids_fill hx hid
      exact .inl (List.mem_cons_of_mem _ (List.mem_append_right _ (List.mem_append_left _ (List.mem_map_of_mem hc))))
    · rcases List.mem_append.1 hx with hx | hx
      · obtain ⟨i, -, rfl⟩ := List.mem_map.1 hx
        exact .inr (ids_contentAt insets i id hid)
      · obtain ⟨k, hk, rfl⟩ := List.mem_map.1 hx
        exact .inl (List.mem_cons_of_mem _ (List.mem_append_right _ (List.mem_append_right _
          (hids.subset (List.mem_flatMap.2 ⟨k, hk, hid⟩)))))

/-- once its slots have their texts and its children have been mounted, the component goes into the target -/
theorem Waits.insert (h : c.Waits fragment row) (hg : c.props = g.props) (he : c.Embeds row) {w w1 : World H}
    (hb1 : w1.backend = w.backend) (hf : c.template.Findable) (hbound : c.IsBound c' (fragment + 1))
    {fills : List (Marker × Forest Bare)} (hr : Rewritten c.template.skeleton (fragment + 1) fills c.changes α)
    {insets : List Inset} {slots : List (Nested H)} (hslots : slots.map Nested.block = insets.map Inset.block)
    {o : Outcome H (List (Nested H))}
    (hrow : RowMounted (c.handed g) row (fun i => Exposes ⟨.child, i⟩ c.template.skeleton) (fragmentNode fragment)
      ((planted c.template.skeleton (fragment + 1)).attrs α) Q (c.textCells.map (TextCell.fill c.props.text) ++
        (indicesOf c.template.placeholders .slot).map fun i => (⟨.slot, i⟩, contentAt insets i)) w1 o row')
    (ht : target ∈ Q.ids) (ha : ∀ a ∈ anchor, a ∉ (c.waiting fragment row ++ join (insets.map Inset.ground)).ids)
    (roots : List NodeId) (old : List (Nested H)) :
    MountedAs (Carries insets g.mounted) (.mk c old (row.map Kid.nested))
      (c.waiting fragment row ++ join (insets.map Inset.ground)) Q target anchor w
      (.ok (.mk { c' with roots, phase := .mounted } slots o.self)
        (o.world.edit (·.insertBefore target fragment anchor))) := by
  obtain ⟨G, hG⟩ := hrow.holds
  have hfills : c.textCells.map (TextCell.fill c.props.text) ++
      (indicesOf c.template.placeholders .slot).map (fun i => ((⟨.slot, i⟩ : Marker), contentAt insets i)) ++
        row'.map (fun k => (⟨.child, k.index⟩, k.ground)) = c.fillsWith (contentAt insets) row' := by
    rw [List.append_assoc]
    rfl
  rw [hfills] at hG
  have hG' := hG.of_same (Same.comm _ _)
  have htemplate : c'.template = c.template ∧ c'.props = c.props := by
    obtain ⟨cells, cleanups, hooks, rfl⟩ := hbound.rest
    exact ⟨rfl, rfl⟩
  have hinsert := hG'.insertFragment (r := fragmentNode fragment) rfl
    (show target ∈ (G ++ Q).ids by rw [ids_append]; exact List.mem_append_right _ ht)
    (show ∀ a ∈ anchor, a ∉ _ from fun a haa hid => ha a haa (mem_waiting_of_fillBy hrow.ids hid))
  have hnot : target ∉ G.ids := fun hin => by
    have := hG'.nodup
    rw [ids_append, ids_append] at this
    exact (List.nodup_append.1 (List.nodup_append.1 this).1).2.2 _ hin _ ht rfl
  rw [graft_append, graft_of_none (Document.isNode_of_not_mem hnot)] at hinsert
  refine ⟨rfl, htemplate.1, htemplate.2, hrow.backend.trans hb1, fun u hu => ?_,
    ((planted c.template.skeleton (fragment + 1)).attrs α).fillBy (c.fillsWith (contentAt insets) row'),
    G ++ tree (fragmentNode fragment) nil, hinsert.of_same ?_, ?_, fun hs => ?_⟩
  · cases hu with
    | self => exact hf
    | child hi hex hu =>
      obtain ⟨k, hk, rfl, rfl⟩ := he.exists_kid hi
      exact hrow.found k hk hex u hu
  · simp only [Same, trees_append, ← Multiset.coe_eq_coe, ← Multiset.coe_add]
    abel
  · have hnodup := hG.nodup
    rw [ids_append, ids_tree] at hnodup
    exact List.subperm_of_subset (List.nodup_cons.1 (List.nodup_append.1 hnodup).1).2 fun id hid =>
      mem_waiting_of_fillBy hrow.ids hid
  · have hsound : c.template.Sound := Template.Everywhere.self hs
    rw [h.showing hsound hbound hr roots]
    show Carries insets g.mounted (.mk { c' with roots, phase := .mounted } slots o.self) _
    have hkids := hrow.stands fun k hk => by
      obtain ⟨bindings, hi⟩ := he.child k hk
      have hm : (⟨.child, k.index⟩ : Marker) ∈ markersFor 0 c.template.placeholders :=
        mem_markersFor_zero.2 ⟨_, hi, rfl⟩
      exact ⟨exposes_of_clean rfl _ hsound.clean (hsound.markers ▸ hm), Template.Everywhere.child hs hi⟩
    rw [hrow.self]
    rw [show c.props = g.mounted.atMount from hg]
    refine .mk (htemplate.2.trans (hg.trans g.props_mounted.symm)) (he.of_alike htemplate.1 hrow.alike) hslots
      (h.shows hsound hbound hrow.ids roots) fun k hk => ?_
    rw [Core.handed, History.forward_mounted, htemplate.1]
    exact hkids k hk

end Core

/-! ## Mounting -/

variable [ForeignBlocks H]

namespace Core

variable {c : Core H} {g : Nat → History} {fragment : NodeId} {row : List (Kid H)}
  {α : NodeId → Attributes → Attributes} {Q : Forest Bare}

/-- an exposed marker that has not been filled is in the fragment -/
theorem shown_of_spotted {ns : List Markup.Node} {start : NodeId} {fills : List (Marker × Forest Bare)} {category : Category}
    {spots : List (Nat × NodeId)} {others : List NodeId}
    (h : Spotted ((planted ns start).attrs α) fills category spots others) {e : Nat × NodeId} (he : e ∈ spots)
    (hex : Exposes ⟨category, e.1⟩ ns) (fills' : List (Marker × Forest Bare)) (hnone : fills'.lookup ⟨category, e.1⟩ = none) :
    e.2 ∈ (((planted ns start).attrs α).fillBy fills').ids := by
  obtain ⟨k, hk, hmark, hin⟩ := exposed_planted hnone α ns start hex
  obtain ⟨n, hn, hcarrier⟩ := h.carrier e he
  have hkn := hcarrier.unique (k.mapKind (Kind.mapAttributes (α k.id)))
    (by rw [labels_attrs]; exact List.mem_map_of_mem (f := fun n : Bare => n.mapKind (Kind.mapAttributes (α n.id))) hk)
    ((Kind.marker?_of_tag? (Kind.tag?_mapAttributes _ _)).trans hmark)
  rw [← hn, ← hkn]
  exact hin

/-- texts are put in the slots, and the children are mounted -/
theorem Embeds.mountRow_spec (he : c.Embeds row)
    (hk : ∀ k ∈ row, Mounts (g k.index) k.component k.ground) {insets : List Inset}
    (hinsets : (insets.map Inset.index).Sublist (indicesOf c.template.placeholders .slot))
    (hexposed : ∀ a ∈ insets, Exposes ⟨.slot, a.index⟩ c.template.skeleton) {w : World H} (hb : w.backend = .faithful)
    {U : Forest Bare}
    (hw : w.document.Holds (tree (fragmentNode fragment) (((planted c.template.skeleton (fragment + 1)).attrs α).fillBy
      (c.textCells.map (TextCell.fill c.props.text))) ++
        ((join (insets.map Inset.ground) ++ (join (row.map Kid.ground) ++ Q)) ++ U)))
    {slots children : List (Nat × NodeId)} {others : List NodeId} (hr : fragment ∈ others)
    (hK : ∀ id ∈ (join (insets.map Inset.ground) ++ (join (row.map Kid.ground) ++ Q)).ids, id ∈ others)
    (hslots : Spotted ((planted c.template.skeleton (fragment + 1)).attrs α) (c.textCells.map (TextCell.fill c.props.text))
      .slot slots others)
    (hchildren : Spotted ((planted c.template.skeleton (fragment + 1)).attrs α)
      (c.textCells.map (TextCell.fill c.props.text)) .child children others)
    (his : slots.map (·.1) = indicesOf c.template.placeholders .slot)
    (hjs : children.map (·.1) = indicesOf c.template.placeholders .child) (held : List NodeId) :
    ∃ o, mountRow fragment held (children.map (·.2)) (insets.map Inset.nested) slots w = o ∧ o.result = .ok () ∧
      o.self.map Nested.block = insets.map Inset.block ∧ ∀ held' : List NodeId,
        (∃ row', RowMounted g row (fun i => Exposes ⟨.child, i⟩ c.template.skeleton) (fragmentNode fragment)
          ((planted c.template.skeleton (fragment + 1)).attrs α) Q (c.textCells.map (TextCell.fill c.props.text) ++
            (indicesOf c.template.placeholders .slot).map fun i => (⟨.slot, i⟩, contentAt insets i)) w
          (mountRow fragment held' [] (row.map Kid.nested) children o.world) row') ∨
        (∃ fault, (mountRow fragment held' [] (row.map Kid.nested) children o.world).result = .error fault) ∧
          ∃ k ∈ row, ¬ k.component.core.template.Everywhere Template.Findable := by
  have hw' := hw.of_same (Same.append (Same.refl _) (Same.comm _ U))
  have hshown : ∀ e ∈ slots, e.1 ∈ insets.map Inset.index → ∀ fills : List (Marker × Forest Bare),
      fills.lookup ⟨.slot, e.1⟩ = none →
        e.2 ∈ (((planted c.template.skeleton (fragment + 1)).attrs α).fillBy fills).ids := by
    intro e he hin
    obtain ⟨a, ha, hai⟩ := List.mem_map.1 hin
    exact shown_of_spotted hslots he (hai ▸ hexposed a ha)
  obtain ⟨hok, hself, hb', G, hG⟩ := mountRow_insets (r := fragmentNode fragment) held (children.map (·.2)) slots
    (by rw [his]; exact hinsets) w hslots hr hK hshown hw'
  have hfills : slots.map (fun e => ((⟨.slot, e.1⟩ : Marker), contentAt insets e.1)) =
      (indicesOf c.template.placeholders .slot).map fun i => (⟨.slot, i⟩, contentAt insets i) := by
    rw [← his, List.map_map]
    rfl
  rw [hfills] at hG
  have hKrow : ∀ id ∈ (join (row.map Kid.ground) ++ Q).ids, id ∈ others := fun id hid => hK id (by
    rw [ids_append]
    exact List.mem_append_right _ hid)
  have hnext : Spotted ((planted c.template.skeleton (fragment + 1)).attrs α)
      (c.textCells.map (TextCell.fill c.props.text) ++
        (indicesOf c.template.placeholders .slot).map fun i => (⟨.slot, i⟩, contentAt insets i)) .child children others := by
    refine hchildren.append (fun e he => ?_) fun e he id hid => hK id ?_
    · obtain ⟨i, -, rfl⟩ := List.mem_map.1 he
      exact fun hc => nomatch hc
    · obtain ⟨i, -, rfl⟩ := List.mem_map.1 he
      rw [ids_append]
      exact List.mem_append_left _ (ids_contentAt insets i id hid)
  refine ⟨_, rfl, hok, hself, fun held' => ?_⟩
  rcases LiveMarkup.mountRow_spec (fun i => Exposes ⟨.child, i⟩ c.template.skeleton) hk held' children
    (hjs.trans he.indices.symm) _ (hb'.trans hb) hnext hr hKrow (fun e he => shown_of_spotted hchildren he) hG with
    ⟨row', hrow⟩ | herr
  · exact .inl ⟨row', { hrow with backend := hrow.backend.trans hb' }⟩
  · exact .inr herr

/-- a waiting component is mounted with texts in its slots if its children are, or some marker in it is not found -/
theorem Waits.mounts {g : History} (h : c.Waits fragment row) (hg : c.props = g.props) (he : c.Embeds row)
    (hm : c.template.Marked) (hq : c.template.Quiet)
    (hk : ∀ k ∈ row, Mounts (c.handed g k.index) k.component k.ground) (insets : List Inset)
    (hinsets : (insets.map Inset.index).Sublist (indicesOf c.template.placeholders .slot))
    (hexposed : ∀ a ∈ insets, Exposes ⟨.slot, a.index⟩ c.template.skeleton) (target : NodeId) (anchor : Option NodeId)
    {w : World H} (hb : w.backend = .faithful)
    (hw : w.document.Holds (Q ++ (c.waiting fragment row ++ join (insets.map Inset.ground)))) (ht : target ∈ Q.ids)
    (ha : ∀ a ∈ anchor, a ∉ (c.waiting fragment row ++ join (insets.map Inset.ground)).ids) :
    MountedAs (Carries insets g.mounted) (.mk c (insets.map Inset.nested) (row.map Kid.nested))
        (c.waiting fragment row ++ join (insets.map Inset.ground)) Q target anchor w
        ((Component.mk c (insets.map Inset.nested) (row.map Kid.nested)).mountCreated target anchor w) ∨
      (∃ fault, ((Component.mk c (insets.map Inset.nested) (row.map Kid.nested)).mountCreated target anchor w).result =
        .error fault) ∧ ¬ c.template.Everywhere Template.Findable := by
  have hsame : (Q ++ (c.waiting fragment row ++ join (insets.map Inset.ground))).Same
      (tree (fragmentNode fragment) (planted c.template.skeleton (fragment + 1)) ++
        (join (c.textCells.map (TextCell.ground c.props.text)) ++
          (join (insets.map Inset.ground) ++ (join (row.map Kid.ground) ++ Q)))) := by
    simp only [Core.waiting, fragmentNode, Same, trees_append, ← Multiset.coe_eq_coe, ← Multiset.coe_add]
    abel
  -- the nodes of the skeleton are none of the others
  have hothers : ∀ id ∈ (planted c.template.skeleton (fragment + 1)).ids,
      id ∉ fragment :: (join (insets.map Inset.ground) ++ (join (row.map Kid.ground) ++ Q)).ids := by
    have hdistinct := (hw.of_same hsame).nodup
    rw [ids_append, ids_tree, ids_append, List.cons_append, List.nodup_cons, List.nodup_append] at hdistinct
    intro id hid hin
    rcases List.mem_cons.1 hin with rfl | hin
    · exact hdistinct.1 (List.mem_append_left _ hid)
    · exact hdistinct.2.2.2 id hid id (List.mem_append_right _ hin) rfl
  have hmissing : ¬ c.template.Findable → ¬ c.template.Everywhere Template.Findable := fun hno hf => hno hf.self
  rw [Component.mountCreated, h.phase]
  dsimp only
  rcases h.bind_spec hm hq hb (hw.of_same hsame) with
    ⟨hok, hlocated, hbound, U, hb1, α, hw1, hrewritten⟩ | ⟨⟨fault, herr⟩, hno⟩
  · rw [hok]
    dsimp only
    have hspot : ∀ category, category = .slot ∨ category = .child → ∀ i ∈ indicesOf c.template.placeholders category,
        ¬ (((planted c.template.skeleton (fragment + 1)).attrs α).fillBy
          (c.textCells.map (TextCell.fill c.props.text))).Has ⟨category, i⟩ → ¬ c.template.Findable := by
      intro category hc i hi hno hf
      refine hno ((has_attrs ?_ _ _ _).2 ((h.located_iff.2 hf).2 category hc i hi))
      rcases hc with rfl | rfl <;> rfl
    rcases World.spots_spec hb1 hw1 .slot (indicesOf c.template.placeholders .slot) with
      ⟨slotSpots, hslots, hslotIndices, hslotNodes⟩ | ⟨⟨fault, herr⟩, i, hi, hno⟩
    · rcases World.spots_spec hb1 hw1 .child (indicesOf c.template.placeholders .child) with
        ⟨childSpots, hchilds, hchildIndices, hchildNodes⟩ | ⟨⟨fault, herr⟩, i, hi, hno⟩
      · rw [show (c.bind fragment w).world.spots fragment .slot (indicesOf c.template.placeholders .slot) =
            .ok slotSpots from hslots,
          show (c.bind fragment w).world.spots fragment .child (indicesOf c.template.placeholders .child) =
            .ok childSpots from hchilds]
        dsimp only
        have hslot := h.spotted hm (.inl rfl) hslotIndices hslotNodes hothers
        have hchild := h.spotted hm (.inr rfl) hchildIndices hchildNodes hothers
        have hfindable : c.template.Findable := by
          refine h.located_iff.1 ⟨hlocated, fun category hc i hi => ?_⟩
          have hnodes : ∃ n ∈ (((planted c.template.skeleton (fragment + 1)).attrs α).fillBy
              (c.textCells.map (TextCell.fill c.props.text))).labels, n.kind.answers ⟨category, i⟩ = true := by
            rcases hc with rfl | rfl
            · obtain ⟨e, he, rfl⟩ := List.mem_map.1 (hslotIndices ▸ hi)
              obtain ⟨n, hn, -, ha⟩ := hslotNodes e he
              exact ⟨n, hn, ha⟩
            · obtain ⟨e, he, rfl⟩ := List.mem_map.1 (hchildIndices ▸ hi)
              obtain ⟨n, hn, -, ha⟩ := hchildNodes e he
              exact ⟨n, hn, ha⟩
          refine (has_attrs ?_ _ α _).1 hnodes
          rcases hc with rfl | rfl <;> rfl
        generalize (((c.bind fragment w).world.document.children fragment).filter
          (!((slotSpots ++ childSpots).map (·.2)).contains ·)) = roots
        obtain ⟨o, ho, hfilled, hblocks, hchildren⟩ := he.mountRow_spec hk hinsets hexposed hb1 hw1 List.mem_cons_self
          (fun id hid => List.mem_cons_of_mem _ hid) hslot hchild hslotIndices hchildIndices
          ({ (c.bind fragment w).self with roots } : Core H).handles
        rw [ho, hfilled]
        dsimp only
        rcases hchildren (({ (c.bind fragment w).self with roots } : Core H).handles ++ handlesOf o.self) with
          ⟨row', hrow⟩ | ⟨⟨fault, herr⟩, k, hk, hno⟩
        · rw [hrow.ok]
          exact .inl (h.insert hg he (hb1.trans hb.symm) hfindable hbound hrewritten hblocks hrow ht ha roots _)
        · rw [herr]
          refine .inr ⟨⟨fault, rfl⟩, fun hf => hno ?_⟩
          obtain ⟨bindings, hi⟩ := he.child k hk
          exact Template.Everywhere.child hf hi
      · rw [show (c.bind fragment w).world.spots fragment .slot (indicesOf c.template.placeholders .slot) =
            .ok slotSpots from hslots,
          show (c.bind fragment w).world.spots fragment .child (indicesOf c.template.placeholders .child) =
            .error fault from herr]
        exact .inr ⟨⟨fault, rfl⟩, hmissing (hspot .child (.inr rfl) i hi hno)⟩
    · rw [show (c.bind fragment w).world.spots fragment .slot (indicesOf c.template.placeholders .slot) =
          .error fault from herr]
      exact .inr ⟨⟨fault, rfl⟩, hmissing (hspot .slot (.inl rfl) i hi hno)⟩
  · rw [herr]
    exact .inr ⟨⟨fault, rfl⟩, hmissing fun hf => hno (h.located_iff.2 hf).1⟩

end Core

/-- **Mounting.** A waiting component is mounted wherever it is put, or some marker in it is not found. -/
theorem Stands.mounts {g : History} {c : Component H} {X : Forest Bare} (h : Stands .created g c X)
    (hm : c.core.template.Everywhere Template.Marked) (hq : c.core.template.Everywhere Template.Quiet) :
    Mounts g c X := by
  induction h with
  | @mk g core row X props embeds own kids ih =>
    obtain ⟨fragment, hwaits, rfl⟩ := own
    have hkids : ∀ k ∈ row, Mounts (core.handed g k.index) k.component k.ground := by
      intro k hk
      obtain ⟨bindings, hi⟩ := embeds.child k hk
      exact ih k hk (Template.Everywhere.child hm hi) (Template.Everywhere.child hq hi)
    intro target anchor w Q hb hw ht ha
    have hnone : core.waiting fragment row ++ join (([] : List Inset).map Inset.ground) = core.waiting fragment row :=
      append_nil _
    have hmounts := hwaits.mounts props embeds hm.self hq.self hkids [] (List.nil_sublist _)
      (fun _ h => absurd h List.not_mem_nil) target anchor hb (by rw [hnone]; exact hw) ht (by rw [hnone]; exact ha)
    rw [hnone] at hmounts
    exact hmounts.imp_left fun hmounted => hmounted.imp fun _ _ => Carries.stands

/-- a component that is not mounted is created if need be, and mounted, or some marker in it is not found -/
theorem Stands.mount {s : State} (hs : s ≠ .mounted) {g : History} {c : Component H} {X : Forest Bare} (h : Stands s g c X)
    (hm : c.core.template.Everywhere Template.Marked) (hq : c.core.template.Everywhere Template.Quiet) {target : NodeId}
    {anchor : Option NodeId} {w : World H} {Q : Forest Bare} (hb : w.backend = .faithful) (hw : w.document.Holds (Q ++ X))
    (ht : target ∈ Q.ids) (ha : ∀ a ∈ anchor, a ∈ Q.ids) :
    (∃ X', Mounted g c X' Q target anchor w (c.mount target anchor w)) ∨
      (∃ fault, (c.mount target anchor w).result = .error fault) ∧ ¬ c.core.template.Everywhere Template.Findable := by
  have hout : ∀ {w : World H} {X : Forest Bare}, w.document.Holds (Q ++ X) → ∀ a ∈ anchor, a ∉ X.ids := by
    intro w X hw a haa hin
    exact (List.nodup_append.1 (ids_append Q X ▸ hw.nodup)).2.2 a (ha a haa) a hin rfl
  -- where the component has to be created first
  have hfresh : s = .unmounted ∨ s = .destroyed → (c.core.phase = .unmounted ∨ c.core.phase = .destroyed) → X = nil →
      (∃ X', Mounted g c X' Q target anchor w (c.mount target anchor w)) ∨
        (∃ fault, (c.mount target anchor w).result = .error fault) ∧ ¬ c.core.template.Everywhere Template.Findable := by
    rintro hstate hphase rfl
    rw [append_nil] at hw
    have hc := h.create hstate w Q hw
    obtain ⟨X', hX', hholds⟩ := hc.stands
    have hmount : c.mount target anchor w = (c.create w).self.mountCreated target anchor (c.create w).world := by
      rw [Component.mount]
      rcases hphase with hp | hp <;>
      · rw [hp]
        dsimp only
        rw [hc.ok]
    rw [hmount]
    rcases hX'.mounts (by rw [hc.template]; exact hm) (by rw [hc.template]; exact hq) target anchor _ Q
      (hc.backend.trans hb) hholds ht (hout hholds) with hmounted | ⟨herr, hno⟩
    · refine .inl ⟨X', hmounted.ok, hmounted.template.trans hc.template, hmounted.props.trans hc.props,
        hmounted.backend.trans hc.backend, ?_, ?_⟩
      · rw [← hc.template]
        exact hmounted.found
      · rw [← hc.template]
        exact hmounted.stands
    · exact .inr ⟨herr, by rw [← hc.template]; exact hno⟩
  have hh := h
  cases h with
  | @mk _ core row X _ _ own kids =>
    cases s with
    | unmounted => exact hfresh (.inl rfl) (.inl own.1) own.2.2
    | destroyed => exact hfresh (.inr rfl) (.inr own.1) own.2.2
    | mounted => exact absurd rfl hs
    | created =>
      obtain ⟨fragment, hwaits, -⟩ := own
      have hmount : (Component.mk core [] (row.map Kid.nested)).mount target anchor w =
          (Component.mk core [] (row.map Kid.nested)).mountCreated target anchor w := by
        rw [Component.mount, Component.core, hwaits.phase]
      rw [hmount]
      exact (hh.mounts hm hq target anchor w Q hb hw ht (hout hw)).imp_left fun hmounted => ⟨X, hmounted⟩

/-- a mounted component is not mounted again -/
theorem Stands.mount_mounted {g : History} {c : Component H} {X : Forest Bare} (h : Stands .mounted g c X) (target : NodeId)
    (anchor : Option NodeId) (w : World H) : c.mount target anchor w = .fail .alreadyMounted c w := by
  cases h with
  | mk _ _ own =>
    obtain ⟨start, hshows, -⟩ := own
    rw [Component.mount, Component.core, hshows.phase]

end LiveMarkup
