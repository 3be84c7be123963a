/-
Mounting all that is nested in a component.

While the blocks of a component are mounted, its markers stay in its fragment: what a block moves is in fragments of its own,
and host code leaves markers in their places. So no marker has lost its place when the turn of its block comes, and a
component that is mounted is mounted with all that is nested in it.

- `Core.bind_moors`: binding a component moves markers in its own fragment only;
- `mountRow_lands`: the blocks of a row are all mounted, if that does not fail;
- `Component.lands`: so is all that is nested in a component.
-/
import LiveMarkup.Proofs.Component.Lifecycle
import LiveMarkup.Proofs.Component.Opening

namespace LiveMarkup

open Markup Marker Forest

variable {H : Host} {B : Logbook H}

/-! ## Binding -/

section

variable {w w₁ : World H} {fragment : NodeId}

/-- the same for two changes of a world -/
theorem World.Does.chain {K : List Nat} {notes : List Remark} {E : NodeId → Prop} {fs gs xs ys : List NodeId}
    {d₂ : Document (Listener H.Handler)} (h : w.Does B K notes w₁) (hd : w.document.Intact)
    (hm : w.document.Moors E w₁.document) (hm' : w₁.document.Moors (w₁.document.Touched gs ys) d₂)
    (hE : ∀ x, w.document.Marked x → E x → w.document.Touched fs xs x)
    (hgs : ∀ f ∈ gs, f ∈ fs ∧ w.document.Sorted .fragment f) (hys : ∀ y ∈ ys, w.document.Touched fs xs y) :
    w.document.Moors (w.document.Touched fs xs) d₂ :=
  hm.chain hm' hE hgs hys h.fills h.keeps.fresh hd.valid h.keeps.intact.valid

/-- host code that leaves markers in their places comes first -/
theorem World.Does.stays {K : List Nat} {notes : List Remark} {d₂ : Document (Listener H.Handler)} (h : w.Does B K notes w₁)
    (hd : w.document.Intact) (hm : w.document.Moors (fun _ => False) w₁.document)
    (hm' : w₁.document.Moors (w₁.document.Touched [] []) d₂) : w.document.Moors (w.document.Touched [] []) d₂ :=
  h.chain hd hm hm' (fun _ _ => False.elim) (List.forall_mem_nil _) (List.forall_mem_nil _)

theorem bindTexts_moors (B : Logbook H) (hd : w.document.Intact) (hf : w.document.Vacant .fragment fragment)
    {cells : List TextCell} (hc : ∀ cell ∈ cells, w.document.Vacant (.text "") cell.node) :
    w.document.Moors (w.document.Touched [fragment] []) (bindTexts fragment cells w).world.document := by
  induction cells generalizing w with
  | nil => exact .refl _
  | cons cell cells ih =>
    rw [List.forall_mem_cons] at hc
    rw [bindTexts]
    cases hmarker : w.marker fragment ⟨.text, cell.index⟩ with
    | error fault => exact .refl _
    | ok spot =>
      obtain ⟨p, hp, hin⟩ := World.below_of_marker hd hmarker
      have hunshut := World.unshut_of_marker hd hf.hollow hmarker
      have hbelow := (Document.contains_iff hd.valid).2 (.inr ⟨p, hp, hin⟩)
      have hone : w.Does B [] [] (w.edit (·.replaceWith spot cell.node)) := World.does_edit
        (Document.keeps_replaceWith hd spot cell.node) (Document.fillsNone_replaceWith hd hunshut hc.1.hollow)
      exact hone.chain hd (Document.moors_replaceWith hd hc.1 hunshut)
        (ih hone.keeps.intact (hf.fills hone.fills hone.keeps.fresh) fun cell hcell =>
          (hc.2 cell hcell).fills hone.fills hone.keeps.fresh)
        (fun x _ hx => .inr ⟨fragment, List.mem_singleton.2 rfl, Document.contains_trans hd.valid hbelow hx⟩)
        (List.forall_mem_singleton.2 ⟨List.mem_singleton.2 rfl, hf.toSorted⟩) (List.forall_mem_nil _)

/-- every node is in its place -/
structure World.Seats (w w₁ : World H) : Prop where
  intact : w₁.document.Intact
  parent : ∀ x, w₁.document.parent? x = w.document.parent? x

theorem World.Seats.trans {w₂ : World H} (h : w.Seats w₁) (h' : w₁.Seats w₂) : w.Seats w₂ :=
  ⟨h'.intact, fun x => (h'.parent x).trans (h.parent x)⟩

theorem World.seats_write (hd : w.document.Intact) (x : NodeId) (writing : Writing (Listener H.Handler)) :
    w.Seats (w.edit (writing.perform x)) := by
  obtain ⟨hd₁, hr⟩ := Document.rewrites_perform hd writing x
  exact ⟨hd₁, hr.parent⟩

theorem World.Seats.moors {E : NodeId → Prop} (h : w.Seats w₁) (hd : w.document.Intact) :
    w.document.Moors E w₁.document := Document.moors_of_parents hd.valid h.intact.valid h.parent

theorem bindAttributes_seats (fragment : NodeId) (hd : w.document.Intact) (cells : List AttributeCell) :
    w.Seats (bindAttributes fragment cells w).world := by
  induction cells generalizing w with
  | nil => exact ⟨hd, fun _ => rfl⟩
  | cons cell cells ih =>
    rw [bindAttributes]
    cases w.marker fragment ⟨.attribute, cell.index⟩ with
    | error fault => exact ⟨hd, fun _ => rfl⟩
    | ok x =>
      have hone : w.Seats (w.renameAttribute x (Marker.name ⟨.attribute, cell.index⟩) cell.name cell.value) := by
        unfold World.renameAttribute
        cases w.backend.renamesInPlace with
        | true => exact World.seats_write hd x (.renameAttribute _ cell.name cell.value)
        | false =>
          have hremove := World.seats_write hd x (.removeAttribute (Marker.name ⟨.attribute, cell.index⟩))
          exact hremove.trans (World.seats_write hremove.intact x (.setAttribute cell.name cell.value))
      exact hone.trans (ih hone.intact)

theorem attachListeners_seats {T : Type} (fragment : NodeId) (hd : w.document.Intact) (channel index : Nat)
    (ps : List (Placeholder (Action H) T)) : w.Seats (attachListeners fragment channel index ps w).world := by
  induction ps generalizing index w with
  | nil => exact ⟨hd, fun _ => rfl⟩
  | cons p ps ih =>
    cases p with
    | event event topic =>
      rw [attachListeners]
      dsimp only
      cases w.marker fragment ⟨.event, index⟩ with
      | error fault => exact ⟨hd, fun _ => rfl⟩
      | ok x =>
        have hremove := World.seats_write hd x (.removeAttribute (Marker.name ⟨.event, index⟩))
        have hlisten := World.seats_write hremove.intact x (.listen event (.channel channel topic))
        exact (hremove.trans hlisten).trans (ih hlisten.intact (index + 1))
    | _ => exact ih hd (index + 1)

theorem runActions_moors {T : Type} (fragment : NodeId) (hd : w.document.Intact) (props : Props) {index : Nat}
    {ps : List (Placeholder (Action H) T)} (ha : ∀ e ∈ spotsOf Placeholder.action? index ps, Action.Notes B e.1 e.2) :
    w.document.Moors (w.document.Touched [] []) (runActions fragment props index ps w).world.document := by
  induction ps generalizing index w with
  | nil => exact .refl _
  | cons p ps ih =>
    rw [spotsOf_cons, List.forall_mem_append] at ha
    cases p with
    | action run param =>
      have hrun : Action.Notes B index run := ha.1 _ (List.mem_singleton.2 rfl)
      rw [runActions]
      dsimp only
      cases w.marker fragment ⟨.action, index⟩ with
      | error fault => exact .refl _
      | ok x =>
        dsimp only
        have hremove : w.Does B [] [] (w.edit (·.removeAttribute x (Marker.name ⟨.action, index⟩))) :=
          World.does_removeAttribute hd x _
        have hseats := World.seats_write hd x (.removeAttribute (Marker.name ⟨.action, index⟩))
        have hbegins := (hrun.begins x (param.bind props.get?) _ hremove.keeps.intact).does
        have hstays := hrun.stays x (param.bind props.get?) _ hremove.keeps.intact
        generalize run x (param.bind props.get?) (w.edit (·.removeAttribute x (Marker.name ⟨.action, index⟩))) = ran at *
        exact hremove.stays hd (hseats.moors hd)
          (hbegins.stays hremove.keeps.intact hstays (ih hbegins.keeps.intact ha.2))
    | _ => exact ih hd ha.2

/-- a component that binds itself leaves the markers in other fragments where they are -/
theorem Core.bind_moors {c : Core H} (hd : w.document.Intact) (hc : c.Noting B) (hf : w.document.Vacant .fragment fragment)
    (ht : ∀ cell ∈ c.textCells, w.document.Vacant (.text "") cell.node) :
    w.document.Moors (w.document.Touched [fragment] []) (c.bind fragment w).world.document := by
  have htexts := bindTexts_does (B := B) hd hf.hollow fun cell hcell => (ht cell hcell).hollow
  have hmoors := bindTexts_moors B hd hf ht
  rw [Core.bind]
  dsimp only
  generalize bindTexts fragment c.textCells w = texts at htexts hmoors ⊢
  have hd₁ := htexts.keeps.intact
  -- what is moved from here on is moved by host code, and no marker is
  have hlater : ∀ {d : Document (Listener H.Handler)}, texts.world.document.Moors (texts.world.document.Touched [] []) d →
      w.document.Moors (w.document.Touched [fragment] []) d := fun h =>
    htexts.chain hd hmoors h (fun _ _ hx => hx) (List.forall_mem_nil _) (List.forall_mem_nil _)
  cases texts.result with
  | error fault => exact hmoors
  | ok =>
    dsimp only
    have hattributes := (bindAttributes_does (B := B) fragment hd₁ hc.named).1
    have hseats := bindAttributes_seats fragment hd₁ c.attributeCells
    generalize bindAttributes fragment c.attributeCells texts.world = attributes at hattributes hseats ⊢
    cases attributes.result with
    | error fault => exact hlater (hseats.moors hd₁)
    | ok =>
      dsimp only
      have hboth := htexts.trans hattributes hd
      have hlistening := attachListeners_seats fragment hattributes.keeps.intact c.channel 0
        c.template.placeholders
      have hlisteners := (attachListeners_does (B := B) hattributes.keeps.intact (hboth.fills.hollow _ hf.hollow)
        c.channel hc.template.sound.event_lt).1
      generalize attachListeners fragment c.channel 0 c.template.placeholders attributes.world = listeners at *
      cases listeners.result with
      | error fault => exact hlater ((hseats.trans hlistening).moors hd₁)
      | ok =>
        dsimp only
        exact hlater (hattributes.stays hd₁ (hseats.moors hd₁) (hlisteners.stays hattributes.keeps.intact
          (hlistening.moors hattributes.keeps.intact)
          (runActions_moors fragment hlisteners.keeps.intact c.props hc.template.notes)))

end

/-! ## Where blocks are -/

/-- slot contents belong to slot placeholders and children to child placeholders, in their order and at every depth; blocks of
the host may be among them -/
inductive Component.Arranged : Component H → Prop
  | mk {core : Core H} {slots children : List (Nested H)}
      (contents : (slots.map Nested.index).Sublist (indicesOf core.template.placeholders .slot))
      (kids : (children.map Nested.index).Sublist (indicesOf core.template.placeholders .child))
      (inSlots : ∀ n ∈ slots, ∀ c, n.block = .component c → Arranged c)
      (inChildren : ∀ n ∈ children, ∀ c, n.block = .component c → Arranged c) : Arranged (.mk core slots children)

/-- an arranged component, or no component -/
def Block.Arranged (b : Block H) : Prop := ∀ c, b = .component c → c.Arranged

/-- so are those that are like it and have the same templates -/
theorem Component.Like.arranged {R : Likeness H} (hR : ∀ a b, R.core a b → b.template = a.template) {c c' : Component H}
    (h : c.Like R c') (hc : c.Arranged) : c'.Arranged := by
  induction c using Component.induct generalizing c' with
  | mk core slots children ihs ihc =>
    obtain ⟨core', slots', children'⟩ := c'
    obtain ⟨hcore, hslots, hchildren⟩ := h
    cases hc with
    | mk contents kids inSlots inChildren =>
      have hrow : ∀ row row' : List (Nested H), likeAll R row row' →
          (∀ n ∈ row, ∀ c, n.block = .component c → ∀ {c' : Component H}, c.Like R c' → c.Arranged → c'.Arranged) →
          (∀ n ∈ row, ∀ c, n.block = .component c → c.Arranged) → ∀ n ∈ row', ∀ c, n.block = .component c → c.Arranged := by
        intro row row' hlike ih harranged n' hn' c' hb'
        obtain ⟨n, hn, -, hblock⟩ := exists_of_forall₂ (likeAll_iff.1 hlike) n' hn'
        rw [hb'] at hblock
        cases hb : n.block with
        | text t => rw [hb] at hblock; exact hblock.elim
        | foreign f => rw [hb] at hblock; exact hblock.elim
        | component c =>
          rw [hb] at hblock
          exact ih n hn c hb hblock (harranged n hn c hb)
      have htemplate : core'.template = core.template := hR _ _ hcore
      exact .mk (by rw [hslots.indices, htemplate]; exact contents) (by rw [hchildren.indices, htemplate]; exact kids)
        (hrow _ _ hslots ihs inSlots) (hrow _ _ hchildren ihc inChildren)

theorem Component.Built.arranged {c : Component H} (h : c.Built) : c.Arranged := by
  induction c using Component.induct with
  | mk core slots children ihs ihc =>
    obtain ⟨hi, hj, hs, hc⟩ := h
    have hrow : ∀ row : List (Nested H), builtAll row → (∀ n ∈ row, ∀ c, n.block = .component c → c.Built → c.Arranged) →
        ∀ n ∈ row, ∀ c, n.block = .component c → c.Arranged := by
      intro row hbuilt ih n hn c hb
      have hblock := builtAll_iff.1 hbuilt n hn
      rw [hb] at hblock
      exact ih n hn c hb hblock
    exact .mk hi (hj ▸ List.Sublist.refl _) (hrow slots hs ihs) (hrow children hc ihc)

/-- an instance is arranged, whatever arranged blocks fill its slots -/
theorem Component.furnished_arranged {t : Template (Action H)} {options : Options H} (h : ∀ e ∈ options.slots, e.2.Arranged)
    (w : World H) : (furnished t options w).Arranged := by
  have hbuilt := (ofTemplate_instance t options.props w).built.arranged
  have htemplate := (ofTemplate_instance t options.props w).template
  unfold furnished
  generalize (ofTemplate t options.props w).1 = c at hbuilt htemplate
  obtain ⟨core, slots, children⟩ := c
  obtain rfl : core.template = t := htemplate
  cases hbuilt with
  | mk contents kids inSlots inChildren =>
    refine .mk (fillSlots_indices _ _ _) kids (fun n hn c hb => ?_) inChildren
    obtain ⟨e, he, hblock⟩ := mem_fillSlots hn
    exact h e he c (hblock.symm.trans hb)

/-! ## Finding and taking out markers -/

section

variable {w w₁ : World H} {g g₁ : Ledger} {row : List (Nested H)} {spots : List (Nat × NodeId)} {fragment : NodeId}

/-- the same for two changes of a world -/
theorem World.Books.chain {S : List Subject} {K : List Nat} {E : NodeId → Prop} {fs gs xs ys : List NodeId}
    {d₂ : Document (Listener H.Handler)} (h : w.Books B S True K g w₁ g₁) (hd : w.document.Intact)
    (hm : w.document.Moors E w₁.document) (hm' : w₁.document.Moors (w₁.document.Touched gs ys) d₂)
    (hE : ∀ x, w.document.Marked x → E x → w.document.Touched fs xs x)
    (hgs : ∀ f ∈ gs, f ∈ fs ∧ w.document.Sorted .fragment f) (hys : ∀ y ∈ ys, w.document.Touched fs xs y) :
    w.document.Moors (w.document.Touched fs xs) d₂ :=
  hm.chain hm' hE hgs hys (h.fills trivial) h.keeps.fresh hd.valid h.keeps.intact.valid

/-- a marker that keeps its place -/
theorem World.Books.standing {S : List Subject} {K : List Nat} {E : NodeId → Prop} {fs : List NodeId} {x : NodeId}
    (h : w.Books B S True K g w₁ g₁) (hd : w.document.Intact) (hm : w.document.Moors E w₁.document) (hx : ¬ E x)
    (hs : w.document.Standing fs x) : w₁.document.Standing fs x :=
  hs.step hm hx (h.fills trivial) h.keeps.fresh hd.valid h.keeps.intact.valid

theorem RowWaits.fragments (h : RowWaits B g row spots w) : ∀ f ∈ fragmentsOf row, w.document.Sorted .fragment f := by
  intro f hf
  obtain ⟨n, hn, hf⟩ := mem_fragmentsOf.1 hf
  exact ((h.unfilled n hn).vacant f hf).toSorted

/-- the markers of slots and children that are found below a fragment are there, each an element with its own tag -/
structure World.Found (w : World H) (fragment : NodeId) (category : Category) (spots : List (Nat × NodeId)) : Prop where
  below : ∀ spot ∈ spots, w.document.contains fragment spot.2 = true ∧ ∃ p, w.document.parent? spot.2 = some p
  tags : ∀ spot ∈ spots, ∃ n, w.document.node? spot.2 = some n ∧ n.kind.marker? = some ⟨category, spot.1⟩
  nodup : (spots.map (·.2)).Nodup

theorem World.found_of_spots (hd : w.document.Intact) {category : Category} (hc : category.inTag = false)
    {indices : List Nat} (hi : ∀ i ∈ indices, i < indexLimit) (hn : indices.Nodup)
    (h : w.spots fragment category indices = .ok spots) : w.Found fragment category spots := by
  have htags : ∀ spot ∈ spots, ∃ n, w.document.node? spot.2 = some n ∧ n.kind.marker? = some ⟨category, spot.1⟩ :=
    World.forall_spots h fun i hin _ hx => World.node_of_marker hd hc (hi i hin) hx
  refine ⟨World.forall_spots h fun i _ x hx => ?_, htags, ?_⟩
  · obtain ⟨p, hp, hin⟩ := World.below_of_marker hd hx
    exact ⟨(Document.contains_iff hd.valid).2 (.inr ⟨p, hp, hin⟩), p, hp⟩
  · rw [← World.spots_indices h] at hn
    refine (List.Nodup.of_map _ hn).map_on fun spot hspot spot' hspot' he => ?_
    obtain ⟨n, hnode, hmarker⟩ := htags spot hspot
    obtain ⟨n', hnode', hmarker'⟩ := htags spot' hspot'
    rw [he] at hnode
    obtain rfl := Option.some.inj (hnode.symm.trans hnode')
    exact Prod.ext (congrArg Marker.index (Option.some.inj (hmarker.symm.trans hmarker'))) he

/-- they are in no other fragment -/
theorem World.Found.standing {category : Category} (h : w.Found fragment category spots) (hd : w.document.Intact)
    (hf : w.document.Sorted .fragment fragment) {fs : List NodeId} (hs : ∀ f ∈ fs, w.document.Sorted .fragment f)
    (hn : fragment ∉ fs) : ∀ spot ∈ spots, w.document.Standing fs spot.2 := by
  intro spot hspot
  obtain ⟨n, hnode, hmarker⟩ := h.tags spot hspot
  obtain ⟨hin, hplace⟩ := h.below spot hspot
  refine ⟨⟨n, hnode, by rw [hmarker]; exact Option.some_ne_none _⟩, hplace, fun f hmem => ⟨hs f hmem, ?_⟩⟩
  exact Bool.eq_false_iff.2 fun hin' => hn (hf.unique (hs f hmem) hd hin hin' ▸ hmem)

/-- the markers of slots are others than those of children -/
theorem World.Found.apart {category category' : Category} {spots' : List (Nat × NodeId)} (h : w.Found fragment category spots)
    (h' : w.Found fragment category' spots') (hne : category ≠ category') : ∀ spot ∈ spots, spot.2 ∉ spots'.map (·.2) := by
  intro spot hspot hin
  obtain ⟨spot', hspot', he⟩ := List.mem_map.1 hin
  obtain ⟨n, hnode, hmarker⟩ := h.tags spot hspot
  obtain ⟨n', hnode', hmarker'⟩ := h'.tags spot' hspot'
  rw [he] at hnode'
  obtain rfl := Option.some.inj (hnode.symm.trans hnode')
  exact hne (congrArg Marker.category (Option.some.inj (hmarker.symm.trans hmarker')))

theorem World.discardAll_moors (hw : w.Sober B) (hs : ∀ spot ∈ spots, w.document.Pending spot.2) (held : List NodeId) :
    w.document.Moors (w.document.Touched [] (spots.map (·.2))) (w.discardAll held spots).document := by
  induction spots generalizing w with
  | nil => exact .refl _
  | cons spot spots ih =>
    obtain ⟨index, x⟩ := spot
    rw [List.forall_mem_cons] at hs
    have hone : w.Does B [] [] (w.discard (held ++ spots.map (·.2)) x) := World.does_discard hw hs.1 _
    exact hone.chain hw.intact (Document.moors_discard hw.intact hs.1 _) (ih (hone.sober hw) (hone.pending hw.intact hs.2))
      (fun _ _ he => .inl (he ▸ List.mem_cons_self)) (List.forall_mem_nil _) fun _ hy => .inl (List.mem_cons_of_mem _ hy)

end

/-! ## Mounting all of it -/

section

variable [ForeignBlocks H] {w : World H} {g : Ledger}

/-- a block that has been created with all that is nested in it is mounted with all that, if it is mounted, and moves markers
in its own fragments only -/
def Block.Lands (B : Logbook H) (b : Block H) : Prop :=
  ∀ (target : NodeId) (anchor : Option NodeId) {w : World H} {g : Ledger}, w.document.Plain target → w.Sober B →
    b.channels.Nodup → b.Accounts B g w.document → b.Unfilled w.document → b.Arranged → b.Active → b.fragments.Nodup →
    (b.mountCreated target anchor w).result = .ok () →
    (b.mountCreated target anchor w).self.Each (·.phase = .mounted) (fun _ => True) ∧
      w.document.Moors (w.document.Touched b.fragments []) (b.mountCreated target anchor w).world.document

omit [ForeignBlocks H] in
/-- the blocks of a row wait for being mounted, all of them created, and their markers are in their places -/
structure RowStands (B : Logbook H) (g : Ledger) (row : List (Nested H)) (spots : List (Nat × NodeId)) (w : World H) : Prop
    extends RowWaits B g row spots w where
  blocks : ∀ n ∈ row, n.block.Arranged ∧ n.block.Active
  fragments : (fragmentsOf row).Nodup
  indices : (row.map Nested.index).Sublist (spots.map (·.1))
  distinct : (spots.map (·.2)).Nodup
  standing : ∀ spot ∈ spots, w.document.Standing (fragmentsOf row) spot.2

section

variable {row : List (Nested H)} {n : Nested H} {empty ahead after : List (Nat × NodeId)} {index : Nat} {s : NodeId}

omit [ForeignBlocks H] in
/-- the markers before the one that is looked for are taken out; the others stay -/
theorem RowStands.onward (h : RowStands B g row (empty ++ ahead) w) (hi : (row.map Nested.index).Sublist (ahead.map (·.1)))
    (kept : List NodeId) : RowStands B g row ahead (w.discardAll kept empty) ∧
      ∀ d₂, (w.discardAll kept empty).document.Moors
          ((w.discardAll kept empty).document.Touched (fragmentsOf row) (ahead.map (·.2))) d₂ →
        w.document.Moors (w.document.Touched (fragmentsOf row) ((empty ++ ahead).map (·.2))) d₂ := by
  have hd := h.sober.intact
  have hpending : ∀ spot ∈ empty, w.document.Pending spot.2 := fun spot hspot =>
    h.pending spot (List.mem_append_left _ hspot)
  have hgone := World.does_discardAll h.sober hpending kept
  have hmoors := World.discardAll_moors h.sober hpending kept
  have hbooks : w.Books B [.presence] True [] g (w.discardAll kept empty) g := .of_does hgone
  have hdistinct := h.distinct
  rw [List.map_append, List.nodup_append'] at hdistinct
  obtain ⟨-, hahead, hapart⟩ := hdistinct
  refine ⟨⟨(h.few (List.subset_append_right _ _)).step hbooks (List.disjoint_nil_right _), h.blocks, h.fragments, hi, hahead,
    fun spot hspot => ?_⟩, fun d₂ hm => ?_⟩
  · have hstands := h.standing spot (List.mem_append_right _ hspot)
    exact hbooks.standing hd hmoors (hstands.not_touched (List.nil_subset _) fun hin =>
      hapart hin (List.mem_map_of_mem hspot)) hstands
  · rw [List.map_append]
    refine hgone.chain hd hmoors hm (fun x _ hx => ?_) (fun f hin => ⟨hin, h.toRowWaits.fragments f hin⟩)
      fun x hin => .inl (List.mem_append_right _ hin)
    exact hx.mono (List.nil_subset _) (List.subset_append_left _ _)

omit [ForeignBlocks H] in
/-- a block is mounted and its marker taken out; the blocks behind it go on waiting -/
theorem RowStands.next (h : RowStands B g (n :: row) ((index, s) :: after) w)
    (hi : (row.map Nested.index).Sublist (after.map (·.1))) {w₁ : World H} {g₁ : Ledger} (hb : w.Books B [.presence] True n.block.channels g w₁ g₁)
    (hm : w.document.Moors (w.document.Touched n.block.fragments []) w₁.document) (held : List NodeId) :
    RowStands B g₁ row after (w₁.discard held s) ∧
      ∀ d₂, (w₁.discard held s).document.Moors
          ((w₁.discard held s).document.Touched (fragmentsOf row) (after.map (·.2))) d₂ →
        w.document.Moors (w.document.Touched (fragmentsOf (n :: row)) (((index, s) :: after).map (·.2))) d₂ := by
  obtain ⟨i, atRoot, block⟩ := n
  have hd := h.sober.intact
  obtain ⟨-, hrow, -⟩ := List.nodup_append'.1 h.fragments
  obtain ⟨-, -, hapart⟩ := List.nodup_append'.1 h.nodup
  have hdistinct := h.distinct
  rw [List.map_cons, List.nodup_cons] at hdistinct
  have hwaits : RowWaits B g₁ row ((index, s) :: after) w₁ := h.tail.step hb hapart.symm
  have hgone : w₁.Does B [] [] (w₁.discard held s) :=
    World.does_discard hwaits.sober (hwaits.pending _ List.mem_cons_self) held
  have hmoors : w₁.document.Moors (· = s) (w₁.discard held s).document :=
    Document.moors_discard hwaits.sober.intact (hwaits.pending _ List.mem_cons_self) _
  have hbooks : w₁.Books B [.presence] True [] g₁ (w₁.discard held s) g₁ := .of_does hgone
  refine ⟨⟨(hwaits.few (List.subset_cons_self _ _)).step hbooks (List.disjoint_nil_right _),
    fun n hn => h.blocks n (List.mem_cons_of_mem _ hn), hrow, hi, hdistinct.2, fun spot hspot => ?_⟩, fun d₂ hlast => ?_⟩
  · have hstands := h.standing spot (List.mem_cons_of_mem _ hspot)
    have hstill := hb.standing hd hm (hstands.not_touched (List.subset_append_left _ _) List.not_mem_nil)
      (hstands.mono (List.subset_append_right _ _))
    exact hbooks.standing hwaits.sober.intact hmoors (fun he => hdistinct.1 (List.mem_map.2 ⟨spot, hspot, he⟩)) hstill
  · have hrest : w₁.document.Moors (w₁.document.Touched (fragmentsOf row) (s :: after.map (·.2))) d₂ :=
      hgone.chain hwaits.sober.intact hmoors hlast (fun x _ hx => .inl (hx ▸ List.mem_cons_self))
        (fun f hin => ⟨hin, hwaits.fragments f hin⟩) fun x hin => .inl (List.mem_cons_of_mem _ hin)
    refine hb.chain hd hm hrest (fun x _ hx => ?_)
      (fun f hin => ⟨List.mem_append_right _ hin, h.tail.fragments f hin⟩) fun x hin => .inl hin
    exact hx.mono (List.subset_append_left _ _) (List.nil_subset _)

end

/-- all blocks of a row are mounted, if that does not fail -/
theorem mountRow_lands (hf : GuestsHeed B) {row : List (Nested H)} (h : ∀ n ∈ row, n.block.Lands B) (fragment : NodeId)
    (held later : List NodeId) {spots : List (Nat × NodeId)} (hr : RowStands B g row spots w)
    (hok : (mountRow fragment held later row spots w).result = .ok ()) :
    (∀ n ∈ (mountRow fragment held later row spots w).self, n.block.Each (·.phase = .mounted) fun _ => True) ∧
      w.document.Moors (w.document.Touched (fragmentsOf row) (spots.map (·.2)))
        (mountRow fragment held later row spots w).world.document := by
  induction row generalizing held spots w g with
  | nil => exact ⟨List.forall_mem_nil _, World.discardAll_moors hr.sober hr.pending _⟩
  | cons n row ih =>
    obtain ⟨index, atRoot, block⟩ := n
    rw [List.forall_mem_cons] at h
    obtain ⟨s, after, hdrop, hafter⟩ := exists_spot hr.indices
    have hdrop : spots.dropWhile (·.1 ≠ index) = (index, s) :: after := hdrop
    have hsplit := List.takeWhile_append_dropWhile (p := (·.1 ≠ index)) (l := spots)
    rw [mountRow, hdrop] at hok ⊢
    rw [hdrop] at hsplit
    dsimp only at hok ⊢
    generalize spots.takeWhile (·.1 ≠ index) = empty at hsplit hok ⊢
    subst hsplit
    obtain ⟨hr, hback⟩ := hr.onward (hafter.cons_cons index) (held ++ List.map (fun x => x.2) ((index, s) :: after) ++ later)
    refine And.imp_right (hback _) ?_
    clear hback
    generalize w.discardAll (held ++ List.map (fun x => x.2) ((index, s) :: after) ++ later) empty = w at *
    -- the marker of the block is in something that is not shut
    obtain ⟨parent, hparent⟩ := (hr.standing _ List.mem_cons_self).placed
    rw [hparent] at hok ⊢
    dsimp only at hok ⊢
    have hplain : w.document.Plain parent := ⟨hr.sober.intact.valid.below
      (Document.mem_ids_of_parent? hr.sober.intact.valid hparent).1, (hr.pending _ List.mem_cons_self).parent parent hparent⟩
    have hchannels := (List.nodup_append'.1 hr.nodup).1
    have haccounts := hr.accounts _ List.mem_cons_self
    have hunfilled := hr.unfilled _ List.mem_cons_self
    have hblock := hr.blocks _ List.mem_cons_self
    have hlands := h.1 parent (some s) hplain hr.sober hchannels haccounts hunfilled hblock.1 hblock.2
      (List.nodup_append'.1 hr.fragments).1
    obtain ⟨g₁, hone⟩ := block.opens hf parent (some s) hplain hr.sober hchannels haccounts hunfilled
    dsimp only [Nested.block] at hlands
    generalize block.mountCreated parent (some s) w = o at hlands hone hok ⊢
    cases hresult : o.result with
    | error fault =>
      rw [hresult] at hok
      exact absurd hok error_ne_ok
    | ok =>
      rw [hresult] at hok
      obtain ⟨hmounted, hmoved⟩ := hlands hresult
      obtain ⟨hr₁, hback⟩ := hr.next hafter hone.books hmoved (held ++ o.self.handles ++ (after.map (·.2) ++ later))
      obtain ⟨hrest, hmoors⟩ := ih h.2 _ hr₁ hok
      exact ⟨List.forall_mem_cons.2 ⟨hmounted, hrest⟩, hback _ hmoors⟩

omit [ForeignBlocks H] in
/-- a row of blocks whose markers are all found below a fragment -/
theorem RowWaits.stands (h : RowWaits B g row spots w) {fragment : NodeId} {category : Category}
    (hs : w.Found fragment category spots) (hf : w.document.Sorted .fragment fragment)
    (hblocks : ∀ n ∈ row, n.block.Arranged ∧ n.block.Active) (hn : (fragment :: fragmentsOf row).Nodup)
    (hi : (row.map Nested.index).Sublist (spots.map (·.1))) : RowStands B g row spots w :=
  have ⟨hout, hnodup⟩ := List.nodup_cons.1 hn
  ⟨h, hblocks, hnodup, hi, hs.nodup, hs.standing h.sober.intact hf h.fragments hout⟩

/-- the blocks of a component that has bound itself are all mounted, if that does not fail -/
theorem Core.mountBlocks_lands (hf : GuestsHeed B) {core : Core H} {fragment : NodeId} (target : NodeId)
    (anchor : Option NodeId) {slotSpots childSpots : List (Nat × NodeId)} {slots children : List (Nested H)}
    (hs : ∀ n ∈ slots, n.block.Lands B) (hc : ∀ n ∈ children, n.block.Lands B)
    (hrs : RowWaits B g slots slotSpots w) (hrc : RowWaits B g children childSpots w)
    (hapart : List.Disjoint (channelsOf slots) (channelsOf children)) (hsorted : w.document.Sorted .fragment fragment)
    (hfs : w.Found fragment .slot slotSpots) (hfc : w.Found fragment .child childSpots)
    (his : (slots.map Nested.index).Sublist (slotSpots.map (·.1)))
    (hic : (children.map Nested.index).Sublist (childSpots.map (·.1)))
    (has : ∀ n ∈ slots, n.block.Arranged ∧ n.block.Active) (hac : ∀ n ∈ children, n.block.Arranged ∧ n.block.Active)
    (hn : (fragment :: (fragmentsOf slots ++ fragmentsOf children)).Nodup)
    (hok : (core.mountBlocks fragment target anchor slotSpots childSpots slots children w).result = .ok ()) :
    let o := core.mountBlocks fragment target anchor slotSpots childSpots slots children w
    o.self.Each (·.phase = .mounted) (fun _ => True) ∧
      w.document.Moors (w.document.Touched (fragment :: (fragmentsOf slots ++ fragmentsOf children)) []) o.world.document := by
  intro o
  subst o
  have hd := hrs.sober.intact
  obtain ⟨hout, hboth⟩ := List.nodup_cons.1 hn
  rw [List.mem_append, not_or] at hout
  obtain ⟨hns, hnc, -⟩ := List.nodup_append'.1 hboth
  rw [Core.mountBlocks] at hok ⊢
  dsimp only at hok ⊢
  generalize (w.document.children fragment).filter (!((slotSpots ++ childSpots).map (·.2)).contains ·) = roots at hok ⊢
  generalize Core.handles { core with roots } = handles at hok ⊢
  have hlands := mountRow_lands hf hs fragment handles (childSpots.map (·.2))
    (hrs.stands hfs hsorted has (List.nodup_cons.2 ⟨hout.1, hns⟩) his)
  obtain ⟨g₁, hcontents⟩ := mountRow_settles (fun n _ => n.block.opens hf) fragment handles (childSpots.map (·.2)) hrs
  generalize mountRow fragment handles (childSpots.map (·.2)) slots slotSpots w = contents at *
  cases hr : contents.result with
  | error fault =>
    rw [hr] at hok
    exact absurd hok error_ne_ok
  | ok =>
    rw [hr] at hok
    dsimp only at hok ⊢
    obtain ⟨hmounted, hmoors⟩ := hlands hr
    -- the markers of the children have kept their places
    have hall : ∀ f ∈ fragmentsOf slots ++ fragmentsOf children, w.document.Sorted .fragment f :=
      List.forall_mem_append.2 ⟨hrs.fragments, hrc.fragments⟩
    have hstanding : ∀ spot ∈ childSpots, contents.world.document.Standing (fragmentsOf children) spot.2 := by
      intro spot hspot
      have hstands := hfc.standing hd hsorted hall (List.nodup_cons.1 hn).1 spot hspot
      exact hcontents.books.standing hd hmoors (hstands.not_touched (List.subset_append_left _ _)
        (hfc.apart hfs (by decide) spot hspot)) (hstands.mono (List.subset_append_right _ _))
    have hrc₁ := hrc.step hcontents.books hapart.symm
    have hd₁ := hrc₁.sober.intact
    have hstands : RowStands B g₁ children childSpots contents.world := ⟨hrc₁, hac, hnc, hic, hfc.nodup, hstanding⟩
    have hlands := mountRow_lands hf hc fragment (handles ++ handlesOf contents.self) [] hstands
    obtain ⟨g₂, hkids⟩ := mountRow_settles (fun n _ => n.block.opens hf) fragment (handles ++ handlesOf contents.self) [] hrc₁
    generalize mountRow fragment (handles ++ handlesOf contents.self) [] children childSpots contents.world = kids at *
    cases hr' : kids.result with
    | error fault =>
      rw [hr'] at hok
      exact absurd hok error_ne_ok
    | ok =>
      obtain ⟨hmounted', hmoors'⟩ := hlands hr'
      refine ⟨⟨rfl, eachOf_iff.2 hmounted, eachOf_iff.2 hmounted'⟩, ?_⟩
      have hd₂ := (hkids.books.sober hrc₁.sober).intact
      have hlast : kids.world.document.Moors (kids.world.document.Touched [fragment] [])
          (kids.world.document.insertBefore target fragment anchor) :=
        (Document.moors_insertBefore hd₂ target fragment anchor).mono fun x hx =>
          .inr ⟨fragment, List.mem_singleton.2 rfl, hx⟩
      have hthen : contents.world.document.Moors
          (contents.world.document.Touched (fragment :: fragmentsOf children) (childSpots.map (·.2)))
          (kids.world.document.insertBefore target fragment anchor) := by
        have hsorted₁ := hsorted.fills (hcontents.books.fills trivial) hcontents.books.keeps.fresh
        refine hkids.books.chain hd₁ hmoors' hlast (fun x _ hx => ?_)
          (List.forall_mem_singleton.2 ⟨List.mem_cons_self, hsorted₁⟩) (List.forall_mem_nil _)
        exact hx.mono (List.subset_cons_self _ _) (List.Subset.refl _)
      have hfirst : w.document.Moors (w.document.Touched (fragment :: (fragmentsOf slots ++ fragmentsOf children))
          ((slotSpots ++ childSpots).map (·.2))) (kids.world.document.insertBefore target fragment anchor) := by
        rw [List.map_append]
        refine hcontents.books.chain hd hmoors hthen (fun x _ hx => ?_) (List.forall_mem_cons.2 ⟨⟨List.mem_cons_self, hsorted⟩,
          fun f hin => ⟨List.mem_cons_of_mem _ (List.mem_append_right _ hin), hrc.fragments f hin⟩⟩)
          fun x hin => .inl (List.mem_append_right _ hin)
        exact hx.mono (List.subset_cons_of_subset _ (List.subset_append_left _ _)) (List.subset_append_left _ _)
      -- the markers themselves are in the fragment
      refine hfirst.mono fun x hx => .inr (hx.elim (fun hin => ?_) id)
      obtain ⟨spot, hspot, rfl⟩ := List.mem_map.1 hin
      refine ⟨fragment, List.mem_cons_self, ?_⟩
      exact (List.mem_append.1 hspot).elim (fun h => (hfs.below spot h).1) fun h => (hfc.below spot h).1

/-- **All is mounted.** A component that has been created with all that is nested in it is mounted with all that, if it is
mounted. -/
theorem Component.lands (hf : GuestsHeed B) {core : Core H} {slots children : List (Nested H)}
    (hs : ∀ n ∈ slots, n.block.Lands B) (hc : ∀ n ∈ children, n.block.Lands B) (target : NodeId) (anchor : Option NodeId)
    (hw : w.Sober B) (hn : (Block.component (.mk core slots children)).channels.Nodup)
    (ha : (Block.component (.mk core slots children)).Accounts B g w.document)
    (hu : (Block.component (.mk core slots children)).Unfilled w.document)
    (harranged : (Component.mk core slots children).Arranged) (hactive : (Block.component (.mk core slots children)).Active)
    (hfragments : (Component.mk core slots children).fragments.Nodup)
    (hok : ((Component.mk core slots children).mountCreated target anchor w).result = .ok ()) :
    let o := (Component.mk core slots children).mountCreated target anchor w
    o.self.Each (·.phase = .mounted) (fun _ => True) ∧
      w.document.Moors (w.document.Touched (Component.mk core slots children).fragments []) o.world.document := by
  intro o
  subst o
  have hcreated : ∃ fragment, core.phase = .created fragment := by
    rw [Component.mountCreated] at hok
    cases hp : core.phase with
    | created fragment => exact ⟨fragment, rfl⟩
    | mounted | unmounted | destroyed =>
      rw [hp] at hok
      exact absurd hok error_ne_ok
  obtain ⟨fragment, hp⟩ := hcreated
  obtain ⟨ears, errands, hdoes, hbooks, -, -, -, hslots, hchildren⟩ := Component.binds hp hw hn ha hu
  have hown := (Component.unfilled_mk.1 hu).1
  have hvacant := hown.fragment fragment hp
  have hmoors := core.bind_moors hw.intact (Component.accounts_mk.1 ha).1.noting hvacant hown.texts
  have hsame : (Component.mk core slots children).fragments = fragment :: (fragmentsOf slots ++ fragmentsOf children) := by
    rw [Component.fragments, hp]
    rfl
  rw [hsame] at hfragments ⊢
  have hsound := (Component.accounts_mk.1 ha).1.noting.template.sound
  obtain ⟨his, hic, has, hac⟩ : (slots.map Nested.index).Sublist (indicesOf core.template.placeholders .slot) ∧
      (children.map Nested.index).Sublist (indicesOf core.template.placeholders .child) ∧
      (∀ n ∈ slots, n.block.Arranged) ∧ ∀ n ∈ children, n.block.Arranged := by
    cases harranged with
    | mk contents kids inSlots inChildren => exact ⟨contents, kids, inSlots, inChildren⟩
  have hactives : (∀ n ∈ slots, n.block.Active) ∧ ∀ n ∈ children, n.block.Active :=
    ⟨eachOf_iff.1 hactive.2.1, eachOf_iff.1 hactive.2.2⟩
  rcases Component.mountCreated_cases hp target anchor slots children w with ⟨fault, heq⟩ |
    ⟨-, slotSpots, childSpots, hslotSpots, hchildSpots, heq⟩
  · rw [heq] at hok
    exact absurd hok error_ne_ok
  · rw [heq] at hok ⊢
    have hstill := hvacant.fills hdoes.fills hdoes.keeps.fresh
    have hd₁ := hslots.sober.intact
    obtain ⟨-, -, hapart⟩ := List.nodup_append'.1 (List.nodup_cons.1 hn).2
    obtain ⟨hmounted, hblocks⟩ := Core.mountBlocks_lands hf target anchor hs hc
      (hslots.withSpots (World.pending_of_spots hd₁ hstill.hollow rfl (hsound.indices_lt .slot) hslotSpots))
      (hchildren.withSpots (World.pending_of_spots hd₁ hstill.hollow rfl (hsound.indices_lt .child) hchildSpots))
      hapart hstill.toSorted
      (World.found_of_spots hd₁ rfl (hsound.indices_lt .slot) (nodup_indicesOf _ _) hslotSpots)
      (World.found_of_spots hd₁ rfl (hsound.indices_lt .child) (nodup_indicesOf _ _) hchildSpots)
      (by rw [World.spots_indices hslotSpots]; exact his) (by rw [World.spots_indices hchildSpots]; exact hic)
      (fun n hn => ⟨has n hn, hactives.1 n hn⟩) (fun n hn => ⟨hac n hn, hactives.2 n hn⟩) hfragments hok
    refine ⟨hmounted, hdoes.chain hw.intact hmoors hblocks (fun x _ hx => ?_) (fun f hin => ⟨hin, ?_⟩) (List.forall_mem_nil _)⟩
    · exact hx.mono (List.cons_subset_cons _ (List.nil_subset _)) (List.Subset.refl _)
    · exact (hu.vacant f (by rw [Block.fragments, hsame]; exact hin)).toSorted

/-- so is every block -/
theorem Block.lands (hf : GuestsHeed B) (b : Block H) : b.Lands B := by
  induction b using Block.induct with
  | text t =>
    intro target anchor w g _ hw _ _ hu _ _ _ _
    refine ⟨trivial, ?_⟩
    show w.document.Moors (w.document.Touched [] []) (t.mount target anchor w).2.document
    rw [TextBlock.mount, TextBlock.create]
    cases hnode : t.node with
    | some x =>
      dsimp only
      rw [hnode]
      exact Document.moors_insertText hw.intact (hu x hnode) target anchor
    | none =>
      obtain ⟨hdoes, hnew⟩ := World.does_addText (B := B) hw.intact t.data
      exact hdoes.stays hw.intact (Document.moors_grows (Document.grows_add hw.intact.valid (.text t.data)).1 hw.intact.valid
        hdoes.keeps.intact.valid) (Document.moors_insertText hdoes.keeps.intact hnew target anchor)
  | foreign f =>
    intro target anchor w g hplain hw _ _ _ _ _ _ _
    exact ⟨trivial, (hf.stays target anchor f w hw.intact hplain).mono fun _ => False.elim⟩
  | component core slots children ihs ihc =>
    intro target anchor w g _ hw hn ha hu harranged hactive hfragments hok
    exact Component.lands hf ihs ihc target anchor hw hn ha hu (harranged _ rfl) hactive hfragments hok

end

end LiveMarkup
