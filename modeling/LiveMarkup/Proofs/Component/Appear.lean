/-
How a component comes to show its props.

When it is created it gets texts that read its props, and when it is mounted its attributes are bound with the values that
the props have by then. With everything that is nested in it that is one turn (`Component.Turns`): nothing is written but
its own texts and attributes, and texts that blocks of the host in it hold. When it is destroyed, no attributes are
written, and it has nothing left to show.

- `Block.Goes`: a turn that leaves everything as it has to be for the next;
- `Block.Idle.goes_create`, `Block.goes_mountCreated`: creating and mounting;
- `Block.Mild.clears_destroy`: destroying.
-/
import LiveMarkup.Proofs.Component.Orderly
import LiveMarkup.Proofs.Component.Create
import LiveMarkup.Proofs.Component.Shown

namespace LiveMarkup

open Document

variable {H : Host}

/-- actions leave the document alone, attributes have names that are no markers', and no child is given a prop twice -/
structure Template.Tame (t : Template (Action H)) : Prop where
  quiet : t.Quiet
  free : ∀ prop name, .attribute prop name ∈ t.placeholders → Marker.Free name
  once : ∀ u bindings, .child u bindings ∈ t.placeholders → (bindings.map Binding.child).Nodup

structure Core.Primed (c : Core H) : Prop where
  hushed : c.Hushed
  tame : c.template.Tame
  /-- elements are known once it is mounted -/
  unbound : c.phase.state = .created → ∀ cell ∈ c.attributeCells, cell.element = none

def Block.Primed (b : Block H) : Prop := b.Each Core.Primed fun _ => True

theorem Core.SameFooting.primed {c c' : Core H} (h : c.SameFooting c') (hc : c.Primed) : c'.Primed where
  hushed := ⟨h.cleanups ▸ hc.hushed.cleanups, h.updateHooks ▸ hc.hushed.updateHooks⟩
  tame := h.template ▸ hc.tame
  unbound hp cell hcell := by
    have hb : cell.binding ∈ c.attributeCells.map AttributeCell.binding :=
      h.attributeCells ▸ List.mem_map_of_mem hcell
    obtain ⟨old, hold, he⟩ := List.mem_map.1 hb
    have hnone := hc.unbound (h.phase ▸ hp) old hold
    exact (congrArg (·.2.2.2) he).symm.trans hnone

theorem Component.primed_mk {core : Core H} {slots children : List (Nested H)} :
    (Block.component (.mk core slots children)).Primed ↔
      core.Primed ∧ (∀ n ∈ slots, n.block.Primed) ∧ ∀ n ∈ children, n.block.Primed := by
  show core.Primed ∧ eachOf _ _ slots ∧ eachOf _ _ children ↔ _
  rw [eachOf_iff, eachOf_iff]
  rfl

section

variable [ForeignBlocks H]

/-- a turn of a block that leaves all of it ready -/
structure Block.Goes (b b' : Block H) (w w' : World H) : Prop where
  turns : b.Turns b' w w'
  primed : b'.Primed

structure GoesAll (row row' : List (Nested H)) (w w' : World H) : Prop where
  turns : turnsAll row row' w w'
  primed : ∀ n ∈ row', n.block.Primed

variable {w w₁ w₂ w₃ : World H} {row row' : List (Nested H)}

theorem GoesAll.refl (hd : w.document.Intact) (h : ∀ n ∈ row, n.block.Primed) : GoesAll row row w w :=
  ⟨turnsAll.refl hd row, h⟩

theorem Block.Goes.cons {b b' : Block H} (index : Nat) (atRoot atRoot' : Bool) (h : b.Goes b' w w₁)
    (hr : GoesAll row row' w₁ w₂) : GoesAll (.mk index atRoot b :: row) (.mk index atRoot' b' :: row') w w₂ :=
  ⟨h.turns.cons index atRoot atRoot' hr.turns, List.forall_mem_cons.2 ⟨h.primed, hr.primed⟩⟩

/-- nothing is written before a turn -/
theorem GoesAll.ahead (hw : Document.Writes [] [] w.document w₁.document) (h : GoesAll row row' w₁ w₂) :
    GoesAll row row' w w₂ :=
  ⟨(Turn.of_writes hw (stable_shownAll row)).trans h.turns, h.primed⟩

end

/-! ## Creating -/

section

variable {w : World H} (hd : w.document.Intact)
include hd

/-- a new text -/
theorem turn_addText (data : String) (P : Document (Listener H.Handler) → Prop) :
    Turn [] [] [w.document.fresh] [] P (fun d => d.Reads w.document.fresh data) w.document
      (w.addText data).1.document where
  writes := writes_add hd _
  spots := .refl _
  texts _ hx := .inr (Nat.le_of_eq (List.mem_singleton.1 hx).symm)
  known _ _ := ⟨⟨fun _ hx => List.mem_singleton.1 hx ▸ Nat.lt_succ_self _, List.forall_mem_nil _⟩, List.nodup_singleton _⟩
  keeps _ _ _ _ := reads_add hd.valid data

theorem turn_textCellsFor {T : Type} (props : Props) (ps : List (Placeholder (Action H) T)) (index : Nat) :
    Turn [] [] ((textCellsFor props index ps w).1.map (·.node)) [] (fun _ => True)
      (fun d => ∀ cell ∈ (textCellsFor props index ps w).1, cell.Shown props.text d) w.document
      (textCellsFor props index ps w).2.document := by
  induction ps generalizing index w with
  | nil => exact (Turn.refl hd [] [] fun _ => True).imp (fun _ h => h) fun _ _ => List.forall_mem_nil _
  | cons p ps ih =>
    cases p with
    | text prop =>
      have hone := turn_addText hd (props.text prop) fun _ => True
      have hothers := ih hone.writes.intact (index + 1)
      rw [textCellsFor]
      refine (hone.beside hothers (fun _ _ _ _ _ _ _ _ h => h) ?_).imp (fun _ _ => ⟨trivial, trivial⟩)
        fun _ h => List.forall_mem_cons.2 h
      exact fun _ _ _ _ hw hT _ hk h => hw.reads _ (hk.texts _ (List.mem_singleton.2 rfl))
        (hT (List.mem_singleton.2 rfl)) _ h
    | _ => exact ih hd (index + 1)

end

/-- new attribute cells stand for no element yet -/
theorem Core.Primed.attributeCells {c : Core H} (h : c.Primed) :
    ∀ cell ∈ attributeCellsFor c.props 0 c.template.placeholders,
      cell.value = c.props.text cell.prop ∧ Marker.Free cell.name ∧ cell.element = none := by
  intro cell hcell
  obtain ⟨hvalue, hnone⟩ := (attributeCellsFor_spec c.props c.template.placeholders 0).2 cell hcell
  exact ⟨hvalue, h.tame.free _ _ (attribute_mem_of_cell hcell), hnone⟩

/-- attribute cells that stand for no element are no attributes -/
theorem filterMap_attribute?_eq_nil {cells : List AttributeCell} (h : ∀ cell ∈ cells, cell.element = none) :
    cells.filterMap AttributeCell.attribute? = [] :=
  List.filterMap_eq_nil_iff.2 fun cell hcell => by rw [AttributeCell.attribute?, h cell hcell]; rfl

/-- a component that has nothing gets texts and attribute cells, and is ready to be mounted -/
theorem Core.Idle.turns_prepare {c : Core H} {w : World H} (hi : c.Idle) (h : c.Primed) (hd : w.document.Intact)
    (phase : Phase) :
    c.Turns { (c.prepare w).1 with phase } w (c.prepare w).2.2 ∧ Core.Primed { (c.prepare w).1 with phase } := by
  have hfragment := writes_addFragment hd c.template.skeleton
  have htexts := turn_textCellsFor hfragment.intact (H := H) (w := (w.addFragment c.template.skeleton).1) c.props
    c.template.placeholders 0
  have hcells := h.attributeCells
  have hboth := (Turn.of_writes (T := []) (S := []) (P := fun _ => True) hfragment fun _ _ _ _ _ _ _ _ h => h).trans
    htexts
  have hnone := filterMap_attribute?_eq_nil fun cell hcell => (hcells cell hcell).2.2
  refine ⟨?_, ⟨h.hushed.cleanups, h.hushed.updateHooks⟩, h.tame, fun _ cell hcell => (hcells cell hcell).2.2⟩
  show Turn c.texts c.attributes ((textCellsFor c.props 0 c.template.placeholders _).1.map (·.node))
    ((attributeCellsFor c.props 0 c.template.placeholders).filterMap AttributeCell.attribute?) _ _ _ _
  rw [hnone, Core.texts, hi.textCells, Core.attributes, hi.attributeCells]
  refine hboth.imp (fun _ _ => trivial) fun d hd => ⟨hd, fun cell hcell => ?_⟩
  obtain ⟨hvalue, hfree, helement⟩ := hcells cell hcell
  exact ⟨hvalue, hfree, fun e he => nomatch helement.symm.trans he⟩

section

variable [ForeignBlocks H] {w : World H}

/-- a row is created block by block -/
theorem createAll_goes {row : List (Nested H)} (hr : ∀ n ∈ row, n.block.Primed)
    (h : ∀ n ∈ row, ∀ w : World H, w.document.Intact → n.block.Goes (n.block.create w).self w (n.block.create w).world)
    (hd : w.document.Intact) : GoesAll row (createAll row w).self w (createAll row w).world := by
  induction row generalizing w with
  | nil => exact .refl hd hr
  | cons n row ih =>
    obtain ⟨index, atRoot, block⟩ := n
    rw [List.forall_mem_cons] at h hr
    have hb := h.1 w hd
    rw [createAll]
    cases (block.create w).result with
    | error fault => exact hb.cons index atRoot atRoot (.refl hb.turns.writes.intact hr.2)
    | ok => exact hb.cons index atRoot atRoot (ih hr.2 h.2 hb.turns.writes.intact)

/-- a block that has nothing is created -/
theorem Block.Idle.goes_create {guest : H.Foreign → Prop} (hf : ForeignBlocks.Obliging guest) {b : Block H} (hi : b.Idle)
    (hg : b.Guests guest) (hr : b.Primed) (hd : w.document.Intact) : b.Goes (b.create w).self w (b.create w).world := by
  have hboth : b.Each (fun c => c.Idle ∧ c.Primed) fun t => t.node = none ∧ True := Block.Each.and hi hr
  refine Block.guests_induct (P := fun b => b.Primed → ∀ w : World H, w.document.Intact →
    b.Goes (b.create w).self w (b.create w).world) (fun t ht _ w hd => ?_)
    (fun f hg _ w hd => ⟨(hf.create f hg w).turns hd, trivial⟩)
    (fun core slots children hown ihs ihc hr w hd => ?_) hg hboth hr w hd
  · obtain ⟨prop, data, node⟩ := t
    obtain rfl : node = none := ht.1
    exact ⟨(turn_addText hd data fun _ => True).imp (fun _ _ => trivial) fun _ _ => trivial, trivial⟩
  · rw [Component.primed_mk] at hr
    have hprepare := hown.1.turns_prepare hown.2 hd
    have hkids := createAll_goes hr.2.2 (fun n hn => ihc n hn (hr.2.2 n hn))
      (hprepare (core.prepare w).1.phase).1.writes.intact
    have hcontents := createAll_goes hr.2.1 (fun n hn => ihs n hn (hr.2.1 n hn)) hkids.turns.writes.intact
    rw [Block.create, Component.create_eq hown.1.phase]
    dsimp only
    -- the contents of the slots come first in the component, and last in time
    have hturns : ∀ phase slots' (w₃ : World H), turnsAll slots slots' (createAll children (core.prepare w).2.2).world w₃ →
        (Component.mk core slots children).Turns (.mk { (core.prepare w).1 with phase } slots'
          (createAll children (core.prepare w).2.2).self) w w₃ := fun phase slots' w₃ hs =>
      (hprepare phase).1.beside (hs.after hkids.turns (stable_shownAll slots) (stable_shownAll _))
        (Stable.and (stable_shownAll slots) (stable_shownAll children)) (Core.stable_shown _)
    cases (createAll children (core.prepare w).2.2).result with
    | error fault =>
      exact ⟨hturns _ _ _ (turnsAll.refl hkids.turns.writes.intact slots),
        Component.primed_mk.2 ⟨(hprepare _).2, hr.2.1, hkids.primed⟩⟩
    | ok =>
      dsimp only
      cases (createAll slots (createAll children (core.prepare w).2.2).world).result with
      | error fault =>
        exact ⟨hturns _ _ _ hcontents.turns, Component.primed_mk.2 ⟨(hprepare _).2, hcontents.primed, hkids.primed⟩⟩
      | ok =>
        exact ⟨hturns _ _ _ hcontents.turns, Component.primed_mk.2 ⟨(hprepare _).2, hcontents.primed, hkids.primed⟩⟩

end

/-! ## Binding -/

section

variable {w : World H} {fragment : NodeId}

/-- an attribute marker is found at a node that has it -/
theorem World.marker_answers (hd : w.document.Intact) {m : Marker} (hm : m.category.inTag = true) {x : NodeId}
    (h : w.marker fragment m = .ok x) : ∃ n, w.document.node? x = some n ∧ n.kind.answers m = true := by
  rw [World.marker, if_pos hm, World.findAttribute?] at h
  split at h
  · next y hy =>
    split at hy
    · obtain rfl : y = x := Except.ok.inj h
      obtain ⟨n, hn, hname⟩ := node?_of_firstBelow? hd.valid hy
      exact ⟨n, hn, by rw [Kind.answers, if_pos hm]; exact hname⟩
    · cases hy
  · cases h

/-- so it is an element -/
theorem World.marker_element (hd : w.document.Intact) {m : Marker} (hm : m.category.inTag = true) {x : NodeId}
    (h : w.marker fragment m = .ok x) :
    x < w.document.fresh ∧ ∀ n, w.document.node? x = some n → n.kind.tag? ≠ none := by
  obtain ⟨n, hn, hname⟩ := World.marker_answers hd hm h
  refine ⟨hd.valid.below (mem_ids_of_node? hd.valid (by rw [hn]; exact Option.some_ne_none n)), fun k hk htag => ?_⟩
  obtain rfl : n = k := Option.some.inj (hn.symm.trans hk)
  rw [Kind.answers, if_pos hm] at hname
  cases hkind : n.kind with
  | element tag attributes =>
    rw [hkind] at htag
    cases htag
  | _ =>
    rw [hkind] at hname
    cases hname

theorem World.writes_removeAttribute (hd : w.document.Intact) (x : NodeId) {m : Marker} (hm : m.category.inTag = true) :
    Document.Writes [] [] w.document (w.edit (·.removeAttribute x m.name)).document :=
  Document.writes_removeAttribute hd x hm

/-- a marker becomes the attribute that it stands for, however the backend does it -/
theorem turn_renameAttribute (hd : w.document.Intact) (f : String → String) (cell : AttributeCell) {x : NodeId}
    (h : w.marker fragment ⟨.attribute, cell.index⟩ = .ok x) :
    Turn [] [] [] [(x, cell.name)] (cell.Shown f) (AttributeCell.Shown f · { cell with element := some x }) w.document
      (w.renameAttribute x (Marker.name ⟨.attribute, cell.index⟩) cell.name cell.value).document := by
  obtain ⟨hlt, helement⟩ := World.marker_element hd rfl h
  have hwrites : Document.Writes [] [(x, cell.name)] w.document
      (w.renameAttribute x (Marker.name ⟨.attribute, cell.index⟩) cell.name cell.value).document := by
    unfold World.renameAttribute World.edit
    cases w.backend.renamesInPlace with
    | true => exact writes_renameAttribute hd x (m := ⟨.attribute, cell.index⟩) rfl cell.name cell.value
    | false =>
      have hremove := Document.writes_removeAttribute hd x (m := ⟨.attribute, cell.index⟩) rfl
      exact hremove.trans (writes_setAttribute hremove.intact x cell.name cell.value)
  refine ⟨hwrites, List.nil_sublist _, List.forall_mem_nil _, fun _ _ => ⟨⟨List.forall_mem_nil _, fun s hs => ?_⟩, .nil⟩,
    fun _ _ _ hs => ⟨hs.value, hs.free, fun e he => ?_⟩⟩
  · rw [List.mem_singleton.1 hs]
    exact Nat.lt_of_lt_of_le hlt hwrites.fresh
  · obtain rfl : x = e := Option.some.inj he
    unfold World.renameAttribute World.edit
    cases w.backend.renamesInPlace with
    | true => exact bears_renameAttribute hd helement (m := ⟨.attribute, cell.index⟩) rfl hs.free cell.value
    | false =>
      have hremove := Document.writes_removeAttribute hd x (m := ⟨.attribute, cell.index⟩) rfl
      exact bears_setAttribute hremove.intact (tag?_perform hd helement (.removeAttribute _)) cell.name cell.value

theorem writes_bindTexts (fragment : NodeId) (cells : List TextCell) (hd : w.document.Intact) :
    Document.Writes [] [] w.document (bindTexts fragment cells w).world.document := by
  induction cells generalizing w with
  | nil => exact .refl hd
  | cons cell cells ih =>
    rw [bindTexts]
    cases w.marker fragment ⟨.text, cell.index⟩ with
    | error fault => exact .refl hd
    | ok spot =>
      have hone := writes_replaceWith hd spot cell.node
      exact hone.trans (ih (w := w.edit (·.replaceWith spot cell.node)) hone.intact)

/-- cells that stand for no element are bound, if all markers are found -/
theorem turn_bindAttributes (f : String → String) {cells : List AttributeCell}
    (hnone : ∀ cell ∈ cells, cell.element = none) (hd : w.document.Intact)
    (hok : (bindAttributes fragment cells w).result = .ok ()) :
    Turn [] [] [] ((bindAttributes fragment cells w).self.filterMap AttributeCell.attribute?)
      (fun d => ∀ cell ∈ cells, cell.Shown f d) (fun d => ∀ cell ∈ (bindAttributes fragment cells w).self, cell.Shown f d)
      w.document (bindAttributes fragment cells w).world.document := by
  induction cells generalizing w with
  | nil => exact (Turn.refl hd [] [] fun _ => True).imp (fun _ _ => trivial) fun _ _ => List.forall_mem_nil _
  | cons cell cells ih =>
    rw [bindAttributes] at hok ⊢
    cases hm : w.marker fragment ⟨.attribute, cell.index⟩ with
    | error fault =>
      rw [hm] at hok
      cases hok
    | ok x =>
      rw [hm] at hok
      rw [List.forall_mem_cons] at hnone
      have hone := turn_renameAttribute hd f cell hm
      have hothers := ih hnone.2 hone.writes.intact hok
      have hunbound := stable_attributes (L := Listener H.Handler) f cells []
      rw [filterMap_attribute?_eq_nil hnone.2] at hunbound
      have hbound : Stable [] [(x, cell.name)] (AttributeCell.Shown (L := Listener H.Handler) f ·
          { cell with element := some x }) := fun _ _ _ _ hw hT hS hk h =>
        stable_attributes f [{ cell with element := some x }] [] hw hT hS hk (List.forall_mem_singleton.2 h) _
          (List.mem_singleton.2 rfl)
      exact (hone.beside hothers hunbound hbound).imp (fun _ h => List.forall_mem_cons.1 h)
        fun _ h => List.forall_mem_cons.2 h

section

variable {T : Type}

/-- listeners are attached where nothing is read or borne -/
theorem attachListeners_spared (fragment : NodeId) (channel index : Nat) (ps : List (Placeholder (Action H) T)) (hd : w.document.Intact) :
    Document.Writes [] [] w.document (attachListeners fragment channel index ps w).world.document ∧
      ∀ cleanup ∈ (attachListeners fragment channel index ps w).self, cleanup.Quiet := by
  induction ps generalizing index w with
  | nil => exact ⟨.refl hd, List.forall_mem_nil _⟩
  | cons p ps ih =>
    cases p with
    | event event topic =>
      rw [attachListeners]
      cases w.marker fragment ⟨.event, index⟩ with
      | error fault => exact ⟨.refl hd, List.forall_mem_nil _⟩
      | ok x =>
        have hremove := World.writes_removeAttribute hd x (m := ⟨.event, index⟩) rfl
        have hlisten := hremove.trans (writes_listeners hremove.intact x (.listen event (.channel channel topic))
          fun _ => rfl)
        obtain ⟨hrest, hquiet⟩ := ih (w := ((w.edit (·.removeAttribute x (Marker.name ⟨.event, index⟩))).listen x event
          (.channel channel topic)).1) (index + 1) hlisten.intact
        exact ⟨hlisten.trans hrest, List.forall_mem_cons.2 ⟨trivial, hquiet⟩⟩
    | _ => exact ih (index + 1) hd

/-- actions that leave the document alone leave it alone when they run, and when what they left behind runs -/
theorem runActions_spared (fragment : NodeId) (props : Props) {ps : List (Placeholder (Action H) T)}
    (hq : ∀ run param, .action run param ∈ ps → Action.Quiet run) (index : Nat) (hd : w.document.Intact) :
    Document.Writes [] [] w.document (runActions fragment props index ps w).world.document ∧
      (∀ cleanup ∈ (runActions fragment props index ps w).self.1, cleanup.Quiet) ∧
      ∀ hook ∈ (runActions fragment props index ps w).self.2, hook.Quiet := by
  induction ps generalizing index w with
  | nil => exact ⟨.refl hd, List.forall_mem_nil _, List.forall_mem_nil _⟩
  | cons p ps ih =>
    have hps : ∀ run param, .action run param ∈ ps → Action.Quiet run := fun run param h =>
      hq run param (List.mem_cons_of_mem _ h)
    cases p with
    | action run param =>
      rw [runActions]
      cases w.marker fragment ⟨.action, index⟩ with
      | error fault => exact ⟨.refl hd, List.forall_mem_nil _, List.forall_mem_nil _⟩
      | ok x =>
        have hremove := World.writes_removeAttribute hd x (m := ⟨.action, index⟩) rfl
        obtain ⟨hsame, hhandle⟩ := hq run param List.mem_cons_self x (param.bind props.get?)
          (w.edit (·.removeAttribute x (Marker.name ⟨.action, index⟩)))
        have hrun : Document.Writes [] [] w.document (run x (param.bind props.get?)
            (w.edit (·.removeAttribute x (Marker.name ⟨.action, index⟩)))).1.document := by
          rw [hsame.document]
          exact hremove
        obtain ⟨hrest, hcleanups, hhooks⟩ := ih hps (index + 1) hrun.intact
        refine ⟨hrun.trans hrest, List.forall_mem_append.2 ⟨fun cleanup hin => ?_, hcleanups⟩,
          List.forall_mem_append.2 ⟨fun hook hin => ?_, hhooks⟩⟩
        · obtain ⟨destroy, hdestroy, rfl⟩ := Option.map_eq_some_iff.1 (Option.mem_toList.1 hin)
          exact hhandle.destroy destroy hdestroy
        · obtain ⟨update, hupdate, rfl⟩ := Option.map_eq_some_iff.1 (Option.mem_toList.1 hin)
          exact hhandle.update update hupdate
    | _ => exact ih hps (index + 1) hd

end

/-- a component that was created binds its own placeholders, if all markers are found -/
theorem Core.Primed.turns_bind {c : Core H} (h : c.Primed) (hp : c.phase.state = .created) (hd : w.document.Intact)
    (hok : (c.bind fragment w).result = .ok ()) :
    c.Turns (c.bind fragment w).self w (c.bind fragment w).world ∧ (c.bind fragment w).self.Hushed := by
  have htexts := writes_bindTexts fragment c.textCells hd
  rw [Core.bind] at hok ⊢
  dsimp only at hok ⊢
  cases htr : (bindTexts fragment c.textCells w).result with
  | error fault =>
    rw [htr] at hok
    cases hok
  | ok =>
    rw [htr] at hok
    dsimp only at hok ⊢
    cases har : (bindAttributes fragment c.attributeCells (bindTexts fragment c.textCells w).world).result with
    | error fault =>
      rw [har] at hok
      cases hok
    | ok =>
      rw [har] at hok
      dsimp only at hok ⊢
      have hattributes := turn_bindAttributes c.props.text (h.unbound hp) htexts.intact har
      obtain ⟨hlisteners, hcleanups⟩ := attachListeners_spared fragment c.channel 0 c.template.placeholders
        hattributes.writes.intact
      cases hlr : (attachListeners fragment c.channel 0 c.template.placeholders
          (bindAttributes fragment c.attributeCells (bindTexts fragment c.textCells w).world).world).result with
      | error fault =>
        rw [hlr] at hok
        cases hok
      | ok =>
        obtain ⟨hactions, hmore, hhooks⟩ := runActions_spared fragment c.props h.tame.quiet 0
          hlisteners.intact
        refine ⟨?_, List.forall_mem_append.2 ⟨List.forall_mem_append.2 ⟨h.hushed.cleanups, hcleanups⟩, hmore⟩,
          List.forall_mem_append.2 ⟨h.hushed.updateHooks, hhooks⟩⟩
        show Turn c.texts c.attributes c.texts
          ((bindAttributes fragment c.attributeCells (bindTexts fragment c.textCells w).world).self.filterMap
            AttributeCell.attribute?) _ _ _ _
        have hshown := c.stable_shown (L := Listener H.Handler)
        have hunbound := stable_attributes (L := Listener H.Handler) c.props.text c.attributeCells []
        have hnone := filterMap_attribute?_eq_nil (h.unbound hp)
        rw [Core.attributes] at hshown ⊢
        rw [hnone] at hshown hunbound ⊢
        -- the texts show what they showed while the attributes are bound
        have hown := (Turn.refl htexts.intact c.texts [] fun d => ∀ cell ∈ c.textCells, cell.Shown c.props.text d).beside
          hattributes hunbound (stable_texts c.props.text c.textCells [])
        rw [List.append_nil, List.append_nil, List.nil_append] at hown
        have hlast := Turn.of_writes (hlisteners.trans hactions) (Stable.and (stable_texts (L := Listener H.Handler)
          c.props.text c.textCells []) (stable_attributes c.props.text (bindAttributes fragment c.attributeCells
            (bindTexts fragment c.textCells w).world).self []))
        rw [List.append_nil, List.nil_append] at hlast
        exact (Turn.of_writes htexts hshown).trans ((hown.trans hlast).imp (fun _ h => ⟨h.texts, h.attributes⟩)
          fun _ h => ⟨h.1, h.2⟩)

end

/-! ## Mounting -/

section

variable {w : World H}

theorem World.writes_discard (hd : w.document.Intact) (held : List NodeId) (x : NodeId) :
    Document.Writes [] [] w.document (w.discard held x).document := Document.writes_discard hd held.contains x

theorem World.writes_discardAll (hd : w.document.Intact) (held : List NodeId) (spots : List (Nat × NodeId)) :
    Document.Writes [] [] w.document (w.discardAll held spots).document := by
  induction spots generalizing w with
  | nil => exact .refl hd
  | cons spot spots ih =>
    have hone := World.writes_discard hd (held ++ spots.map (·.2)) spot.2
    exact hone.trans (ih hone.intact)

variable [ForeignBlocks H]

theorem TextBlock.goes_mount (t : TextBlock) (target : NodeId) (anchor : Option NodeId) (hd : w.document.Intact) :
    (Block.text t).Goes (.text (t.mount target anchor w).1) w (t.mount target anchor w).2 := by
  refine ⟨?_, trivial⟩
  obtain ⟨prop, data, node⟩ := t
  cases node with
  | some node =>
    exact (Turn.of_writes (writes_insertBefore hd target node anchor) fun _ _ _ _ _ _ _ _ h => h).imp
      (fun _ h => h) fun _ _ => trivial
  | none =>
    have hadd : Turn [] [] [w.document.fresh] [] (fun _ => True) (fun _ => True) w.document (w.addText data).1.document :=
      (turn_addText hd data fun _ => True).imp (fun _ h => h) fun _ _ => trivial
    exact (hadd.trans (Turn.of_writes (writes_insertBefore hadd.writes.intact target w.document.fresh anchor)
      fun _ _ _ _ _ _ _ _ _ => trivial)).imp (fun _ _ => trivial) fun _ _ => trivial

/-- a row is mounted block by block -/
theorem mountRow_goes {fragment : NodeId} {row : List (Nested H)} (hr : ∀ n ∈ row, n.block.Primed)
    (h : ∀ n ∈ row, ∀ (target : NodeId) (anchor : Option NodeId) (w : World H), w.document.Intact →
      (n.block.mountCreated target anchor w).result = .ok () →
      n.block.Goes (n.block.mountCreated target anchor w).self w (n.block.mountCreated target anchor w).world)
    {held later : List NodeId} {spots : List (Nat × NodeId)} (hd : w.document.Intact)
    (hok : (mountRow fragment held later row spots w).result = .ok ()) :
    GoesAll row (mountRow fragment held later row spots w).self w (mountRow fragment held later row spots w).world := by
  induction row generalizing held spots w with
  | nil => exact (GoesAll.refl (World.writes_discardAll hd _ _).intact hr).ahead (World.writes_discardAll hd _ _)
  | cons n row ih =>
    obtain ⟨index, atRoot, block⟩ := n
    rw [List.forall_mem_cons] at h hr
    have hempty := World.writes_discardAll hd (held ++ (spots.dropWhile (·.1 ≠ index)).map (·.2) ++ later)
      (spots.takeWhile (·.1 ≠ index))
    rw [mountRow] at hok ⊢
    dsimp only at hok ⊢
    generalize w.discardAll (held ++ (spots.dropWhile (·.1 ≠ index)).map (·.2) ++ later)
      (spots.takeWhile (·.1 ≠ index)) = w₁ at hempty hok ⊢
    -- a block that is left alone
    have hleft : block.Goes block w₁ w₁ := ⟨Turn.refl hempty.intact _ _ _, hr.1⟩
    cases hs : spots.dropWhile (·.1 ≠ index) with
    | nil =>
      rw [hs] at hok
      exact (hleft.cons index atRoot atRoot (ih hr.2 h.2 hempty.intact hok)).ahead hempty
    | cons spot after =>
      obtain ⟨place, spot⟩ := spot
      rw [hs] at hok
      dsimp only at hok ⊢
      cases hparent : w₁.document.parent? spot with
      | none =>
        rw [hparent] at hok
        have hgone := World.writes_discard hempty.intact (held ++ (after.map (·.2) ++ later)) spot
        exact (hleft.cons index atRoot atRoot ((ih hr.2 h.2 hgone.intact hok).ahead hgone)).ahead hempty
      | some parent =>
        rw [hparent] at hok
        dsimp only at hok ⊢
        cases hresult : (block.mountCreated parent (some spot) w₁).result with
        | error fault =>
          rw [hresult] at hok
          cases hok
        | ok =>
          rw [hresult] at hok
          have hblock := h.1 parent (some spot) w₁ hempty.intact hresult
          have hgone := World.writes_discard hblock.turns.writes.intact
            (held ++ (block.mountCreated parent (some spot) w₁).self.handles ++ (after.map (·.2) ++ later)) spot
          exact (hblock.cons index atRoot (parent == fragment) ((ih hr.2 h.2 hgone.intact hok).ahead hgone)).ahead hempty

/-- a block that was created is put into a target, if that succeeds -/
theorem Block.goes_mountCreated {guest : H.Foreign → Prop} (hf : ForeignBlocks.Obliging guest) {b : Block H}
    (hg : b.Guests guest) (hr : b.Primed) (target : NodeId) (anchor : Option NodeId) (hd : w.document.Intact)
    (hok : (b.mountCreated target anchor w).result = .ok ()) :
    b.Goes (b.mountCreated target anchor w).self w (b.mountCreated target anchor w).world := by
  refine Block.guests_induct (P := fun b => b.Primed → ∀ (target : NodeId) (anchor : Option NodeId) (w : World H),
    w.document.Intact → (b.mountCreated target anchor w).result = .ok () →
      b.Goes (b.mountCreated target anchor w).self w (b.mountCreated target anchor w).world)
    (fun t _ _ target anchor w hd _ => t.goes_mount target anchor hd)
    (fun f hg _ target anchor w hd _ => ⟨(hf.mount f hg target anchor w).turns hd, trivial⟩)
    (fun core slots children hown ihs ihc hr target anchor w hd hok => ?_) hg hr hr target anchor w hd hok
  rw [Component.primed_mk] at hr
  change ((Component.mk core slots children).mountCreated target anchor w).result = .ok () at hok
  show (Block.component (Component.mk core slots children)).Goes
    (.component ((Component.mk core slots children).mountCreated target anchor w).self) w
    ((Component.mk core slots children).mountCreated target anchor w).world
  rw [Component.mountCreated] at hok ⊢
  cases hp : core.phase with
  | mounted | unmounted | destroyed =>
    rw [hp] at hok
    cases hok
  | created fragment =>
    rw [hp] at hok
    dsimp only at hok ⊢
    cases hbind : (core.bind fragment w).result with
    | error fault =>
      rw [hbind] at hok
      cases hok
    | ok =>
      rw [hbind] at hok
      dsimp only at hok ⊢
      obtain ⟨hturns, hhushed⟩ := hown.turns_bind (by rw [hp]; rfl) hd hbind
      have hvalues := core.bind_values fragment w
      have hprimed : ∀ roots, Core.Primed { (core.bind fragment w).self with roots, phase := .mounted } := fun roots =>
        ⟨⟨hhushed.cleanups, hhushed.updateHooks⟩, hvalues.template ▸ hown.tame, fun hno => by cases hno⟩
      cases hslots : (core.bind fragment w).world.spots fragment .slot (indicesOf core.template.placeholders .slot) with
      | error fault =>
        rw [hslots] at hok
        cases hok
      | ok slotSpots =>
        cases hchildren : (core.bind fragment w).world.spots fragment .child
            (indicesOf core.template.placeholders .child) with
        | error fault =>
          rw [hslots, hchildren] at hok
          cases hok
        | ok childSpots =>
          rw [hslots, hchildren] at hok
          dsimp only at hok ⊢
          generalize ((core.bind fragment w).world.document.children fragment).filter
            (!((slotSpots ++ childSpots).map (·.2)).contains ·) = roots at hok ⊢
          generalize hheld : Core.handles { (core.bind fragment w).self with roots } = held at hok ⊢
          cases hcontents : (mountRow fragment held (childSpots.map (·.2)) slots slotSpots
              (core.bind fragment w).world).result with
          | error fault =>
            rw [hcontents] at hok
            cases hok
          | ok =>
            rw [hcontents] at hok
            dsimp only at hok ⊢
            have hs := mountRow_goes hr.2.1 (fun n hn => ihs n hn (hr.2.1 n hn)) hturns.writes.intact hcontents
            generalize mountRow fragment held (childSpots.map (·.2)) slots slotSpots (core.bind fragment w).world =
              contents at hs hok ⊢
            cases hkids : (mountRow fragment (held ++ handlesOf contents.self) [] children childSpots
                contents.world).result with
            | error fault =>
              rw [hkids] at hok
              cases hok
            | ok =>
              have hc := mountRow_goes hr.2.2 (fun n hn => ihc n hn (hr.2.2 n hn)) hs.turns.writes.intact hkids
              have hown : core.Turns { (core.bind fragment w).self with roots, phase := .mounted } w
                  (core.bind fragment w).world := hturns.imp (fun _ h => h) fun _ h => ⟨h.texts, h.attributes⟩
              have hall := hown.nest hs.turns hc.turns
              have hlast := writes_insertBefore hc.turns.writes.intact target fragment anchor
              exact ⟨hall.trans (Turn.of_writes hlast (Component.stable_shown _)),
                Component.primed_mk.2 ⟨hprimed roots, hs.primed, hc.primed⟩⟩

end

/-! ## Destroying -/

section

variable {w : World H}

theorem Core.writes_detachRoots (c : Core H) (hd : w.document.Intact) :
    Document.Writes [] [] w.document (c.detachRoots w).document := by
  unfold detachRoots
  generalize c.roots = roots
  induction roots generalizing w with
  | nil => exact .refl hd
  | cons root roots ih =>
    have hone := writes_detach hd root
    exact hone.trans (ih (w := w.edit (·.detach root)) hone.intact)

theorem Core.Hushed.writes_cleanUp {c : Core H} (h : c.Hushed) (hd : w.document.Intact) :
    Document.Writes [] [] w.document (c.cleanUp w).document := by
  unfold cleanUp
  have hquiet := h.cleanups
  generalize c.cleanups = cleanups at hquiet
  induction cleanups generalizing w with
  | nil => exact .refl hd
  | cons cleanup cleanups ih =>
    rw [List.forall_mem_cons] at hquiet
    have hone : Document.Writes [] [] w.document (cleanup.run w).document := by
      cases cleanup with
      | listener node ticket => exact writes_listeners hd node (.unlisten ticket) fun _ => rfl
      | hook node run =>
        have halike : w.Alike (run w) := hquiet.1 w
        rw [Cleanup.run, halike.document]
        exact .refl hd
    exact hone.trans (ih hone.intact hquiet.2)

variable {L : Type} {d d₁ d₂ : Document L} {T T' T₂ T₂' : List NodeId}

/-- those who had the first texts have the second ones now; nothing else has been written into, and no attributes -/
def Document.Clears (T T' : List NodeId) (d d₁ : Document L) : Prop := Turn T [] T' [] (fun _ => True) (fun _ => True) d d₁

namespace Document.Clears

theorem refl (hd : d.Intact) (T : List NodeId) : Clears T T d d := Turn.refl hd T [] _

/-- texts are let go of -/
theorem of_writes (h : Writes [] [] d d₁) (T : List NodeId) : Clears T [] d d₁ :=
  ⟨h.mono (List.nil_subset T) (List.nil_subset []), .refl [], List.forall_mem_nil _,
    fun _ _ => ⟨⟨List.forall_mem_nil _, List.forall_mem_nil _⟩, .nil⟩, fun _ _ _ _ => trivial⟩

theorem beside (h : Clears T T' d d₁) (h₂ : Clears T₂ T₂' d₁ d₂) : Clears (T ++ T₂) (T' ++ T₂') d d₂ :=
  (Turn.beside h h₂ (fun _ _ _ _ _ _ _ _ _ => trivial) fun _ _ _ _ _ _ _ _ _ => trivial).imp
    (fun _ _ => ⟨trivial, trivial⟩) fun _ _ => trivial

end Document.Clears

/-- a new node is somebody's now -/
theorem Document.clears_add (hd : d.Intact) (kind : Kind) : Clears [] [d.fresh] d (d.add kind).1 where
  writes := writes_add hd kind
  spots := .refl _
  texts _ hx := .inr (Nat.le_of_eq (List.mem_singleton.1 hx).symm)
  known _ _ := ⟨⟨fun _ hx => List.mem_singleton.1 hx ▸ Nat.lt_succ_self _, List.forall_mem_nil _⟩, List.nodup_singleton _⟩
  keeps _ _ _ _ := trivial

variable [ForeignBlocks H]

theorem destroyAll_clears {row : List (Nested H)}
    (h : ∀ n ∈ row, ∀ d (w : World H), w.document.Intact →
      Clears n.block.texts (n.block.destroy d w).self.texts w.document (n.block.destroy d w).world.document)
    (detaching : Bool) (hd : w.document.Intact) :
    Clears (textsIn row) (textsIn (destroyAll detaching row w).self) w.document
      (destroyAll detaching row w).world.document := by
  induction row generalizing w with
  | nil => exact .refl hd []
  | cons n row ih =>
    obtain ⟨index, atRoot, block⟩ := n
    rw [List.forall_mem_cons] at h
    have hone := h.1 (detaching && atRoot) w hd
    exact hone.beside (ih h.2 hone.writes.intact)

theorem TextBlock.clears_destroy (t : TextBlock) (detaching : Bool) (hd : w.document.Intact) :
    Clears (Block.text t : Block H).texts [] w.document (t.destroy detaching w).2.document := by
  refine .of_writes ?_ _
  rw [TextBlock.destroy]
  dsimp only
  cases t.node with
  | none => exact .refl hd
  | some node =>
    cases detaching
    · exact .refl hd
    · exact writes_detach hd node

/-- destroying writes into no texts but those that blocks of the host hold -/
theorem Block.Mild.clears_destroy {guest : H.Foreign → Prop} (hf : ForeignBlocks.Obliging guest) {b : Block H}
    (h : b.Mild guest) (detaching : Bool) (hd : w.document.Intact) :
    Clears b.texts (b.destroy detaching w).self.texts w.document (b.destroy detaching w).world.document := by
  refine Block.guests_induct (P := fun b => ∀ d (w : World H), w.document.Intact →
    Clears b.texts (b.destroy d w).self.texts w.document (b.destroy d w).world.document)
    (fun t _ detaching w hd => t.clears_destroy detaching hd)
    (fun f hg detaching w hd => ((hf.destroy f hg detaching w).turns hd).imp (fun _ _ => trivial) fun _ _ => trivial)
    (fun core slots children hown ihs ihc detaching w hd => ?_) h.guests h.hushed detaching w hd
  have hrows : ∀ u : World H, Document.Writes [] [] w.document u.document →
      Clears (core.texts ++ (textsIn slots ++ textsIn children))
        ([] ++ (textsIn (destroyAll detaching slots (core.cleanUp u)).self ++
          textsIn (destroyAll detaching children (destroyAll detaching slots (core.cleanUp u)).world).self))
        w.document (destroyAll detaching children (destroyAll detaching slots (core.cleanUp u)).world).world.document := by
    intro u hu
    have hclean := hown.writes_cleanUp hu.intact
    have hs := destroyAll_clears ihs detaching hclean.intact
    exact (Clears.of_writes (hu.trans hclean) core.texts).beside
      (hs.beside (destroyAll_clears ihc detaching hs.writes.intact))
  have hroots : ∀ detaches : Bool, Document.Writes [] [] w.document
      (if detaches = true then core.detachRoots w else w).document := by
    intro detaches
    split
    · exact core.writes_detachRoots hd
    · exact .refl hd
  show Clears (Component.mk core slots children).texts ((Component.mk core slots children).destroy detaching w).self.texts
    w.document ((Component.mk core slots children).destroy detaching w).world.document
  rw [Component.destroy]
  cases core.phase with
  | unmounted | destroyed => exact .refl hd _
  | created | mounted => exact hrows _ (hroots _)

end

end LiveMarkup
