/-
New values in a component's own cells.

A change set reaches the text nodes and the elements of a component entry by entry. Each entry comes to a list of edits
of nodes that the component has in the document: none before it is created, the text nodes while it waits, the text nodes
and the bound elements once it is mounted.

- `Core.Shows.elements_withValue`: setting the attributes of a prop's cells shows one more entry on the elements;
- `Core.Is.applyEntries`: what a component has after a change set is what it has for the new props and with the new
  entries shown.
-/
import LiveMarkup.Proofs.Document.Edits
import LiveMarkup.Proofs.Component.Stands

namespace LiveMarkup

open Markup Marker Forest

variable {H : Host}

/-! ## Worlds with edits -/

/-- what the first world's document holds, the second's holds after these edits -/
structure World.Edited (w w' : World H) (es : List Edit) : Prop where
  backend : w'.backend = w.backend
  holds : ∀ F, w.document.Holds F → w'.document.Holds (F.editAll es)

theorem World.Alike.edited {w w' : World H} (h : w.Alike w') : w.Edited w' [] :=
  ⟨h.backend, fun F hF => by rw [h.document]; exact hF⟩

theorem World.Edited.refl (w : World H) : w.Edited w [] := (Alike.refl w).edited

theorem World.Edited.trans {u v w : World H} {es es' : List Edit} (h : u.Edited v es) (h' : v.Edited w es') :
    u.Edited w (es ++ es') := by
  refine ⟨h'.backend.trans h.backend, fun F hF => ?_⟩
  rw [← editAll_editAll]
  exact h'.holds _ (h.holds F hF)

theorem World.edited_data (w : World H) (id : NodeId) (text : String) :
    w.Edited (w.edit (·.setData id text)) [.data id text] :=
  ⟨rfl, fun _ hF => hF.setData id text⟩

theorem World.edited_attribute (w : World H) (id : NodeId) (name text : String) :
    w.Edited (w.edit (·.setAttribute id name text)) [.attribute id name text] :=
  ⟨rfl, fun _ hF => hF.updateAttributes id _⟩

namespace Forest

theorem editAll_fillBy (es : List Edit) (f : Forest Bare) (fills : List (Marker × Forest Bare)) :
    (f.fillBy fills).editAll es = (f.editAll es).fillBy (fills.map fun e => (e.1, e.2.editAll es)) := by
  induction es generalizing f fills with
  | nil =>
    rw [show fills.map (fun e => (e.1, e.2.editAll [])) = fills from List.map_id fills]
    rfl
  | cons e es ih =>
    rw [editAll_cons, Edit.run, update_fillBy e.tag, ih, List.map_map]
    rfl

theorem editAll_join (es : List Edit) (fs : List (Forest Bare)) :
    (join fs).editAll es = join (fs.map (editAll es)) := by
  induction fs with
  | nil => exact editAll_nil_forest es
  | cons f fs ih => rw [join, List.foldr_cons, editAll_append, ← join, ih]; rfl

end Forest

/-! ## Texts -/

/-- a new text for the cells of a prop -/
def textEdits (prop text : String) (cells : List TextCell) : List Edit :=
  (cells.filter (·.prop == prop)).map fun cell => .data cell.node text

section

variable {prop text : String}

theorem mem_textEdits {cells : List TextCell} {e : Edit} (he : e ∈ textEdits prop text cells) :
    e.id ∈ cells.map (·.node) := by
  obtain ⟨cell, hc, rfl⟩ := List.mem_map.1 he
  exact List.mem_map_of_mem (List.mem_of_mem_filter hc)

theorem showTexts_edited (prop text : String) (cells : List TextCell) (w : World H) :
    w.Edited (showTexts cells prop text w) (textEdits prop text cells) := by
  rw [showTexts, textEdits]
  generalize cells.filter (·.prop == prop) = cells
  induction cells generalizing w with
  | nil => exact .refl w
  | cons cell cells ih => exact (w.edited_data cell.node text).trans (ih _)

/-- each text node shows the new text if its cell is of the prop, and is left alone if not -/
theorem TextCell.editAll_ground {data data' : String → String} (hp : data' prop = text)
    (ho : ∀ other, other ≠ prop → data' other = data other) {cells : List TextCell} (hn : (cells.map (·.node)).Nodup)
    {cell : TextCell} (hc : cell ∈ cells) :
    (cell.ground data).editAll (textEdits prop text cells) = cell.ground data' := by
  induction cells with
  | nil => cases hc
  | cons c cells ih =>
    rw [List.map_cons, List.nodup_cons] at hn
    obtain ⟨hnot, hn⟩ := hn
    have hids : ∀ d : String → String, (cell.ground d).ids = [cell.node] := fun _ => rfl
    by_cases hcp : c.prop = prop
    · have hcons : textEdits prop text (c :: cells) = .data c.node text :: textEdits prop text cells := by
        simp [textEdits, hcp]
      rw [hcons, editAll_cons]
      rcases List.mem_cons.1 hc with rfl | hc
      · have hstep : (Edit.data cell.node text).run (cell.ground data) = cell.ground data' := by
          have hpick : Document.isNode cell.node (⟨cell.node, .text (data cell.prop), [], 0⟩ : Bare) = true :=
            Document.isNode_iff.2 rfl
          rw [TextCell.ground, Edit.run, tree, update, Edit.data, hpick, TextCell.ground, hcp, hp]
          rfl
        rw [hstep]
        refine editAll_of_not_mem fun e he hin => hnot ?_
        rw [hids, List.mem_singleton] at hin
        exact hin ▸ mem_textEdits he
      · have hne : c.node ∉ (cell.ground data).ids := by
          rw [hids, List.mem_singleton]
          exact fun e => hnot (e ▸ List.mem_map_of_mem hc)
        rw [run_of_not_mem (e := .data c.node text) hne]
        exact ih hn hc
    · have hskip : textEdits prop text (c :: cells) = textEdits prop text cells := by simp [textEdits, hcp]
      rw [hskip]
      rcases List.mem_cons.1 hc with rfl | hc
      · rw [TextCell.ground, TextCell.ground, ho _ hcp]
        refine editAll_of_not_mem fun e he hin => hnot ?_
        have hid : e.id = cell.node := List.mem_singleton.1 hin
        exact hid ▸ mem_textEdits he
      · exact ih hn hc

end

/-! ## Attributes -/

def AttributeCell.given (prop text : String) (cell : AttributeCell) : AttributeCell :=
  if cell.prop = prop then { cell with value := text } else cell

/-- a new value for the attributes of a prop on the elements that are known -/
def attributeEdits (prop text : String) (cells : List AttributeCell) : List Edit :=
  cells.filterMap fun cell => if cell.prop = prop then cell.element.map (.attribute · cell.name text) else none

section

variable {prop text : String}

theorem showAttributes_edited (prop text : String) (cells : List AttributeCell) (w : World H) :
    (showAttributes prop text cells w).1 = cells.map (AttributeCell.given prop text) ∧
      w.Edited (showAttributes prop text cells w).2 (attributeEdits prop text cells) := by
  induction cells generalizing w with
  | nil => exact ⟨rfl, .refl w⟩
  | cons cell cells ih =>
    rw [showAttributes, List.map_cons, attributeEdits, List.filterMap_cons]
    by_cases hp : cell.prop = prop
    · rw [if_pos hp, if_pos hp, AttributeCell.given, if_pos hp]
      cases cell.element with
      | none =>
        obtain ⟨hcells, hedited⟩ := ih w
        exact ⟨congrArg _ hcells, hedited⟩
      | some element =>
        obtain ⟨hcells, hedited⟩ := ih (w.edit (·.setAttribute element cell.name text))
        exact ⟨congrArg _ hcells, (w.edited_attribute element cell.name text).trans hedited⟩
    · rw [if_neg hp, if_neg hp, AttributeCell.given, if_neg hp]
      obtain ⟨hcells, hedited⟩ := ih w
      exact ⟨congrArg _ hcells, hedited⟩

theorem mem_attributeEdits {cells : List AttributeCell} {e : Edit} (he : e ∈ attributeEdits prop text cells) :
    ∃ cell ∈ cells, cell.element = some e.id := by
  obtain ⟨cell, hc, hce⟩ := List.mem_filterMap.1 he
  split at hce
  · obtain ⟨element, helement, rfl⟩ := Option.map_eq_some_iff.1 hce
    exact ⟨cell, hc, helement⟩
  · cases hce

theorem attributeEdits_of_unbound {cells : List AttributeCell} (h : ∀ cell ∈ cells, cell.element = none) :
    attributeEdits prop text cells = [] := by
  refine List.filterMap_eq_nil_iff.2 fun cell hc => ?_
  rw [h cell hc]
  split <;> rfl

end

/-- the names that a prop's cells have on an element -/
def namesOn (prop : String) (cells : List AttributeCell) (id : NodeId) : List String :=
  (cells.filter fun cell => cell.prop = prop ∧ cell.element = some id).map (·.name)

theorem mem_namesOn {prop name : String} {cells : List AttributeCell} {id : NodeId} : name ∈ namesOn prop cells id ↔
    ∃ cell ∈ cells, cell.prop = prop ∧ cell.element = some id ∧ cell.name = name := by
  simp only [namesOn, List.mem_map, List.mem_filter, decide_eq_true_eq, and_assoc]

/-- new values set attributes one after another on each element -/
theorem editAll_attributeEdits (prop text : String) (cells : List AttributeCell) (f : Forest Bare)
    (α : NodeId → Attributes → Attributes) : (f.attrs α).editAll (attributeEdits prop text cells) =
      f.attrs fun id as => (namesOn prop cells id).foldl (fun as name => Entries.set name text as) (α id as) := by
  induction cells generalizing α with
  | nil => rfl
  | cons cell cells ih =>
    by_cases hp : cell.prop = prop
    · cases he : cell.element with
      | none =>
        have hskip : attributeEdits prop text (cell :: cells) = attributeEdits prop text cells := by
          simp [attributeEdits, hp, he]
        have hnames : namesOn prop (cell :: cells) = namesOn prop cells := by
          funext id
          simp [namesOn, he]
        rw [hskip, hnames, ih]
      | some element =>
        have hcons : attributeEdits prop text (cell :: cells) =
            .attribute element cell.name text :: attributeEdits prop text cells := by
          simp [attributeEdits, hp, he]
        rw [hcons, editAll_cons, Edit.run, Edit.attribute, update_attrs, ih]
        refine congrArg (f.attrs ·) (funext fun id => funext fun as => ?_)
        by_cases hid : id = element
        · have hnames : namesOn prop (cell :: cells) id = cell.name :: namesOn prop cells id := by
            simp [namesOn, hp, he, hid]
          rw [hnames, if_pos hid]
          rfl
        · have hnames : namesOn prop (cell :: cells) id = namesOn prop cells id := by
            have hne : ¬ element = id := fun e => hid e.symm
            simp [namesOn, he, hne]
          rw [hnames, if_neg hid]
    · have hskip : attributeEdits prop text (cell :: cells) = attributeEdits prop text cells := by
        simp [attributeEdits, hp]
      have hnames : namesOn prop (cell :: cells) = namesOn prop cells := by
        funext id
        simp [namesOn, hp]
      rw [hskip, hnames, ih]

/-! ## The component itself -/

namespace Core

variable {c : Core H} {p : Props} {entries : Entries Value} {fragment start : NodeId} {row : List (Kid H)}

/-! ### Whose node is whose -/

theorem Distinct.nodes (h : c.Distinct start row) : (c.textCells.map (·.node)).Nodup :=
  (List.nodup_append.1 (List.nodup_append.1 h).2.1).1

theorem Distinct.nodup_kids (h : c.Distinct start row) : (row.flatMap fun k => k.ground.ids).Nodup :=
  (List.nodup_append.1 (List.nodup_append.1 h).2.1).2.1

theorem Distinct.node_planted (h : c.Distinct start row) {id : NodeId} (hid : id ∈ c.textCells.map (·.node)) :
    id ∉ (planted c.template.skeleton start).ids :=
  fun hin => (List.nodup_append.1 h).2.2 _ hin _ (List.mem_append_left _ hid) rfl

theorem Distinct.node_kid (h : c.Distinct start row) {id : NodeId} (hid : id ∈ c.textCells.map (·.node)) {k : Kid H}
    (hk : k ∈ row) : id ∉ k.ground.ids :=
  fun hin => (List.nodup_append.1 (List.nodup_append.1 h).2.1).2.2 _ hid _ (List.mem_flatMap.2 ⟨k, hk, hin⟩) rfl

theorem Distinct.planted_kid (h : c.Distinct start row) {id : NodeId}
    (hid : id ∈ (planted c.template.skeleton start).ids) {k : Kid H} (hk : k ∈ row) : id ∉ k.ground.ids :=
  fun hin => (List.nodup_append.1 h).2.2 _ hid _ (List.mem_append_right _ (List.mem_flatMap.2 ⟨k, hk, hin⟩)) rfl

section

variable {c' : Core H} {row' : List (Kid H)} {es : List Edit}

/-- edits of what the children have are no edits of the skeleton -/
theorem Distinct.planted_of_kids (h : c.Distinct start row) (hes : ∀ e ∈ es, ∃ k ∈ row, e.id ∈ k.ground.ids) :
    ∀ e ∈ es, e.id ∉ (planted c.template.skeleton start).ids := by
  intro e he hin
  obtain ⟨k, hk, hid⟩ := hes e he
  exact h.planted_kid hin hk hid

/-- edits of what the children have leave the texts alone -/
theorem Distinct.texts_of_kids (h : c.Distinct start row) (hes : ∀ e ∈ es, ∃ k ∈ row, e.id ∈ k.ground.ids)
    {cell : TextCell} (hc : cell ∈ c.textCells) :
    (cell.ground c.props.text).editAll es = cell.ground c.props.text := by
  refine editAll_of_not_mem fun e he hin => ?_
  obtain ⟨k, hk, hid⟩ := hes e he
  have hnode : e.id = cell.node := List.mem_singleton.1 hin
  exact h.node_kid (hnode ▸ List.mem_map_of_mem hc) hk hid

/-- edits that make of each text and each child what another component has make of all its fillings those of the other -/
theorem editAll_fills (ht : c'.template = c.template) (hcells : c'.textCells = c.textCells)
    (htexts : ∀ cell ∈ c.textCells, (cell.ground c.props.text).editAll es = cell.ground c'.props.text)
    (hrow : List.Forall₂ (fun k k' : Kid H => k'.index = k.index ∧ k'.ground = k.ground.editAll es) row row') :
    (c.fills row).map (fun e => (e.1, e.2.editAll es)) = c'.fills row' := by
  rw [fills, fills, fillsWith, fillsWith, ht, hcells, List.map_append, List.map_append, List.map_map, List.map_map,
    List.map_map]
  refine congrArg₂ (· ++ ·) ?_ (congrArg₂ (· ++ ·) ?_ ?_)
  · exact List.map_congr_left fun cell hc => congrArg (Prod.mk _) (htexts cell hc)
  · exact List.map_congr_left fun i _ => congrArg (Prod.mk _) (editAll_nil_forest es)
  · refine (map_eq_of_forall₂ hrow fun _ _ hk => ?_).symm
    rw [hk.1, hk.2]
    rfl

end

/-- what is in the place of a marker is in the document -/
theorem Celled.mem_showing (h : c.Celled) (hs : c.template.Sound)
    (hi : row.map Kid.index = indicesOf c.template.placeholders .child) {e : Marker × Forest Bare} (he : e ∈ c.fills row)
    {id : NodeId} (hid : id ∈ e.2.ids) (start : NodeId) : id ∈ (c.showing p entries start row).ids := by
  have hm : e.1 ∈ markersOfAll c.template.skeleton ∧ e.1.category.inTag = false := by
    rw [hs.markers, mem_markersFor_zero]
    rcases List.mem_append.1 he with he | he
    · obtain ⟨cell, hc, rfl⟩ := List.mem_map.1 he
      exact ⟨⟨_, h.text hc, rfl⟩, rfl⟩
    · rcases List.mem_append.1 he with he | he
      · obtain ⟨i, -, rfl⟩ := List.mem_map.1 he
        cases hid
      · obtain ⟨k, hk, rfl⟩ := List.mem_map.1 he
        exact ⟨mem_indicesOf.1 (hi ▸ List.mem_map_of_mem hk), rfl⟩
  exact mem_ids_of_marker _ hs.clean hm.1 hm.2 (lookup_of_mem (h.nodup_fills hi _) he) hid

theorem Celled.node_mem_showing (h : c.Celled) (hs : c.template.Sound)
    (hi : row.map Kid.index = indicesOf c.template.placeholders .child) {id : NodeId}
    (hid : id ∈ c.textCells.map (·.node)) (start : NodeId) : id ∈ (c.showing p entries start row).ids := by
  obtain ⟨cell, hc, rfl⟩ := List.mem_map.1 hid
  refine h.mem_showing hs hi (e := (⟨.text, cell.index⟩, cell.ground c.props.text)) (List.mem_append_left _ ?_) ?_ start
  · exact List.mem_map_of_mem (f := fun cell : TextCell => (Marker.mk .text cell.index, cell.ground c.props.text)) hc
  · exact List.mem_cons_self

theorem Celled.kid_mem_showing (h : c.Celled) (hs : c.template.Sound)
    (hi : row.map Kid.index = indicesOf c.template.placeholders .child) {k : Kid H} (hk : k ∈ row) {id : NodeId}
    (hid : id ∈ k.ground.ids) (start : NodeId) : id ∈ (c.showing p entries start row).ids := by
  refine h.mem_showing hs hi (e := (⟨.child, k.index⟩, k.ground)) ?_ hid start
  exact List.mem_append_right _ (List.mem_append_right _ (List.mem_map_of_mem
    (f := fun k : Kid H => (Marker.mk .child k.index, k.ground)) hk))

/-! ### One value -/

def withValue (c : Core H) (prop : String) (value : Value) : Core H :=
  { c with
    props := c.props.insert prop value
    attributeCells := c.attributeCells.map (AttributeCell.given prop value.toText) }

/-- the edits that show one prop's new text -/
def valueEdits (c : Core H) (prop text : String) : List Edit :=
  textEdits prop text c.textCells ++ attributeEdits prop text c.attributeCells

theorem applyEntry_spec (hq : ∀ hook ∈ c.updateHooks, hook.Quiet) (w : World H) (prop : String) (value : Value) :
    (c.applyEntry w prop value).1 = c.withValue prop value ∧
      w.Edited (c.applyEntry w prop value).2 (c.valueEdits prop value.toText) := by
  have htexts := showTexts_edited prop value.toText c.textCells w
  obtain ⟨hcells, hattributes⟩ := showAttributes_edited prop value.toText c.attributeCells
    (showTexts c.textCells prop value.toText w)
  have hhooks : ∀ (hooks : List (UpdateHook H)) (w : World H), (∀ hook ∈ hooks, hook.Quiet) →
      w.Alike (hooks.foldl (fun w hook => hook.run value w) w) := by
    intro hooks
    induction hooks with
    | nil => exact fun w _ => .refl w
    | cons hook hooks ih =>
      intro w hq
      rw [List.forall_mem_cons] at hq
      exact (hq.1 value w).trans (ih _ hq.2)
  rw [applyEntry]
  dsimp only
  refine ⟨by rw [withValue, hcells], ?_⟩
  have hquiet := hhooks (c.updateHooks.filter (c.hears prop))
    (showAttributes prop value.toText c.attributeCells (showTexts c.textCells prop value.toText w)).2 fun hook hin =>
      hq hook (List.mem_of_mem_filter hin)
  have := (htexts.trans hattributes).trans hquiet.edited
  rwa [List.append_nil] at this

theorem Celled.withValue (h : c.Celled) (prop : String) (value : Value) : (c.withValue prop value).Celled := by
  refine ⟨h.texts, ?_, fun cell hc => ?_⟩
  · refine Eq.trans ?_ h.attributes
    rw [Core.withValue, List.map_map]
    refine List.map_congr_left fun cell _ => ?_
    rw [Function.comp_apply, AttributeCell.given]
    split <;> rfl
  · obtain ⟨old, hold, rfl⟩ := List.mem_map.1 hc
    rw [AttributeCell.given, Core.withValue]
    dsimp only
    split
    · next hp => rw [Props.text_insert, if_pos hp]
    · next hp => rw [Props.text_insert, if_neg hp, h.values old hold]

/-- the text nodes of a component show its new texts -/
theorem Distinct.texts_withValue (h : c.Distinct start row) (prop : String) (value : Value) {cell : TextCell}
    (hc : cell ∈ c.textCells) :
    (cell.ground c.props.text).editAll (textEdits prop value.toText c.textCells) =
      cell.ground (c.withValue prop value).props.text := by
  refine TextCell.editAll_ground ?_ (fun other hne => ?_) h.nodes hc
  · exact (Props.text_insert _ _ _ _).trans (if_pos rfl)
  · exact (Props.text_insert _ _ _ _).trans (if_neg hne)

theorem Waits.withValue (h : c.Waits fragment row) (prop : String) (value : Value) :
    (c.withValue prop value).Waits fragment row ∧
      (c.waiting fragment row).editAll (c.valueEdits prop value.toText) =
        (c.withValue prop value).waiting fragment row ∧
      ∀ e ∈ c.valueEdits prop value.toText, e.id ∈ (c.waiting fragment row).ids := by
  have hedits : c.valueEdits prop value.toText = textEdits prop value.toText c.textCells := by
    rw [valueEdits, attributeEdits_of_unbound h.unbound, List.append_nil]
  rw [hedits]
  refine ⟨⟨h.phase, h.celled.withValue prop value, h.distinct, h.outside, fun cell hc => ?_, h.cleanups, h.updateHooks⟩,
    ?_, fun e he => ?_⟩
  · obtain ⟨old, hold, rfl⟩ := List.mem_map.1 hc
    rw [AttributeCell.given]
    split <;> exact h.unbound old hold
  · have hroot : ∀ e ∈ textEdits prop value.toText c.textCells, e.id ≠ fragment := fun e he heq =>
      h.outside (heq ▸ List.mem_append_right _ (List.mem_append_left _ (mem_textEdits he)))
    have hkids : row.map (editAll (textEdits prop value.toText c.textCells) ∘ Kid.ground) = row.map Kid.ground :=
      List.map_congr_left fun k hk => editAll_of_not_mem fun e he => h.distinct.node_kid (mem_textEdits he) hk
    have htexts : c.textCells.map (editAll (textEdits prop value.toText c.textCells) ∘ TextCell.ground c.props.text) =
        c.textCells.map (TextCell.ground (c.withValue prop value).props.text) :=
      List.map_congr_left fun cell hc => h.distinct.texts_withValue prop value hc
    rw [waiting, editAll_append, editAll_append, editAll_tree (n := ⟨fragment, .fragment, [], 0⟩) hroot,
      editAll_of_not_mem fun e he => h.distinct.node_planted (mem_textEdits he), editAll_join, editAll_join, List.map_map,
      List.map_map, hkids, htexts]
    rfl
  · rw [ids_waiting]
    exact List.mem_cons_of_mem _ (List.mem_append_right _ (List.mem_append_left _ (mem_textEdits he)))

/-- the names that a prop's cells have on an element are those that the element binds to the prop -/
theorem Shows.mem_namesOn (h : c.Shows start row) (hs : c.template.Sound) {n : Bare}
    (hn : n ∈ (planted c.template.skeleton start).labels) {prop name : String} :
    name ∈ namesOn prop c.attributeCells n.id ↔ (name, prop) ∈ bindingPairs c.template.placeholders n.kind.attributes := by
  rw [LiveMarkup.mem_namesOn]
  constructor
  · rintro ⟨cell, hc, rfl, he, rfl⟩
    obtain ⟨k, hk, hke, hname⟩ := h.bound cell hc
    obtain rfl : k = n :=
      List.inj_on_of_nodup_map (nodup_planted _ _) hk hn (Option.some.inj (hke.symm.trans he))
    exact mem_bindingsOf hname (boundTo?_eq_some_iff.2
      ⟨cell.index, ofAttribute?_name rfl (h.celled.index_lt hs cell hc), h.celled.attribute hc⟩)
  · intro hin
    obtain ⟨a, ha, hb⟩ := List.mem_filterMap.1 hin
    obtain ⟨i, hm, hi⟩ := boundTo?_eq_some_iff.1 hb
    obtain ⟨cell, hc, rfl, hprop, hcn⟩ := h.celled.exists_attribute hi
    obtain ⟨k, hk, hke, hname⟩ := h.bound cell hc
    -- the marker is on this element alone
    have hmarked : (markersOfAll c.template.skeleton).count ⟨.attribute, cell.index⟩ = 1 :=
      hs.marked _ (mem_markersFor_zero.2 ⟨_, hi, rfl⟩)
    have hkm : (⟨.attribute, cell.index⟩ : Marker) ∈ k.kind.markers :=
      Kind.mem_markers_of_answers (h.celled.index_lt hs cell hc) ((Kind.answers_inTag rfl).2 hname)
    have hnm : (⟨.attribute, cell.index⟩ : Marker) ∈ n.kind.markers :=
      List.mem_append_right _ (List.mem_filterMap.2 ⟨a, ha, hm⟩)
    obtain rfl : k = n := carrier_unique hmarked hk hn hkm hnm
    exact ⟨cell, hc, hprop, hke, hcn⟩

/-- attributes are set on elements of the skeleton that have attributes -/
theorem Shows.mem_attributeEdits (h : c.Shows start row) {prop text : String} {e : Edit}
    (he : e ∈ attributeEdits prop text c.attributeCells) :
    ∃ n ∈ (planted c.template.skeleton start).labels, n.id = e.id ∧ n.kind.attributes ≠ [] := by
  obtain ⟨cell, hc, hce⟩ := LiveMarkup.mem_attributeEdits he
  obtain ⟨n, hn, hcn, hname⟩ := h.bound cell hc
  refine ⟨n, hn, Option.some.inj (hcn.symm.trans hce), fun hnil => ?_⟩
  rw [hnil] at hname
  cases hname

theorem Shows.planted_attributeEdits (h : c.Shows start row) {prop text : String} {e : Edit}
    (he : e ∈ attributeEdits prop text c.attributeCells) : e.id ∈ (planted c.template.skeleton start).ids := by
  obtain ⟨n, hn, hid, -⟩ := h.mem_attributeEdits he
  exact hid ▸ mem_ids_of_mem hn

/-- one more entry is shown on the elements -/
theorem Shows.elements_withValue (h : c.Shows start row) (hs : c.template.Sound) (prop : String) (value : Value) :
    (c.elements p entries start).editAll (c.valueEdits prop value.toText) =
      c.elements p (entries ++ [(prop, value)]) start := by
  have htexts : ∀ e ∈ textEdits prop value.toText c.textCells, e.id ∉ (c.elements p entries start).ids := by
    intro e he
    rw [elements, ids_attrs]
    exact h.distinct.node_planted (mem_textEdits he)
  rw [valueEdits, ← editAll_editAll, editAll_of_not_mem htexts, elements, editAll_attributeEdits]
  refine attrs_congr fun n hn => ?_
  have hbound : ∀ name ∈ namesOn prop c.attributeCells n.id,
      name ∈ Entries.names (bindingsOf (latestBinding? c.template.placeholders p entries n.kind.attributes) n.kind.attributes) := by
    intro name hin
    rw [names_latestBinding?]
    exact List.mem_map_of_mem ((h.mem_namesOn hs hn).1 hin)
  rw [latestAttributes, fillAttributes_setAll (fun _ => latestBinding?_eq_none) hbound]
  exact fillAttributes_congr fun name hin =>
    (latestBinding?_concat p entries _ prop value (fun _ _ => h.mem_namesOn hs hn) hin).symm

/-- the texts get the new values, and the children are left alone -/
theorem Shows.fills_withValue (h : c.Shows start row) (prop : String) (value : Value) :
    (c.fills row).map (fun e => (e.1, e.2.editAll (c.valueEdits prop value.toText))) =
      (c.withValue prop value).fills row := by
  have htext : ∀ cell ∈ c.textCells, (cell.ground c.props.text).editAll (c.valueEdits prop value.toText) =
      cell.ground (c.withValue prop value).props.text := by
    intro cell hc
    rw [valueEdits, ← editAll_editAll, h.distinct.texts_withValue prop value hc]
    refine editAll_of_not_mem fun e he hin => ?_
    have hid : e.id = cell.node := List.mem_singleton.1 hin
    refine h.distinct.node_planted (List.mem_map_of_mem hc) ?_
    rw [← hid]
    exact h.planted_attributeEdits he
  have hkid : ∀ k ∈ row, k.ground.editAll (c.valueEdits prop value.toText) = k.ground := by
    intro k hk
    refine editAll_of_not_mem fun e he => ?_
    rcases List.mem_append.1 he with he | he
    · exact h.distinct.node_kid (mem_textEdits he) hk
    · exact h.distinct.planted_kid (h.planted_attributeEdits he) hk
  exact editAll_fills rfl rfl htext (List.forall₂_same.2 fun k hk => ⟨rfl, (hkid k hk).symm⟩)

theorem Shows.withValue (h : c.Shows start row) (hs : c.template.Sound)
    (hi : row.map Kid.index = indicesOf c.template.placeholders .child) (prop : String) (value : Value) :
    (c.withValue prop value).Shows start row ∧
      (c.showing p entries start row).editAll (c.valueEdits prop value.toText) =
        (c.withValue prop value).showing p (entries ++ [(prop, value)]) start row ∧
      ∀ e ∈ c.valueEdits prop value.toText, e.id ∈ (c.showing p entries start row).ids := by
  refine ⟨⟨h.phase, h.celled.withValue prop value, h.distinct, fun cell hc => ?_, h.cleanups, h.updateHooks⟩, ?_,
    fun e he => ?_⟩
  · obtain ⟨old, hold, rfl⟩ := List.mem_map.1 hc
    rw [AttributeCell.given]
    split <;> exact h.bound old hold
  · rw [showing, editAll_fillBy, h.elements_withValue hs, h.fills_withValue]
    rfl
  · rcases List.mem_append.1 he with he | he
    · exact h.celled.node_mem_showing hs hi (mem_textEdits he) start
    · obtain ⟨n, hn, hid, hne⟩ := h.mem_attributeEdits he
      exact hid ▸ mem_ids_of_attribute _ hs.clean hn hne

/-! ### A change set -/

variable {s : State} {X : Forest Bare}

theorem Is.quiet (h : c.Is p entries row s X) : ∀ hook ∈ c.updateHooks, hook.Quiet := by
  have hnil : c.updateHooks = [] → ∀ hook ∈ c.updateHooks, hook.Quiet := fun he hook hin => by
    rw [he] at hin
    cases hin
  cases s with
  | unmounted => exact hnil h.2.1.updateHooks
  | created => obtain ⟨fragment, hw, -⟩ := h; exact hnil hw.updateHooks
  | mounted => obtain ⟨start, hs, -⟩ := h; exact hs.updateHooks
  | destroyed => exact hnil h.2.1.updateHooks

theorem Blank.withValue (h : c.Blank) (prop : String) (value : Value) :
    (c.withValue prop value).Blank ∧ c.valueEdits prop value.toText = [] := by
  refine ⟨⟨h.textCells, ?_, h.cleanups, h.updateHooks⟩, ?_⟩
  · rw [Core.withValue, h.attributeCells]
    rfl
  · rw [valueEdits, h.textCells, h.attributeCells]
    rfl

/-- what a component has after one new value is what it has for the new props and with one more entry shown -/
theorem Is.withValue (h : c.Is p entries row s X) (hs : c.template.Sound)
    (hi : row.map Kid.index = indicesOf c.template.placeholders .child) (prop : String) (value : Value) :
    (c.withValue prop value).Is p (entries ++ [(prop, value)]) row s (X.editAll (c.valueEdits prop value.toText)) ∧
      ∀ e ∈ c.valueEdits prop value.toText, e.id ∈ X.ids := by
  have hblank : c.Blank → (∀ e ∈ c.valueEdits prop value.toText, e.id ∈ X.ids) := fun hb e he => by
    rw [(hb.withValue prop value).2] at he
    cases he
  cases s with
  | unmounted =>
    obtain ⟨hphase, hb, rfl⟩ := h
    exact ⟨⟨hphase, (hb.withValue prop value).1, editAll_nil_forest _⟩, hblank hb⟩
  | created =>
    obtain ⟨fragment, hw, rfl⟩ := h
    obtain ⟨hw', hX, hids⟩ := hw.withValue prop value
    exact ⟨⟨fragment, hw', hX⟩, hids⟩
  | mounted =>
    obtain ⟨start, hshows, rfl⟩ := h
    obtain ⟨hshows', hX, hids⟩ := hshows.withValue hs hi prop value
    exact ⟨⟨start, hshows', hX⟩, hids⟩
  | destroyed =>
    obtain ⟨hphase, hb, rfl⟩ := h
    exact ⟨⟨hphase, (hb.withValue prop value).1, editAll_nil_forest _⟩, hblank hb⟩

/-- applying a change set gives the component what it has for the new props and with the new entries shown -/
theorem Is.applyEntries (h : c.Is p entries row s X) (hs : c.template.Sound)
    (hi : row.map Kid.index = indicesOf c.template.placeholders .child) (w : World H) (changed : Props) :
    ∃ es, w.Edited (c.applyEntries w changed).2 es ∧ (∀ e ∈ es, e.id ∈ X.ids) ∧
      (c.applyEntries w changed).1.Is p (entries ++ changed.entries) row s (X.editAll es) ∧
      (c.applyEntries w changed).1.template = c.template ∧
      (c.applyEntries w changed).1.props = c.props.extend changed.entries := by
  rw [Core.applyEntries, Props.extend]
  generalize changed.entries = more
  induction more generalizing c entries w X with
  | nil =>
    rw [List.append_nil]
    exact ⟨[], .refl w, fun _ h => absurd h List.not_mem_nil, h, rfl, rfl⟩
  | cons entry more ih =>
    obtain ⟨hself, hedited⟩ := applyEntry_spec h.quiet w entry.1 entry.2
    obtain ⟨hstep, hids⟩ := h.withValue hs hi entry.1 entry.2
    obtain ⟨es, hedited', hids', his, htemplate, hprops⟩ := ih hstep hs hi (c.applyEntry w entry.1 entry.2).2
    have hpair : c.applyEntry w entry.1 entry.2 = (c.withValue entry.1 entry.2, (c.applyEntry w entry.1 entry.2).2) :=
      Prod.ext hself rfl
    rw [List.foldl_cons, List.foldl_cons]
    dsimp only
    rw [hpair]
    refine ⟨_, hedited.trans hedited', fun e he => ?_, ?_, htemplate, hprops⟩
    · rcases List.mem_append.1 he with he | he
      · exact hids e he
      · have := hids' e he
        rwa [ids_editAll] at this
    · rw [← editAll_editAll, List.append_cons]
      exact his

end Core

end LiveMarkup
