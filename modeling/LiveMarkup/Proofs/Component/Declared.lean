/-
A component reads what its template declares.

The cells of a component show declared props, its action hooks wait for declared props, and its children are forwarded
declared props. The first is an invariant of every component that can be come by (`Living`): instances whose slots are
filled with such components, after any calls, in any worlds and whatever they resulted in (`Living.each`). The others
are read off the template.

- `Core.Declared.disregards`: an update that names no declared prop is remembered, and that is all: no node changes, no
  hook is called, no child is updated;
- `Template.reads_declared`: so a template depends on what it declares only, in rendering and, at every depth of every
  component, under updates.
-/
import LiveMarkup.Proofs.Component.Lifecycle
import LiveMarkup.Proofs.Template.Declared

namespace LiveMarkup

variable {H : Host}

/-! ## Components that can be come by -/

/-- trees in which a condition on single components is kept -/
def keeping (own : Core H → Prop) : Likeness H := ⟨fun c c' => own c → own c', fun _ _ => True, fun _ _ => True⟩

theorem keeping_preorder (own : Core H → Prop) : (keeping own).Preorder :=
  ⟨fun _ h => h, fun _ _ _ h h' hc => h' (h hc), fun _ => trivial, fun _ _ _ _ _ => trivial, fun _ => trivial,
    fun _ _ _ _ _ => trivial⟩

section

variable [ForeignBlocks H]

/-- instances whose slots are filled with texts, blocks of the host and such components, after any calls -/
inductive Component.Living : Component H → Prop
  | furnish (t : Template (Action H)) (options : Options H) (w : World H)
      (slots : ∀ e ∈ options.slots, ∀ c, e.2 = .component c → Living c) : Living (furnished t options w)
  | call {c : Component H} (call : Call NodeId) (w : World H) (living : Living c) : Living (c.call w call).self

/-- what holds of a component with nothing in a document, and is kept by every step of a call, holds at every depth -/
theorem Component.Living.each {own : Core H → Prop} (hidle : ∀ c, Core.Idle c → own c) (hkept : (keeping own).Lasting)
    {c : Component H} (h : c.Living) : c.Each own fun _ => True := by
  induction h with
  | furnish t options w _ ih =>
    have hown := Component.Each.imp hidle (fun _ _ => trivial) (ofTemplate_instance t options.props w).idle
    unfold furnished
    generalize (ofTemplate t options.props w).1 = c at hown
    obtain ⟨core, slots, children⟩ := c
    refine ⟨hkept.context core _ hown.1, eachOf_iff.2 fun n hn => ?_, hown.2.2⟩
    obtain ⟨e, he, hb⟩ := mem_fillSlots hn
    cases hblock : n.block with
    | text t => trivial
    | foreign f => trivial
    | component c => exact ih e he c (hb.symm.trans hblock)
  | call call w _ ih =>
    exact Component.Like.each (fun _ _ h => h) (fun _ _ _ _ => trivial) (hkept.call _ w call) ih

/-- what starting a template gives can be come by -/
theorem Component.Living.start {t : Template (Action H)} {options : Options H} {w : World H} {c : Component H}
    (slots : ∀ e ∈ options.slots, ∀ c, e.2 = .component c → Component.Living c)
    (h : (Component.start t options w).2 = .ok c) : c.Living := by
  have hnew : (furnished t options w).Living := .furnish t options w slots
  unfold Component.start at h
  dsimp only at h
  split at h
  · obtain rfl := Except.ok.inj h
    exact hnew
  · split at h
    · obtain rfl := Except.ok.inj h
      exact hnew.call (.mount _ options.anchor) _
    · cases h

end

/-! ## Cells -/

/-- the cells show declared props -/
structure Core.Declared (c : Core H) : Prop where
  texts : ∀ cell ∈ c.textCells, cell.prop ∈ c.template.props
  attributes : ∀ cell ∈ c.attributeCells, cell.prop ∈ c.template.props

/-- a text cell is of a text placeholder -/
theorem text_mem_of_cell {T : Type} {props : Props} {index : Nat} {ps : List (Placeholder (Action H) T)} {w : World H}
    {cell : TextCell} (h : cell ∈ (textCellsFor props index ps w).1) : .text cell.prop ∈ ps := by
  induction ps generalizing index w with
  | nil => cases h
  | cons p ps ih =>
    cases p with
    | text prop =>
      rcases List.mem_cons.1 h with rfl | h
      · exact List.mem_cons_self
      · exact List.mem_cons_of_mem _ (ih h)
    | _ => exact List.mem_cons_of_mem _ (ih h)

/-- binding says where cells are, and nothing else about them -/
theorem props_bindAttributes (fragment : NodeId) (cells : List AttributeCell) (w : World H) :
    (bindAttributes fragment cells w).self.map (·.prop) = cells.map (·.prop) := by
  induction cells generalizing w with
  | nil => rfl
  | cons cell cells ih =>
    rw [bindAttributes]
    split
    · rfl
    · exact congrArg (cell.prop :: ·) (ih _)

theorem Core.props_bind (c : Core H) (fragment : NodeId) (w : World H) :
    (c.bind fragment w).self.textCells = c.textCells ∧
      (c.bind fragment w).self.attributeCells.map (·.prop) = c.attributeCells.map (·.prop) := by
  unfold bind
  dsimp only
  split
  · exact ⟨rfl, rfl⟩
  · split
    · exact ⟨rfl, props_bindAttributes _ _ _⟩
    · split <;> exact ⟨rfl, props_bindAttributes _ _ _⟩

namespace Core.Declared

variable {c c' : Core H}

/-- the same template and cells of the same props -/
theorem of_props (h : c.Declared) (htemplate : c'.template = c.template)
    (htexts : c'.textCells = c.textCells) (hattributes : c'.attributeCells.map (·.prop) = c.attributeCells.map (·.prop)) :
    c'.Declared := by
  refine ⟨fun cell hcell => ?_, fun cell hcell => ?_⟩
  · rw [htemplate]
    exact h.texts cell (htexts ▸ hcell)
  · have hprop : cell.prop ∈ c.attributeCells.map (·.prop) := hattributes ▸ List.mem_map_of_mem hcell
    obtain ⟨old, hold, he⟩ := List.mem_map.1 hprop
    rw [htemplate, ← he]
    exact h.attributes old hold

theorem of_footing (h : c.Declared) (hs : c.SameFooting c') : c'.Declared := by
  refine h.of_props hs.template hs.textCells ?_
  have hprops : ∀ cells : List AttributeCell, cells.map (·.prop) = (cells.map AttributeCell.binding).map (·.2.1) :=
    fun cells => by rw [List.map_map]; rfl
  rw [hprops, hprops, hs.attributeCells]

/-- new cells show declared props -/
theorem prepare (c : Core H) (w : World H) : (c.prepare w).1.Declared := by
  refine ⟨fun cell hcell => ?_, fun cell hcell => ?_⟩
  · exact Template.mem_props.2 ⟨_, text_mem_of_cell hcell, List.mem_cons_self⟩
  · exact Template.mem_props.2 ⟨_, attribute_mem_of_cell hcell, List.mem_cons_self⟩

theorem lasting [ForeignBlocks H] : (keeping (Core.Declared (H := H))).Lasting where
  toPreorder := keeping_preorder _
  prepare c w _ := prepare c w
  phase _ _ h := h.of_props rfl rfl rfl
  place _ _ _ h := h.of_props rfl rfl rfl
  bind c fragment w h :=
    h.of_props (c.bind_values fragment w).template (c.props_bind fragment w).1 (c.props_bind fragment w).2
  cleared _ _ := ⟨fun _ h => absurd h List.not_mem_nil, fun _ h => absurd h List.not_mem_nil⟩
  apply c w changed h := h.of_footing (c.applyEntries_footing w changed)
  context _ _ h := h.of_props rfl rfl rfl
  text_create _ _ := trivial
  text_destroy _ _ _ := trivial
  text_update _ _ _ := trivial
  foreign_create _ _ := trivial
  foreign_mount _ _ _ _ := trivial
  foreign_update _ _ _ := trivial
  foreign_transition _ _ _ _ := trivial
  foreign_destroy _ _ _ := trivial

/-! ## Updates of other props -/

/-- nothing is shown of a prop that no cell shows -/
theorem showTexts_other {cells : List TextCell} {prop : String} (h : ∀ cell ∈ cells, cell.prop ≠ prop) (text : String)
    (w : World H) : showTexts cells prop text w = w := by
  have hnone : cells.filter (·.prop == prop) = [] := List.filter_eq_nil_iff.2 fun cell hcell => by simpa using h cell hcell
  rw [showTexts, hnone, List.foldl_nil]

theorem showAttributes_other {cells : List AttributeCell} {prop : String} (h : ∀ cell ∈ cells, cell.prop ≠ prop)
    (text : String) (w : World H) : showAttributes prop text cells w = (cells, w) := by
  induction cells with
  | nil => rfl
  | cons cell cells ih =>
    rw [List.forall_mem_cons] at h
    rw [showAttributes_of_other h.1, ih h.2]

/-- a hook waits for a declared prop -/
theorem hears_other {prop : String} (h : prop ∉ c.template.props) (hook : UpdateHook H) : c.hears prop hook = false := by
  rw [hears, beq_eq_false_iff_ne]
  intro hparam
  obtain ⟨p, hp, hread⟩ := Option.bind_eq_some_iff.1 hparam
  refine h (Template.mem_props.2 ⟨p, List.mem_of_getElem? hp, ?_⟩)
  cases p with
  | action run param => exact Option.mem_toList.2 hread
  | _ => cases hread

theorem applyEntry_other (hc : c.Declared) {prop : String} (h : prop ∉ c.template.props) (w : World H) (value : Value) :
    c.applyEntry w prop value = ({ c with props := c.props.insert prop value }, w) := by
  have htexts : ∀ cell ∈ c.textCells, cell.prop ≠ prop := fun cell hcell e => h (e ▸ hc.texts cell hcell)
  have hattributes : ∀ cell ∈ c.attributeCells, cell.prop ≠ prop := fun cell hcell e => h (e ▸ hc.attributes cell hcell)
  have hhooks : c.updateHooks.filter (c.hears prop) = [] :=
    List.filter_eq_nil_iff.2 fun hook _ => Bool.eq_false_iff.1 (hears_other h hook)
  rw [applyEntry, showTexts_other htexts, showAttributes_other hattributes, hhooks]
  rfl

theorem applyEntries_other (hc : c.Declared) {changed : Props} (h : ∀ e ∈ changed.entries, e.1 ∉ c.template.props)
    (w : World H) : c.applyEntries w changed = ({ c with props := c.props.extend changed.entries }, w) := by
  unfold applyEntries Props.extend
  generalize changed.entries = es at h
  induction es generalizing c with
  | nil => rfl
  | cons e es ih =>
    rw [List.forall_mem_cons] at h
    rw [List.foldl_cons, List.foldl_cons]
    dsimp only
    rw [hc.applyEntry_other h.1]
    exact ih (c := { c with props := c.props.insert e.1 e.2 }) (hc.of_props rfl rfl rfl) h.2

/-- a child is forwarded declared props -/
theorem forwardedTo_other {t : Template (Action H)} {changed : Props} (h : ∀ e ∈ changed.entries, e.1 ∉ t.props)
    (index : Nat) : forwardedTo t.placeholders changed index = none := by
  unfold forwardedTo
  split
  · next bindings hp =>
    have hnone : ∀ e ∈ changed.entries, bindings.filter (·.outer == e.1) = [] := by
      intro e he
      refine List.filter_eq_nil_iff.2 fun b hb hout => h e he ?_
      rw [beq_iff_eq] at hout
      exact Template.mem_props.2 ⟨_, List.mem_of_getElem? hp, hout ▸ List.mem_map_of_mem hb⟩
    have hempty : forwarded bindings changed = ∅ := by
      rw [forwarded, List.flatMap_eq_nil_iff.2 fun e he => by rw [hnone e he, List.map_nil]]
      rfl
    dsimp only
    rw [hempty]
    rfl
  · rfl

end Core.Declared

variable [ForeignBlocks H]

def Component.withProps (c : Component H) (props : Props) : Component H := c.mapCore fun core => { core with props }

/-- an update is remembered, and so is what is new of it if it is set, and that is all: the world, the slots and the
children are what they were, no hook is called and nothing is forwarded -/
structure Component.Disregards (c : Component H) (changed : Props) (w : World H) : Prop where
  update : c.update changed w = .ok (c.withProps (c.props.extend changed.entries)) w
  set : c.set changed w = .ok (c.withProps (c.props.extend (c.props.changes changed).entries)) w
  hooks : ∀ e ∈ changed.entries, ∀ hook ∈ c.core.updateHooks, c.core.hears e.1 hook = false
  children : ∀ index, forwardedTo c.core.template.placeholders changed index = none

/-- an update that names no declared prop is remembered, and that is all -/
theorem Core.Declared.disregards {core : Core H} (h : core.Declared) (hp : core.phase ≠ .destroyed) {changed : Props}
    (hother : ∀ e ∈ changed.entries, e.1 ∉ core.template.props) (slots children : List (Nested H)) (w : World H) :
    (Component.mk core slots children).Disregards changed w := by
  have hnew : ∀ e ∈ (core.props.changes changed).entries, e.1 ∉ core.template.props := fun e he =>
    hother e (List.mem_of_mem_filter he)
  refine ⟨?_, ?_, fun e he hook _ => hears_other (hother e he) hook, forwardedTo_other hother⟩
  · rw [Component.update_mk, if_neg hp, h.applyEntries_other hother]
    dsimp only
    rw [updateRow_none (forwardedTo_other hother)]
    rfl
  · rw [Component.set, Component.tick_mk, if_neg hp]
    dsimp only
    rw [h.applyEntries_other hnew, Component.updateSlots_mk]
    exact congrArg (Outcome.map _) (updateRow_none (forwardedTo_other hnew) children w)

/-- **A template depends on what it declares.** It renders the same for props and slot contents that agree on the names
that it declares. Every instance of it, at every depth of every component that can be come by, ignores an update that
names none of its props, unless the instance is destroyed and refuses all updates. -/
theorem Template.reads_declared (t : Template (Action H)) :
    (∀ (p q : Props) (s s' : SlotMarkup), (∀ name ∈ t.props, p.get? name = q.get? name) →
      (∀ name ∈ t.slots, s name = s' name) → t.render p s = t.render q s') ∧
    ∀ c : Component H, c.Living → c.Each (fun core => core.template = t → core.phase ≠ .destroyed →
      ∀ changed : Props, (∀ e ∈ changed.entries, e.1 ∉ t.props) → ∀ (slots children : List (Nested H)) (w : World H),
        (Component.mk core slots children).Disregards changed w) fun _ => True := by
  constructor
  · intro p q s s' hp hs
    exact t.render_congr hp hs
  · intro c hc
    have hidle : ∀ core : Core H, core.Idle → core.Declared := fun core h =>
      ⟨fun cell hcell => absurd (h.textCells ▸ hcell) List.not_mem_nil,
        fun cell hcell => absurd (h.attributeCells ▸ hcell) List.not_mem_nil⟩
    refine Component.Each.imp (fun core h htemplate hp changed hother => ?_) (fun _ _ => trivial)
      (hc.each hidle Core.Declared.lasting)
    subst htemplate
    exact h.disregards hp hother

/-- a stack reads `name` and what is in its slot; its paragraph reads `title`, but is not handed on the stack's -/
theorem Template.reads_declared_stacked :
    let t : Template (Action Script.host) := stacked
    let c := (Component.crowded.mount 0 none World.blank).self
    (∀ title : Value, t.render (Props.ofList [("name", .str "a"), ("title", title)]) (fun _ => some "b") =
      t.render (Props.ofList [("name", .str "a")]) fun name => if name = "main" then some "b" else none) ∧
    c.state = .mounted ∧ ∀ (title : Value) (w : World Script.host), c.Disregards (Props.ofList [("title", title)]) w := by
  intro t c
  obtain ⟨hrender, hdisregards⟩ := reads_declared (H := Script.host) stacked
  have hprops : (stacked : Template (Action Script.host)).props = ["name"] := by decide +kernel
  have hslots : (stacked : Template (Action Script.host)).slots = ["main"] := by decide +kernel
  have hliving : c.Living := by
    refine .call (.mount 0 none) World.blank (.furnish _ _ _ fun e he x hx => ?_)
    obtain rfl := List.mem_singleton.1 he
    obtain rfl := Block.component.inj hx
    exact .furnish _ _ _ fun e he => absurd he List.not_mem_nil
  have htemplate : c.core.template = stacked := rfl
  have hstate : c.state = .mounted := by decide +kernel
  refine ⟨fun title => hrender _ _ _ _ (fun name hname => ?_) fun name hname => ?_, hstate, fun title w => ?_⟩
  · rw [hprops, List.mem_singleton] at hname
    subst hname
    rfl
  · rw [hslots, List.mem_singleton] at hname
    subst hname
    rfl
  · have hown := hdisregards c hliving
    generalize c = c at hown hstate htemplate
    obtain ⟨core, slots, children⟩ := c
    refine hown.1 htemplate (fun hp => ?_) _ (fun e he hin => ?_) slots children w
    · rw [Component.state, Component.core, hp] at hstate
      cases hstate
    · obtain rfl := List.mem_singleton.1 he
      rw [hprops, List.mem_singleton] at hin
      exact absurd hin (show "title" ≠ "name" by decide)

end LiveMarkup
