/-
Updating: new prop values reach the cells, the action hooks and the nested blocks.

An update applies its entries one by one to the component itself and then gives each child what is forwarded to it, at
most once. A tick first drops the entries that change nothing; between the component itself and its children it brings
the slot context up to date, and slot contents are told what changed in it. The first nested block that fails ends the
call.

What is forwarded to a child is a new table, in which the entries have an order of their own. `Orders` says which, for
every nested block: `Component.updateIn` and `Component.tickIn` are the calls in given orders, `Component.update` and
`Component.tick` those in which everything keeps the order in which it was forwarded.
-/
import LiveMarkup.Component.Basic

namespace LiveMarkup

variable {H : Host}

/-! ## The component itself -/

/-- the placeholder's action parameter, if it has one -/
def Placeholder.parameter? {A T : Type} : Placeholder A T → Option String
  | .action _ param => param
  | _ => none

/-- shows a new value in the text cells of a prop -/
def showTexts (cells : List TextCell) (prop text : String) (w : World H) : World H :=
  (cells.filter (·.prop == prop)).foldl (fun w cell => w.edit (·.setData cell.node text)) w

/-- shows a new value in the attribute cells of a prop; an element that is not known yet is left for later -/
def showAttributes (prop text : String) : List AttributeCell → World H → List AttributeCell × World H
  | [], w => ([], w)
  | cell :: cells, w =>
    if cell.prop = prop then
      let w := match cell.element with
        | some element => w.edit (·.setAttribute element cell.name text)
        | none => w
      let (cells, w) := showAttributes prop text cells w
      ({ cell with value := text } :: cells, w)
    else
      let (cells, w) := showAttributes prop text cells w
      (cell :: cells, w)

/-- whether an update hook waits for this prop -/
def Core.hears (c : Core H) (prop : String) (hook : UpdateHook H) : Bool :=
  (c.template.placeholders[hook.index]?.bind Placeholder.parameter?) == some prop

def Core.applyEntry (c : Core H) (w : World H) (prop : String) (value : Value) : Core H × World H :=
  let w := showTexts c.textCells prop value.toText w
  let (attributeCells, w) := showAttributes prop value.toText c.attributeCells w
  let w := (c.updateHooks.filter (c.hears prop)).foldl (fun w hook => hook.run value w) w
  ({ c with props := c.props.insert prop value, attributeCells }, w)

def Core.applyEntries (c : Core H) (w : World H) (changed : Props) : Core H × World H :=
  changed.entries.foldl (fun (c, w) e => c.applyEntry w e.1 e.2) (c, w)

/-- what a change set forwards to a child -/
def forwarded (bindings : List Binding) (changed : Props) : Props :=
  Props.ofList (changed.entries.flatMap fun e =>
    (bindings.filter (·.outer == e.1)).map fun b => (b.child, e.2))

/-- what a change set forwards to the child at this placeholder; nothing if that is empty -/
def forwardedTo {A T : Type} (placeholders : List (Placeholder A T)) (changed : Props) (index : Nat) : Option Props :=
  match placeholders[index]? with
  | some (.child _ bindings) =>
    let props := forwarded bindings changed
    if props.isEmpty then none else some props
  | _ => none

/-- shows a new value of the prop -/
def TextBlock.update (changed : Props) (t : TextBlock) (w : World H) : TextBlock × World H :=
  match t.prop.bind changed.get? with
  | some value =>
    ({ t with data := value.toText }, match t.node with
      | some node => w.edit (·.setData node value.toText)
      | none => w)
  | none => (t, w)

/-! ## Orders -/

/-- in which order each nested block takes the entries that are forwarded to it; a block is found by the placeholders on
the way to it -/
structure Orders where
  arrange : List Nat → Props → Props
  perm : ∀ path changed, (arrange path changed).entries.Perm changed.entries

namespace Orders

/-- entries are taken in the order in which they were forwarded -/
def kept : Orders := ⟨fun _ changed => changed, fun _ _ => .refl _⟩

/-- the orders below the block at a placeholder -/
def below (orders : Orders) (index : Nat) : Orders :=
  ⟨fun path => orders.arrange (index :: path), fun path => orders.perm (index :: path)⟩

/-- what a change set forwards to the child at this placeholder, as the child takes it -/
def forwardedTo {A T : Type} (orders : Orders) (placeholders : List (Placeholder A T)) (changed : Props) (index : Nat) :
    Option Props :=
  (LiveMarkup.forwardedTo placeholders changed index).map (orders.arrange [index])

theorem forwardedTo_kept {A T : Type} (placeholders : List (Placeholder A T)) (changed : Props) :
    kept.forwardedTo placeholders changed = LiveMarkup.forwardedTo placeholders changed :=
  funext fun _ => Option.map_id'

end Orders

variable [ForeignBlocks H]

/-! ## Nested blocks -/

mutual
/-- applies a change set as it is -/
def Component.updateIn (orders : Orders) (changed : Props) : Component H → World H → Outcome H (Component H)
  | .mk core slots children, w =>
    if core.phase = .destroyed then .fail .updateAfterDestroy (.mk core slots children) w
    else
      let (updated, w) := core.applyEntries w changed
      (updateRowIn orders (orders.forwardedTo core.template.placeholders changed) children w).map (.mk updated slots ·)
/-- updates the blocks of a row with what each is given, up to the first that fails -/
def updateRowIn (orders : Orders) (deliver : Nat → Option Props) :
    List (Nested H) → World H → Outcome H (List (Nested H))
  | [], w => .ok [] w
  | .mk index atRoot block :: row, w =>
    match deliver index with
    | none => (updateRowIn orders deliver row w).map (.mk index atRoot block :: ·)
    | some changed =>
      let o := block.updateIn (orders.below index) changed w
      match o.result with
      | .error fault => .fail fault (.mk index atRoot o.self :: row) o.world
      | .ok _ => (updateRowIn orders deliver row o.world).map (.mk index atRoot o.self :: ·)
def Block.updateIn (orders : Orders) (changed : Props) : Block H → World H → Outcome H (Block H)
  | .text t, w =>
    let (t, w) := t.update changed w
    .ok (.text t) w
  | .foreign f, w => (ForeignBlocks.update changed f w).map .foreign
  | .component c, w => (c.updateIn orders changed w).map .component
end

/-- brings the slot context up to date and tells the slot contents what changed in it -/
def Component.updateSlotsIn (orders : Orders) (context : Option Props) :
    Component H → World H → Outcome H (Component H)
  | .mk core slots children, w =>
    match context with
    | none => .ok (.mk core slots children) w
    | some incoming =>
      let dirty := core.slotContext.changes incoming
      if dirty.isEmpty then .ok (.mk core slots children) w
      else
        let core := { core with slotContext := core.slotContext.extend dirty.entries }
        (updateRowIn orders (fun _ => some dirty) slots w).map (.mk core · children)

/-- one pass: props that changed, then the slot context if one is given, then the children -/
def Component.tickIn (orders : Orders) (incoming : Props) (context : Option Props) :
    Component H → World H → Outcome H (Component H)
  | .mk core slots children, w =>
    if core.phase = .destroyed then .fail .updateAfterDestroy (.mk core slots children) w
    else
      let changed := core.props.changes incoming
      let (updated, w) := core.applyEntries w changed
      let o := (Component.mk updated slots children).updateSlotsIn orders context w
      match o.result with
      | .error _ => o
      | .ok _ =>
        (updateRowIn orders (orders.forwardedTo core.template.placeholders changed) o.self.children o.world).map
          (.mk o.self.core o.self.slots ·)

/-! ## Entries in the order in which they were forwarded -/

def Component.update (changed : Props) (c : Component H) (w : World H) : Outcome H (Component H) :=
  c.updateIn .kept changed w

def updateRow (deliver : Nat → Option Props) (row : List (Nested H)) (w : World H) : Outcome H (List (Nested H)) :=
  updateRowIn .kept deliver row w

def Block.update (changed : Props) (b : Block H) (w : World H) : Outcome H (Block H) := b.updateIn .kept changed w

def Component.updateSlots (context : Option Props) (c : Component H) (w : World H) : Outcome H (Component H) :=
  c.updateSlotsIn .kept context w

def Component.tick (incoming : Props) (context : Option Props) (c : Component H) (w : World H) :
    Outcome H (Component H) :=
  c.tickIn .kept incoming context w

/-- updates the props that differ from the current ones -/
def Component.set (incoming : Props) (c : Component H) (w : World H) : Outcome H (Component H) :=
  c.tick incoming none w

section

variable (changed : Props) (core : Core H) (slots children : List (Nested H)) (w : World H)

theorem Component.update_mk : Component.update changed (.mk core slots children) w =
    if core.phase = .destroyed then .fail .updateAfterDestroy (.mk core slots children) w
    else
      let (updated, w) := core.applyEntries w changed
      (updateRow (forwardedTo core.template.placeholders changed) children w).map (.mk updated slots ·) := by
  rw [Component.update, Component.updateIn, Orders.forwardedTo_kept]
  rfl

theorem Block.update_component (c : Component H) :
    Block.update changed (.component c) w = (c.update changed w).map .component := by
  rw [Block.update, Block.updateIn]
  rfl

theorem updateRow_cons (deliver : Nat → Option Props) (index : Nat) (atRoot : Bool) (block : Block H)
    (row : List (Nested H)) : updateRow deliver (.mk index atRoot block :: row) w =
      match deliver index with
      | none => (updateRow deliver row w).map (.mk index atRoot block :: ·)
      | some changed =>
        let o := block.update changed w
        match o.result with
        | .error fault => .fail fault (.mk index atRoot o.self :: row) o.world
        | .ok _ => (updateRow deliver row o.world).map (.mk index atRoot o.self :: ·) := by
  rw [updateRow, updateRowIn]
  rfl

theorem Component.updateSlots_mk (context : Option Props) : Component.updateSlots context (.mk core slots children) w =
    match context with
    | none => .ok (.mk core slots children) w
    | some incoming =>
      let dirty := core.slotContext.changes incoming
      if dirty.isEmpty then .ok (.mk core slots children) w
      else
        let core := { core with slotContext := core.slotContext.extend dirty.entries }
        (updateRow (fun _ => some dirty) slots w).map (.mk core · children) :=
  rfl

theorem Component.tick_mk (incoming : Props) (context : Option Props) :
    Component.tick incoming context (.mk core slots children) w =
      if core.phase = .destroyed then .fail .updateAfterDestroy (.mk core slots children) w
      else
        let changed := core.props.changes incoming
        let (updated, w) := core.applyEntries w changed
        let o := (Component.mk updated slots children).updateSlots context w
        match o.result with
        | .error _ => o
        | .ok _ =>
          (updateRow (forwardedTo core.template.placeholders changed) o.self.children o.world).map
            (.mk o.self.core o.self.slots ·) := by
  simp only [Component.tick, Component.tickIn, Orders.forwardedTo_kept]
  rfl

end

/-! ## Transitions -/

mutual
/-- tells all nested blocks that they come in or go out -/
def Component.transition (t : Transition) (isLocal : Bool) : Component H → World H → Component H × World H
  | .mk core slots children, w =>
    let (slots, w) := transitionAll t isLocal slots w
    let (children, w) := transitionAll t isLocal children w
    (.mk core slots children, w)
def transitionAll (t : Transition) (isLocal : Bool) : List (Nested H) → World H → List (Nested H) × World H
  | [], w => ([], w)
  | .mk index atRoot block :: row, w =>
    let (block, w) := block.transition t isLocal w
    let (row, w) := transitionAll t isLocal row w
    (.mk index atRoot block :: row, w)
def Block.transition (t : Transition) (isLocal : Bool) : Block H → World H → Block H × World H
  | .text b, w => (.text b, w)
  | .foreign f, w =>
    let (f, w) := ForeignBlocks.transition t isLocal f w
    (.foreign f, w)
  | .component c, w =>
    let (c, w) := c.transition t isLocal w
    (.component c, w)
end

end LiveMarkup
