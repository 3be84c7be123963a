/-
Mounting: a created component takes the place of its markers and goes into the document.

In order: text cells replace their markers, attribute cells rename theirs, listeners and actions are attached, the
markers of slots and children are looked up, and each nested block is mounted right before its marker, which is then
taken out. At last the nodes of the fragment move into the target. Whatever is missing or fails on the way ends the
mount; what was set up so far is undone by destroying the component, which is unmounted again afterwards.

Nested blocks were created together with their component, so they only have to be bound here.
-/
import LiveMarkup.Template.Marker
import LiveMarkup.Component.Create
import LiveMarkup.Component.Destroy

namespace LiveMarkup

variable {H : Host}

/-! ## Markers -/

/-- the node that carries a marker -/
def World.marker (w : World H) (fragment : NodeId) (m : Marker) : Except LifecycleFault NodeId :=
  match if m.category.inTag then w.findAttribute? fragment m.name else w.findElement? fragment m.name with
  | some id => .ok id
  | none => .error (.missingMarker m.name)

/-- the nodes that carry the markers of a category, with their indices -/
def World.spots (w : World H) (fragment : NodeId) (category : Category) :
    List Nat → Except LifecycleFault (List (Nat × NodeId))
  | [] => .ok []
  | index :: indices => do
    let spot ← w.marker fragment ⟨category, index⟩
    let others ← w.spots fragment category indices
    return (index, spot) :: others

/-- takes out markers of which nothing is left but what is held -/
def World.discardAll (held : List NodeId) : List (Nat × NodeId) → World H → World H
  | [], w => w
  | (_, spot) :: spots, w => discardAll held spots (w.discard (held ++ spots.map (·.2)) spot)

/-! ## What a component binds itself -/

/-- puts the text nodes in the place of their markers -/
def bindTexts (fragment : NodeId) : List TextCell → World H → Outcome H Unit
  | [], w => .ok () w
  | cell :: cells, w =>
    match w.marker fragment ⟨.text, cell.index⟩ with
    | .error fault => .fail fault () w
    | .ok spot => bindTexts fragment cells (w.edit (·.replaceWith spot cell.node))

/-- turns attribute markers into the attributes they stand for -/
def bindAttributes (fragment : NodeId) : List AttributeCell → World H → Outcome H (List AttributeCell)
  | [], w => .ok [] w
  | cell :: cells, w =>
    let m : Marker := ⟨.attribute, cell.index⟩
    match w.marker fragment m with
    | .error fault => .fail fault (cell :: cells) w
    | .ok element =>
      (bindAttributes fragment cells (w.renameAttribute element m.name cell.name cell.value)).map
        ({ cell with element := some element } :: ·)

/-- attaches a listener for every event placeholder, from number `index` on -/
def attachListeners {T : Type} (fragment : NodeId) (channel index : Nat) :
    List (Placeholder (Action H) T) → World H → Outcome H (List (Cleanup H))
  | [], w => .ok [] w
  | .event event topic :: ps, w =>
    let m : Marker := ⟨.event, index⟩
    match w.marker fragment m with
    | .error fault => .fail fault [] w
    | .ok element =>
      let (w, ticket) := (w.edit (·.removeAttribute element m.name)).listen element event (.channel channel topic)
      (attachListeners fragment channel (index + 1) ps w).map (.listener element ticket :: ·)
  | _ :: ps, w => attachListeners fragment channel (index + 1) ps w

/-- runs the action of every action placeholder, from number `index` on -/
def runActions {T : Type} (fragment : NodeId) (props : Props) (index : Nat) :
    List (Placeholder (Action H) T) → World H → Outcome H (List (Cleanup H) × List (UpdateHook H))
  | [], w => .ok ([], []) w
  | .action run param :: ps, w =>
    let m : Marker := ⟨.action, index⟩
    match w.marker fragment m with
    | .error fault => .fail fault ([], []) w
    | .ok element =>
      let (w, handle) := run element (param.bind props.get?) (w.edit (·.removeAttribute element m.name))
      (runActions fragment props (index + 1) ps w).map fun (cleanups, hooks) =>
        ((handle.destroy.map (Cleanup.hook element)).toList ++ cleanups,
          (handle.update.map (UpdateHook.mk index element)).toList ++ hooks)
  | _ :: ps, w => runActions fragment props (index + 1) ps w

/-- binds text cells, attribute cells, listeners and actions, up to the first marker that is missing -/
def Core.bind (c : Core H) (fragment : NodeId) (w : World H) : Outcome H (Core H) :=
  let texts := bindTexts fragment c.textCells w
  match texts.result with
  | .error fault => .fail fault c texts.world
  | .ok _ =>
    let attributes := bindAttributes fragment c.attributeCells texts.world
    let c := { c with attributeCells := attributes.self }
    match attributes.result with
    | .error fault => .fail fault c attributes.world
    | .ok _ =>
      let listeners := attachListeners fragment c.channel 0 c.template.placeholders attributes.world
      let c := { c with cleanups := c.cleanups ++ listeners.self }
      match listeners.result with
      | .error fault => .fail fault c listeners.world
      | .ok _ =>
        (runActions fragment c.props 0 c.template.placeholders listeners.world).map fun (cleanups, hooks) =>
          { c with cleanups := c.cleanups ++ cleanups, updateHooks := c.updateHooks ++ hooks }

/-! ## Mounting -/

/-- puts the text node into the target, created first if need be -/
def TextBlock.mount (target : NodeId) (anchor : Option NodeId) (t : TextBlock) (w : World H) : TextBlock × World H :=
  let (t, w) := t.create w
  (t, match t.node with
    | some node => w.edit (·.insertBefore target node anchor)
    | none => w)

variable [ForeignBlocks H]

/-- ends a mount: what was set up is undone, and the component is unmounted -/
def Component.abandon (fault : LifecycleFault) (c : Component H) (w : World H) : Outcome H (Component H) :=
  let o := c.destroy false w
  .fail fault (o.self.mapCore fun core => { core with phase := .unmounted }) o.world

mutual
/-- binds a component that has been created and puts its nodes into the target -/
def Component.mountCreated (target : NodeId) (anchor : Option NodeId) :
    Component H → World H → Outcome H (Component H)
  | .mk core slots children, w =>
    match core.phase with
    | .mounted => .fail .alreadyMounted (.mk core slots children) w
    | .unmounted | .destroyed => .fail (.missingMarker "#document-fragment") (.mk core slots children) w
    | .created fragment =>
      let own := core.bind fragment w
      match own.result with
      | .error fault => Component.abandon fault (.mk own.self slots children) own.world
      | .ok _ =>
        let placeholders := core.template.placeholders
        match own.world.spots fragment .slot (indicesOf placeholders .slot),
            own.world.spots fragment .child (indicesOf placeholders .child) with
        | .error fault, _ => Component.abandon fault (.mk own.self slots children) own.world
        | .ok _, .error fault => Component.abandon fault (.mk own.self slots children) own.world
        | .ok slotSpots, .ok childSpots =>
          let spots := (slotSpots ++ childSpots).map (·.2)
          let roots := (own.world.document.children fragment).filter (!spots.contains ·)
          let core := { own.self with roots }
          let contents := mountRow fragment core.handles (childSpots.map (·.2)) slots slotSpots own.world
          match contents.result with
          | .error fault => Component.abandon fault (.mk core contents.self children) contents.world
          | .ok _ =>
            let held := core.handles ++ handlesOf contents.self
            let kids := mountRow fragment held [] children childSpots contents.world
            match kids.result with
            | .error fault => Component.abandon fault (.mk core contents.self kids.self) kids.world
            | .ok _ =>
              .ok (.mk { core with phase := .mounted } contents.self kids.self)
                (kids.world.edit (·.insertBefore target fragment anchor))
/-- mounts the blocks of a row before their markers and takes out the markers; a block whose marker has lost its
parent is left as it is -/
def mountRow (fragment : NodeId) (held later : List NodeId) :
    List (Nested H) → List (Nat × NodeId) → World H → Outcome H (List (Nested H))
  | [], spots, w => .ok [] (w.discardAll (held ++ later) spots)
  | .mk index atRoot block :: row, spots, w =>
    let empty := spots.takeWhile (·.1 ≠ index)
    let ahead := spots.dropWhile (·.1 ≠ index)
    let w := w.discardAll (held ++ ahead.map (·.2) ++ later) empty
    match ahead with
    | [] => (mountRow fragment held later row [] w).map (.mk index atRoot block :: ·)
    | (_, spot) :: after =>
      let pending := after.map (·.2) ++ later
      match w.document.parent? spot with
      | none =>
        (mountRow fragment held later row after (w.discard (held ++ pending) spot)).map (.mk index atRoot block :: ·)
      | some parent =>
        let atRoot := parent == fragment
        let o := block.mountCreated parent (some spot) w
        match o.result with
        | .error fault => .fail fault (.mk index atRoot o.self :: row) o.world
        | .ok _ =>
          let held := held ++ o.self.handles
          (mountRow fragment held later row after (o.world.discard (held ++ pending) spot)).map
            (.mk index atRoot o.self :: ·)
def Block.mountCreated (target : NodeId) (anchor : Option NodeId) : Block H → World H → Outcome H (Block H)
  | .text t, w =>
    let (t, w) := t.mount target anchor w
    .ok (.text t) w
  | .foreign f, w => (ForeignBlocks.mount target anchor f w).map .foreign
  | .component c, w => (c.mountCreated target anchor w).map .component
end

/-- puts a component's nodes into `target`, before `anchor` or at the end; it is created first if need be -/
def Component.mount (target : NodeId) (anchor : Option NodeId) (c : Component H) (w : World H) :
    Outcome H (Component H) :=
  match c.core.phase with
  | .mounted => .fail .alreadyMounted c w
  | .created _ => c.mountCreated target anchor w
  | .unmounted | .destroyed =>
    let o := c.create w
    match o.result with
    | .error _ => o
    | .ok _ => o.self.mountCreated target anchor o.world

def Block.mount (target : NodeId) (anchor : Option NodeId) (b : Block H) (w : World H) : Outcome H (Block H) :=
  match b with
  | .component c => (c.mount target anchor w).map .component
  | b => b.mountCreated target anchor w

end LiveMarkup
