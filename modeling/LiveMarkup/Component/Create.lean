/-
Creating: a component builds its nodes, still detached.

The skeleton is copied into a fragment, and the cells get the current props. Children are created before slot contents;
the first one that fails ends the call, and the component is then not created.
-/
import LiveMarkup.Component.Basic

namespace LiveMarkup

variable {H : Host}

/-- creates the text node; nothing happens if it is there -/
def TextBlock.create (t : TextBlock) (w : World H) : TextBlock × World H :=
  match t.node with
  | some _ => (t, w)
  | none =>
    let (w, node) := w.addText t.data
    ({ t with node := some node }, w)

/-- new text nodes for the text placeholders among `placeholders`, which begin with number `index` -/
def textCellsFor {T : Type} (props : Props) (index : Nat) :
    List (Placeholder (Action H) T) → World H → List TextCell × World H
  | [], w => ([], w)
  | .text prop :: ps, w =>
    let (w, node) := w.addText (props.text prop)
    let (cells, w) := textCellsFor props (index + 1) ps w
    (⟨index, prop, node⟩ :: cells, w)
  | _ :: ps, w => textCellsFor props (index + 1) ps w

/-- cells for the attribute placeholders among `placeholders`, which begin with number `index` -/
def attributeCellsFor {T : Type} (props : Props) (index : Nat) :
    List (Placeholder (Action H) T) → List AttributeCell
  | [] => []
  | .attribute prop name :: ps =>
    ⟨index, prop, name, props.text prop, none⟩ :: attributeCellsFor props (index + 1) ps
  | _ :: ps => attributeCellsFor props (index + 1) ps

/-- copies the skeleton and makes the cells -/
def Core.prepare (c : Core H) (w : World H) : Core H × NodeId × World H :=
  let (w, fragment) := w.addFragment c.template.skeleton
  let (textCells, w) := textCellsFor c.props 0 c.template.placeholders w
  let attributeCells := attributeCellsFor c.props 0 c.template.placeholders
  ({ c with textCells, attributeCells }, fragment, w)

variable [ForeignBlocks H]

mutual
/-- builds the nodes of a component; nothing happens if they are waiting to be mounted -/
def Component.create : Component H → World H → Outcome H (Component H)
  | .mk core slots children, w =>
    match core.phase with
    | .created _ => .ok (.mk core slots children) w
    | .mounted => .fail .alreadyMounted (.mk core slots children) w
    | .unmounted | .destroyed =>
      let (core, fragment, w) := core.prepare w
      let kids := createAll children w
      match kids.result with
      | .error fault => .fail fault (.mk core slots kids.self) kids.world
      | .ok _ =>
        let contents := createAll slots kids.world
        match contents.result with
        | .error fault => .fail fault (.mk core contents.self kids.self) contents.world
        | .ok _ => .ok (.mk { core with phase := .created fragment } contents.self kids.self) contents.world
/-- creates the blocks of a row up to the first that fails -/
def createAll : List (Nested H) → World H → Outcome H (List (Nested H))
  | [], w => .ok [] w
  | .mk index atRoot block :: row, w =>
    let o := block.create w
    match o.result with
    | .error fault => .fail fault (.mk index atRoot o.self :: row) o.world
    | .ok _ => (createAll row o.world).map (.mk index atRoot o.self :: ·)
def Block.create : Block H → World H → Outcome H (Block H)
  | .text t, w =>
    let (t, w) := t.create w
    .ok (.text t) w
  | .foreign f, w => (ForeignBlocks.create f w).map .foreign
  | .component c, w => (c.create w).map .component
end

end LiveMarkup
