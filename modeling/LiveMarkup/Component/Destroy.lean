/-
Destroying and dropping.

Destroying takes a component's own nodes out of the document if it is detaching and was mounted, undoes listeners and
actions in the order in which they were set up, and then destroys slot contents and children. Nested blocks are
destroyed even if one of them fails; the first fault in that order is the one reported. Only blocks that were mounted at
the top level detach their nodes, since all others go with the nodes around them.

A dropped component undoes what it still has to undo, closes its channel and drops what is nested in it. Its nodes stay
where they are.
-/
import LiveMarkup.Component.Basic

namespace LiveMarkup

variable {H : Host}

/-- lets go of the text node, and detaches it if `detaching` -/
def TextBlock.destroy (detaching : Bool) (t : TextBlock) (w : World H) : TextBlock × World H :=
  ({ t with node := none }, match t.node with
    | some node => if detaching then w.edit (·.detach node) else w
    | none => w)

def Cleanup.run (w : World H) : Cleanup H → World H
  | listener node ticket => w.edit (·.unlisten node ticket)
  | hook _ run => run w

namespace Core

/-- detaches the nodes that were put into the target -/
def detachRoots (c : Core H) (w : World H) : World H := c.roots.foldl (fun w root => w.edit (·.detach root)) w

/-- undoes listeners and actions -/
def cleanUp (c : Core H) (w : World H) : World H := c.cleanups.foldl Cleanup.run w

/-- a component that has nothing left to show or to undo -/
def cleared (c : Core H) : Core H :=
  { c with phase := .destroyed, roots := [], cleanups := [], updateHooks := [], textCells := [], attributeCells := [] }

end Core

/-- the fault of the first of two calls that failed -/
def firstFault : Except LifecycleFault Unit → Except LifecycleFault Unit → Except LifecycleFault Unit
  | .error fault, _ => .error fault
  | .ok _, result => result

variable [ForeignBlocks H]

mutual
/-- undoes everything, and detaches the component's nodes if `detaching` -/
def Component.destroy (detaching : Bool) : Component H → World H → Outcome H (Component H)
  | .mk core slots children, w =>
    match core.phase with
    | .unmounted => .ok (.mk core slots children) w
    | .destroyed => .fail .alreadyDestroyed (.mk core slots children) w
    | .created _ | .mounted =>
      let w := if detaching && core.phase = .mounted then core.detachRoots w else w
      let contents := destroyAll detaching slots (core.cleanUp w)
      let kids := destroyAll detaching children contents.world
      ⟨.mk core.cleared contents.self kids.self, kids.world, firstFault contents.result kids.result⟩
def destroyAll (detaching : Bool) : List (Nested H) → World H → Outcome H (List (Nested H))
  | [], w => .ok [] w
  | .mk index atRoot block :: row, w =>
    let o := block.destroy (detaching && atRoot) w
    let others := destroyAll detaching row o.world
    ⟨.mk index atRoot o.self :: others.self, others.world, firstFault o.result others.result⟩
def Block.destroy (detaching : Bool) : Block H → World H → Outcome H (Block H)
  | .text t, w =>
    let (t, w) := t.destroy detaching w
    .ok (.text t) w
  | .foreign f, w => (ForeignBlocks.destroy detaching f w).map .foreign
  | .component c, w => (c.destroy detaching w).map .component
end

mutual
/-- what is left of the world when a component is dropped -/
def Component.drop : Component H → World H → World H
  | .mk core slots children, w =>
    dropAll children (dropAll slots ((core.cleanUp w).updateChannel core.channel .close))
def dropAll : List (Nested H) → World H → World H
  | [], w => w
  | .mk _ _ block :: row, w => dropAll row (block.drop w)
def Block.drop : Block H → World H → World H
  | .text _, w => w
  | .foreign _, w => w
  | .component c, w => c.drop w
end

end LiveMarkup
