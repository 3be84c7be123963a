/-
Components: live instances of templates.

A component keeps its template, its current props, the cells that show them, and what it has to undo when it goes. Two
rows of blocks are nested in it: the contents of its slots and its children, each with the index of its placeholder. A
child is always a component; the content of a slot is a text, a component or a block of the host.

A call on a component is a function that gives an `Outcome`: the component and the world as the call left them, and
whether it succeeded. A failed call leaves behind what it did up to there.
-/
import LiveMarkup.World
import LiveMarkup.Template.Basic
import LiveMarkup.Template.Render
import LiveMarkup.Component.Fault

namespace LiveMarkup

/-! ## Actions -/

/-- what an action leaves behind: what runs when its parameter changes, and what runs at the end -/
structure Handle (H : Host) where
  update : Option (Value → World H → World H)
  destroy : Option (World H → World H)

/-- what a host runs on an element when it is mounted, with the value of the parameter if there is one -/
abbrev Action (H : Host) := NodeId → Option Value → World H → World H × Handle H

/-! ## One component -/

/-- where a component is in its life -/
inductive State where
  | unmounted
  | created
  | mounted
  | destroyed
deriving DecidableEq, Repr

def State.word : State → String
  | unmounted => "Unmounted"
  | created => "Created"
  | mounted => "Mounted"
  | destroyed => "Destroyed"

/-- where a component is in its life; before it is mounted, the fragment that holds its nodes -/
inductive Phase where
  | unmounted
  | created (fragment : NodeId)
  | mounted
  | destroyed
deriving DecidableEq, Repr

def Phase.state : Phase → State
  | unmounted => .unmounted
  | created _ => .created
  | mounted => .mounted
  | destroyed => .destroyed

/-- a text node that shows a prop -/
structure TextCell where
  index : Nat
  prop : String
  node : NodeId
deriving DecidableEq, Repr

/-- an attribute that shows a prop; the element is known once it is mounted -/
structure AttributeCell where
  index : Nat
  prop : String
  name : String
  value : String
  element : Option NodeId
deriving DecidableEq, Repr

/-- what a component undoes when it is destroyed or dropped -/
inductive Cleanup (H : Host) where
  | listener (node : NodeId) (ticket : Nat)
  | hook (node : NodeId) (run : World H → World H)

/-- what runs when the parameter of an action changes -/
structure UpdateHook (H : Host) where
  index : Nat
  node : NodeId
  run : Value → World H → World H

/-- a component without what is nested in it -/
structure Core (H : Host) where
  template : Template (Action H)
  phase : Phase
  props : Props
  slotContext : Props
  /-- the nodes that were put into the target, without those of nested blocks -/
  roots : List NodeId
  textCells : List TextCell
  attributeCells : List AttributeCell
  cleanups : List (Cleanup H)
  updateHooks : List (UpdateHook H)
  channel : Nat

/-- a single text node, which may show a prop of the slot context -/
structure TextBlock where
  prop : Option String
  data : String
  node : Option NodeId
deriving DecidableEq, Repr

/-- a text that stays as it is -/
def TextBlock.fixed (data : String) : TextBlock := ⟨none, data, none⟩

/-- a text that shows a prop, which starts out as `initial` -/
def TextBlock.bound (prop initial : String) : TextBlock := ⟨some prop, initial, none⟩

/-! ## Nesting -/

mutual
/-- an instance of a template -/
inductive Component (H : Host) where
  | mk (core : Core H) (slots children : List (Nested H))
/-- a block at the placeholder with this index; `atRoot` if it was mounted at the top level -/
inductive Nested (H : Host) where
  | mk (index : Nat) (atRoot : Bool) (block : Block H)
/-- something that can be created, mounted, updated and destroyed -/
inductive Block (H : Host) where
  | text (t : TextBlock)
  | foreign (f : H.Foreign)
  | component (c : Component H)
end

variable {H : Host}

def Nested.index : Nested H → Nat
  | mk index _ _ => index

/-- whether a nested block was mounted at the top level -/
def Nested.atRoot : Nested H → Bool
  | mk _ atRoot _ => atRoot

def Nested.block : Nested H → Block H
  | mk _ _ block => block

namespace Component

def core : Component H → Core H
  | mk core _ _ => core

def slots : Component H → List (Nested H)
  | mk _ slots _ => slots

def children : Component H → List (Nested H)
  | mk _ _ children => children

/-- changes a component but not what is nested in it -/
def mapCore (f : Core H → Core H) : Component H → Component H
  | mk core slots children => mk (f core) slots children

def state (c : Component H) : State := c.core.phase.state

def props (c : Component H) : Props := c.core.props

/-- the nodes that were put into the target, without those of nested blocks -/
def roots (c : Component H) : List NodeId := c.core.roots

end Component

/-! ## Outcomes -/

/-- what a call left behind and whether it succeeded -/
structure Outcome (H : Host) (α : Type) where
  self : α
  world : World H
  result : Except LifecycleFault Unit

namespace Outcome

variable {α β : Type}

def ok (self : α) (world : World H) : Outcome H α := ⟨self, world, .ok ()⟩

def fail (fault : LifecycleFault) (self : α) (world : World H) : Outcome H α := ⟨self, world, .error fault⟩

/-- puts what a call left behind into something larger -/
def map (f : α → β) (o : Outcome H α) : Outcome H β := ⟨f o.self, o.world, o.result⟩

end Outcome

inductive Transition where
  | intro
  | outro
deriving DecidableEq, Repr

/-- how the host's own blocks live -/
class ForeignBlocks (H : Host) where
  create : H.Foreign → World H → Outcome H H.Foreign
  mount : (target : NodeId) → (anchor : Option NodeId) → H.Foreign → World H → Outcome H H.Foreign
  update : Props → H.Foreign → World H → Outcome H H.Foreign
  transition : Transition → (isLocal : Bool) → H.Foreign → World H → H.Foreign × World H
  destroy : (detaching : Bool) → H.Foreign → World H → Outcome H H.Foreign
  /-- the nodes that the block holds -/
  handles : H.Foreign → List NodeId

/-! ## Held nodes -/

/-- the node that a cleanup holds; waiting for an event holds none -/
def Cleanup.handle? : Cleanup H → Option NodeId
  | listener _ _ => none
  | hook node _ => some node

def Phase.handle? : Phase → Option NodeId
  | created fragment => some fragment
  | _ => none

/-- the nodes that a component holds itself -/
def Core.handles (c : Core H) : List NodeId :=
  c.phase.handle?.toList ++ c.roots ++ c.textCells.map (·.node) ++ c.attributeCells.filterMap (·.element) ++
    c.cleanups.filterMap Cleanup.handle? ++ c.updateHooks.map (·.node)

variable [ForeignBlocks H]

mutual
/-- the nodes that a component and all nested blocks hold -/
def Component.handles : Component H → List NodeId
  | .mk core slots children => core.handles ++ handlesOf slots ++ handlesOf children
def handlesOf : List (Nested H) → List NodeId
  | [] => []
  | .mk _ _ block :: row => block.handles ++ handlesOf row
def Block.handles : Block H → List NodeId
  | .text t => t.node.toList
  | .foreign f => ForeignBlocks.handles f
  | .component c => c.handles
end

end LiveMarkup
