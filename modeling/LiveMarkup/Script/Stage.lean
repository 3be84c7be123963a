/-
The state of a running script: the world, and what is kept under names.

A node lives as long as someone holds it: a name, a component or block that is kept, or an event that is at it. After
every step `Stage.tidy` lets go of all others: a tree whose root nobody holds falls apart down to the nodes that are
held, which have no parent from then on.
-/
import LiveMarkup.Component.Start
import LiveMarkup.Event.Dispatch
import LiveMarkup.Script.Actors

namespace LiveMarkup.Script

/-- everything that a script has at hand -/
structure Stage where
  world : ScriptWorld
  templates : Entries (Template (Action host))
  nodes : Entries NodeId
  components : Entries (Component host)
  blocks : Entries (Block host)
  /-- listeners that can be taken off: the node and the ticket -/
  listenings : Entries (NodeId × Nat)
  /-- subscriptions that can be ended: the channel and the ticket -/
  subscriptions : Entries (Nat × Nat)

namespace Stage

def view : WorldView host Stage where
  world s := s.world
  modify f s := { s with world := f s.world }

/-- a stage with one element `body` and nothing else -/
def initial (templates : Entries (Template (Action host))) (renamesInPlace : Bool) : Stage :=
  let (document, body) := (∅ : Document (Listener Reaction)).add (.element "body" [])
  let backend := { Backend.faithful with renamesInPlace }
  { world := { document, channels := [], backend, outside := [], passing := [] }
    templates, nodes := [("body", body)], components := [], blocks := [], listenings := [], subscriptions := [] }

def edit (s : Stage) (f : Document (Listener Reaction) → Document (Listener Reaction)) : Stage :=
  { s with world := s.world.edit f }

def node? (s : Stage) (path : NodePath) : Option NodeId :=
  path.positions.foldl (fun id position => id.bind fun id => (s.world.document.children id)[position]?)
    (s.nodes.get? path.name)

def held (s : Stage) : List NodeId :=
  s.nodes.map (·.2) ++ s.components.flatMap (·.2.handles) ++ s.blocks.flatMap (·.2.handles) ++ s.world.passing

/-- lets go of what nobody holds -/
def tidy (s : Stage) : Stage := s.edit (·.retain s.held.contains)

/-- keeps a component under a name; one that was kept under it is dropped -/
def keepComponent (s : Stage) (name : String) (c : Component host) : Stage :=
  let earlier := s.components.get? name
  let s := { s with components := s.components.set name c }
  match earlier with
  | some c => { s with world := c.drop s.world }
  | none => s

def keepBlock (s : Stage) (name : String) (b : Block host) : Stage :=
  let earlier := s.blocks.get? name
  let s := { s with blocks := s.blocks.set name b }
  match earlier with
  | some b => { s with world := b.drop s.world }
  | none => s

/-! ## Building -/

def optionalNode? (s : Stage) : Option NodePath → Option NodeId
  | some path => s.node? path
  | none => none

mutual
/-- builds a block; a name that no block is kept under gives an empty text -/
def buildBlock (s : Stage) : BlockSpec → Stage × Except LifecycleFault (Block host)
  | .fixed data => (s, .ok (.text (.fixed data)))
  | .bound prop start => (s, .ok (.text (.bound prop start)))
  | .recorder label fails => (s, .ok (.foreign ⟨label, fails, none⟩))
  | .taken name => ({ s with blocks := s.blocks.erase name }, .ok ((s.blocks.get? name).getD (.text (.fixed ""))))
  | .component spec =>
    let (s, result) := buildComponent s spec
    (s, result.map .component)
/-- starts a component; a template name that is not defined stands for the empty template -/
def buildComponent (s : Stage) : ComponentSpec → Stage × Except LifecycleFault (Component host)
  | .mk template props target anchor hydrate slots slotContext =>
    let target := s.optionalNode? target
    let anchor := s.optionalNode? anchor
    let (s, contents, result) := buildAll s slots
    match result with
    | .error fault => ({ s with world := dropEntries contents s.world }, .error fault)
    | .ok _ =>
      let template := (s.templates.get? template).getD ⟨[""], [], []⟩
      let (w, result) := Component.start template
        { props, target, anchor, hydrate, slots := contents, slotContext } s.world
      ({ s with world := w }, result)
/-- builds slot contents in order, up to the first that fails -/
def buildAll (s : Stage) : List (String × BlockSpec) → Stage × Entries (Block host) × Except LifecycleFault Unit
  | [] => (s, [], .ok ())
  | (name, spec) :: specs =>
    match buildBlock s spec with
    | (s, .error fault) => (s, [], .error fault)
    | (s, .ok block) =>
      let (s, contents, result) := buildAll s specs
      (s, (name, block) :: contents, result)
end

end Stage

end LiveMarkup.Script
