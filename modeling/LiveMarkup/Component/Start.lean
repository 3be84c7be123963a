/-
Starting a component: an instance of a template, with its children, its slot contents and, if a target is given, its
place in the document.

Each slot placeholder takes the content of its name; the first placeholder of a name has it, and content that none takes
is dropped. With `hydrate` the nodes of a server rendering are taken out of the target first: all its children or, given
an anchor, as many siblings right before it as the rendered markup has top-level nodes.
-/
import LiveMarkup.Markup.Reader
import LiveMarkup.Component.Mount

namespace LiveMarkup

variable {H : Host}

structure Options (H : Host) where
  props : Props
  /-- where it is mounted right away -/
  target : Option NodeId
  anchor : Option NodeId
  /-- whether it replaces a server rendering -/
  hydrate : Bool
  /-- slot contents by slot name -/
  slots : Entries (Block H)
  slotContext : Props

def Options.default : Options H := ⟨∅, none, none, false, [], ∅⟩

mutual
/-- a detached instance with its children, but without slot contents -/
def Component.ofTemplate : Template (Action H) → Props → World H → Component H × World H
  | ⟨segments, placeholders, skeleton⟩, props, w =>
    let (w, channel) := w.openChannel
    let (children, w) := childrenOf 0 placeholders props w
    let core : Core H :=
      { template := ⟨segments, placeholders, skeleton⟩, phase := .unmounted, props, slotContext := ∅, roots := [],
        textCells := [], attributeCells := [], cleanups := [], updateHooks := [], channel }
    (.mk core [] children, w)
/-- instances of the child placeholders among `placeholders`, which begin with number `index` -/
def childrenOf (index : Nat) :
    List (Placeholder (Action H) (Template (Action H))) → Props → World H → List (Nested H) × World H
  | [], _, w => ([], w)
  | .child template bindings :: ps, props, w =>
    let (c, w) := Component.ofTemplate template (childProps bindings props) w
    let (row, w) := childrenOf (index + 1) ps props w
    (.mk index false (.component c) :: row, w)
  | _ :: ps, props, w => childrenOf (index + 1) ps props w
end

/-- gives the slot placeholders, from number `index` on, their contents; what is left over comes second -/
def fillSlots {T : Type} (index : Nat) :
    List (Placeholder (Action H) T) → Entries (Block H) → List (Nested H) × Entries (Block H)
  | [], contents => ([], contents)
  | .slot name :: ps, contents =>
    match contents.get? name with
    | some block =>
      let (row, left) := fillSlots (index + 1) ps (contents.erase name)
      (.mk index false block :: row, left)
    | none => fillSlots (index + 1) ps contents
  | _ :: ps, contents => fillSlots (index + 1) ps contents

/-- the nodes in `target` that a server rendering with these props produced -/
def serverRendered (template : Template (Action H)) (props : Props) (w : World H) (target : NodeId)
    (anchor : Option NodeId) : List NodeId :=
  let existing := w.document.children target
  match anchor with
  | none => existing
  | some anchor =>
    match existing.idxOf? anchor with
    | none => []
    | some stop =>
      let count := (Markup.read (template.render props SlotMarkup.none)).length
      (existing.take stop).drop (stop - count)

variable [ForeignBlocks H]

def dropEntries (blocks : Entries (Block H)) (w : World H) : World H := blocks.foldl (fun w e => e.2.drop w) w

/-- an instance of a template, mounted if a target is given; if that fails, it is dropped -/
def Component.start (template : Template (Action H)) (options : Options H) (w : World H) :
    World H × Except LifecycleFault (Component H) :=
  let (c, w) := Component.ofTemplate template options.props w
  let (slots, left) := fillSlots 0 template.placeholders options.slots
  let c := Component.mk { c.core with slotContext := options.slotContext } slots c.children
  match options.target with
  | none => (dropEntries left w, .ok c)
  | some target =>
    let w := if options.hydrate then
        (serverRendered template options.props w target options.anchor).foldl (fun w id => w.edit (·.detach id)) w
      else w
    let o := c.mount target options.anchor w
    match o.result with
    | .ok _ => (dropEntries left o.world, .ok o.self)
    | .error fault => (dropEntries left (o.self.drop o.world), .error fault)

/-! ## Subscriptions -/

/-- calls a handler whenever one of the component's event placeholders with this topic hears its event -/
def Component.subscribe (c : Component H) (topic : String) (handler : H.Handler) (w : World H) : World H × Nat :=
  match w.channel? c.core.channel with
  | some channel => (w.updateChannel c.core.channel fun _ => (channel.subscribe topic handler).1,
      (channel.subscribe topic handler).2)
  | none => (w, 0)

def Component.subscribers (c : Component H) (topic : String) (w : World H) : Nat :=
  ((w.channel? c.core.channel).map (·.count topic)).getD 0

end LiveMarkup
