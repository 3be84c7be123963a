/-
Documents: live nodes with identity.

A document is a forest of nodes, each with an id of its own, a kind and its listeners; `L` is the type of listeners. The
trees of the forest are the pieces that are not attached to one another: a node without a parent is the root of one. The
parent of a node is where the forest has it, so a node has at most one, and no node is below itself.

An id that is not in the document names nothing: look-ups give nothing and changes leave the document as it is.
-/
import LiveMarkup.Document.Forest
import LiveMarkup.Markup.Printer

namespace LiveMarkup

abbrev NodeId := Nat

/-- what a node is -/
inductive Kind where
  | fragment
  | element (tag : String) (attributes : Attributes)
  | text (data : String)
  | comment (data : String)
deriving DecidableEq, Repr, Inhabited

namespace Kind

def tag? : Kind → Option String
  | .element tag _ => some tag
  | _ => none

/-- the attributes of an element; none for other nodes -/
def attributes : Kind → Attributes
  | .element _ attributes => attributes
  | _ => []

def data? : Kind → Option String
  | .text data => some data
  | .comment data => some data
  | _ => none

/-- whether the node only holds others together until they are inserted -/
def isFragment : Kind → Bool
  | .fragment => true
  | _ => false

end Kind

/-- a listener on a node, with the ticket it was given and the event it waits for -/
structure Listening (L : Type) where
  ticket : Nat
  event : String
  listener : L
deriving DecidableEq, Repr

structure Node (L : Type) where
  id : NodeId
  kind : Kind
  listeners : List (Listening L)
  nextTicket : Nat
deriving DecidableEq, Repr

/-- a forest of nodes, and the first id that is not in use -/
structure Document (L : Type) where
  forest : Forest (Node L)
  fresh : NodeId
deriving DecidableEq, Repr

namespace Document

variable {L : Type}

def empty : Document L := ⟨.nil, 0⟩

instance : EmptyCollection (Document L) := ⟨empty⟩

def isNode (id : NodeId) (n : Node L) : Bool := n.id == id

/-! ## Looking -/

/-- a node and the forest of its children -/
def find? (d : Document L) (id : NodeId) : Option (Node L × Forest (Node L)) := d.forest.find? (isNode id)

def kind? (d : Document L) (id : NodeId) : Option Kind := (d.find? id).map (·.1.kind)

def childForest (d : Document L) (id : NodeId) : Forest (Node L) := ((d.find? id).map (·.2)).getD .nil

def children (d : Document L) (id : NodeId) : List NodeId := (d.childForest id).roots.map (·.id)

def parent? (d : Document L) (id : NodeId) : Option NodeId := (d.forest.parentOf? (isNode id)).map (·.id)

/-- whether `inner` is `outer` or below it -/
def contains (d : Document L) (outer inner : NodeId) : Bool :=
  outer == inner || (d.childForest outer).labels.any (isNode inner)

def attributes (d : Document L) (id : NodeId) : Attributes := ((d.kind? id).map Kind.attributes).getD []

def tag? (d : Document L) (id : NodeId) : Option String := (d.kind? id).bind Kind.tag?

def isFragment (d : Document L) (id : NodeId) : Bool := (d.kind? id).any Kind.isFragment

/-- the first node below `root`, in document order, that passes a test -/
def firstBelow? (d : Document L) (root : NodeId) (test : Node L → Bool) : Option NodeId :=
  ((d.childForest root).labels.find? test).map (·.id)

/-- the first element below `root` with this tag, in any letter case -/
def findElement? (d : Document L) (root : NodeId) (tag : String) : Option NodeId :=
  d.firstBelow? root fun n => n.kind.tag?.any (sameLetters · tag)

/-- the first element below `root` that has an attribute of this name -/
def findAttribute? (d : Document L) (root : NodeId) (name : String) : Option NodeId :=
  d.firstBelow? root fun n => (n.kind.attributes.get? name).isSome

/-! ## Making -/

/-- a new root without children -/
def add (d : Document L) (kind : Kind) : Document L × NodeId :=
  (⟨d.forest ++ .tree ⟨d.fresh, kind, [], 0⟩ .nil, d.fresh + 1⟩, d.fresh)

/-- a markup forest as nodes with ids from `id` on, and the first id left over -/
def plant : List Markup.Node → NodeId → Forest (Node L) × NodeId
  | [], id => (.nil, id)
  | n :: ns, id =>
    let first := plantNode n id
    let others := plant ns first.2
    (first.1 ++ others.1, others.2)
where
  /-- a markup node as a tree -/
  plantNode : Markup.Node → NodeId → Forest (Node L) × NodeId
    | .element tag attributes children, id =>
      let below := plant children (id + 1)
      (.tree ⟨id, .element tag attributes, [], 0⟩ below.1, below.2)
    | .text data, id => (.tree ⟨id, .text data, [], 0⟩ .nil, id + 1)
    | .comment data, id => (.tree ⟨id, .comment data, [], 0⟩ .nil, id + 1)

/-- a new fragment that holds a copy of a markup forest -/
def addFragment (d : Document L) (nodes : List Markup.Node) : Document L × NodeId :=
  let below := plant nodes (d.fresh + 1)
  (⟨d.forest ++ .tree ⟨d.fresh, .fragment, [], 0⟩ below.1, below.2⟩, d.fresh)

end Document

end LiveMarkup
