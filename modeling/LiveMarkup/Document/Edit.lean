/-
Changing a document: moving nodes, attributes, data, listeners.

Moving a node takes its tree out of the forest and puts it in elsewhere. A fragment is never put in: its children are,
one after another, and it stays behind empty. A node is never put below itself; that insertion is refused and leaves the
document as it is. An anchor that is not a child of the new parent counts as absent.
-/
import LiveMarkup.Document.Basic

namespace LiveMarkup.Document

variable {L : Type}

/-! ## Moving -/

/-- makes a node a root; nothing changes if it is one -/
def detach (d : Document L) (id : NodeId) : Document L :=
  match d.parent? id, d.find? id with
  | some _, some (n, cs) => { d with forest := d.forest.prune (isNode id) ++ .tree n cs }
  | _, _ => d

/-- puts a node that is no fragment among the children of `parent`, before `anchor` or at the end -/
def place (d : Document L) (parent child : NodeId) (anchor : Option NodeId) : Document L :=
  match d.find? parent, d.find? child with
  | some _, some (n, cs) =>
    let isAnchor := fun m => anchor.any (isNode · m)
    { d with forest := (d.forest.prune (isNode child)).graft (isNode parent) (.insertBefore isAnchor (.tree n cs)) }
  | _, _ => d

/-- puts a node, or the children of a fragment, among the children of `parent`, before `anchor` or at the end -/
def insertBefore (d : Document L) (parent child : NodeId) (anchor : Option NodeId) : Document L :=
  if d.contains child parent then d
  else if d.isFragment child then (d.children child).foldl (fun d c => d.place parent c anchor) d
  else d.place parent child anchor

/-- puts `new` where `old` is and detaches `old`; nothing changes if `old` has no parent -/
def replaceWith (d : Document L) (old new : NodeId) : Document L :=
  match d.parent? old with
  | some parent => (d.insertBefore parent new (some old)).detach old
  | none => d

/-- dissolves every tree whose root is not held, down to the nodes that are -/
def retain (d : Document L) (held : NodeId → Bool) : Document L :=
  { d with forest := d.forest.retain fun n => held n.id }

/-- dissolves the tree of one root, down to the nodes that are held -/
def release (d : Document L) (held : NodeId → Bool) (root : NodeId) : Document L :=
  let isRoot := fun id => d.forest.roots.any (isNode id)
  d.retain fun id => held id || (isRoot id && id != root)

/-! ## Contents -/

def update (d : Document L) (id : NodeId) (f : Node L → Node L) : Document L :=
  { d with forest := d.forest.update (isNode id) f }

def updateKind (d : Document L) (id : NodeId) (f : Kind → Kind) : Document L :=
  d.update id fun n => { n with kind := f n.kind }

def updateAttributes (d : Document L) (id : NodeId) (f : Attributes → Attributes) : Document L :=
  d.updateKind id fun
    | .element tag attributes => .element tag (f attributes)
    | kind => kind

/-- gives an element's attribute a value; a new attribute comes last -/
def setAttribute (d : Document L) (id : NodeId) (name value : String) : Document L :=
  d.updateAttributes id (Entries.set name value)

/-- takes an attribute off an element -/
def removeAttribute (d : Document L) (id : NodeId) (name : String) : Document L :=
  d.updateAttributes id (Entries.erase name)

/-- replaces the attribute `source` by `target`=`value` in its place -/
def renameAttribute (d : Document L) (id : NodeId) (source target value : String) : Document L :=
  d.updateAttributes id (Entries.rename source target value)

def setData (d : Document L) (id : NodeId) (data : String) : Document L :=
  d.updateKind id fun
    | .text _ => .text data
    | .comment _ => .comment data
    | kind => kind

/-! ## Listeners -/

/-- attaches a listener and gives the ticket it is known by on this node -/
def listen (d : Document L) (id : NodeId) (event : String) (listener : L) : Document L × Nat :=
  let ticket := ((d.find? id).map (·.1.nextTicket)).getD 0
  (d.update id fun n =>
    { n with listeners := n.listeners ++ [⟨n.nextTicket, event, listener⟩], nextTicket := n.nextTicket + 1 }, ticket)

def unlisten (d : Document L) (id : NodeId) (ticket : Nat) : Document L :=
  d.update id fun n => { n with listeners := n.listeners.filter (·.ticket != ticket) }

/-- the listeners of a node that wait for this event, in the order in which they were attached -/
def listenersFor (d : Document L) (id : NodeId) (event : String) : List L :=
  match d.find? id with
  | some (n, _) => (n.listeners.filter (·.event == event)).map (·.listener)
  | none => []

def listenerCount (d : Document L) (id : NodeId) : Nat := ((d.find? id).map (·.1.listeners.length)).getD 0

def listenerCountBelow (d : Document L) (id : NodeId) : Nat :=
  d.listenerCount id + ((d.childForest id).labels.flatMap (·.listeners)).length

end LiveMarkup.Document
