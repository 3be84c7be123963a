/-
The world that components live in: a document, the channels of the components, and what a host adds.

A `Host` gives three types: what its listeners run, what its actions and blocks may change besides the document, and its
own kinds of slot content. A `Backend` is how the document is searched and how attributes are renamed; components go
through it for both. Everything a component does is a function on worlds.
-/
import LiveMarkup.Document.Edit
import LiveMarkup.Document.Print
import LiveMarkup.Event.Basic
import LiveMarkup.Event.Channel

namespace LiveMarkup

structure Host where
  /-- what a listener of the host runs -/
  Handler : Type
  /-- what actions and blocks of the host may change besides the document -/
  Outside : Type
  /-- the host's own slot content -/
  Foreign : Type

/-- what a listener on a node does: run a handler of the host, or tell the subscribers of a channel -/
inductive Listener (A : Type) where
  | handler (run : A)
  | channel (id : Nat) (topic : String)
deriving DecidableEq, Repr

/-- how components search the document and rename attributes -/
structure Backend where
  /-- whether a search below this node for this name can succeed -/
  finds : NodeId → String → Bool
  /-- whether a renamed attribute keeps its place -/
  renamesInPlace : Bool

/-- the backend that finds everything and renames in place -/
def Backend.faithful : Backend := ⟨fun _ _ => true, true⟩

/-- the document, the channels by number, the backend and the host's own state -/
structure World (H : Host) where
  document : Document (Listener H.Handler)
  channels : List (Channel H.Handler)
  backend : Backend
  outside : H.Outside
  /-- nodes that an event is at, held while it is -/
  passing : List NodeId

namespace World

variable {H : Host}

def edit (w : World H) (f : Document (Listener H.Handler) → Document (Listener H.Handler)) : World H :=
  { w with document := f w.document }

/-! ## Nodes -/

def addText (w : World H) (data : String) : World H × NodeId :=
  let (document, id) := w.document.add (.text data)
  ({ w with document }, id)

/-- a new fragment that holds a copy of a markup forest -/
def addFragment (w : World H) (nodes : List Markup.Node) : World H × NodeId :=
  let (document, id) := w.document.addFragment nodes
  ({ w with document }, id)

/-- the first element below `root` with this tag, as far as the backend finds it -/
def findElement? (w : World H) (root : NodeId) (tag : String) : Option NodeId :=
  if w.backend.finds root tag then w.document.findElement? root tag else none

/-- the first element below `root` with this attribute, as far as the backend finds it -/
def findAttribute? (w : World H) (root : NodeId) (name : String) : Option NodeId :=
  if w.backend.finds root name then w.document.findAttribute? root name else none

/-- replaces the attribute `source` by `target`=`value` the way the backend does -/
def renameAttribute (w : World H) (id : NodeId) (source target value : String) : World H :=
  w.edit fun d =>
    if w.backend.renamesInPlace then d.renameAttribute id source target value
    else (d.removeAttribute id source).setAttribute id target value

/-- attaches a listener and gives its ticket -/
def listen (w : World H) (id : NodeId) (event : String) (listener : Listener H.Handler) : World H × Nat :=
  let (document, ticket) := w.document.listen id event listener
  ({ w with document }, ticket)

/-- detaches a node that nobody but `held` holds: what is below it falls apart down to held nodes -/
def discard (w : World H) (held : List NodeId) (id : NodeId) : World H :=
  w.edit fun d => (d.detach id).release held.contains id

/-! ## Channels -/

/-- a channel for a new component -/
def openChannel (w : World H) : World H × Nat :=
  ({ w with channels := w.channels ++ [.new] }, w.channels.length)

def channel? (w : World H) (id : Nat) : Option (Channel H.Handler) := w.channels[id]?

/-- changes a channel -/
def updateChannel (w : World H) (id : Nat) (f : Channel H.Handler → Channel H.Handler) : World H :=
  { w with channels := w.channels.modify id f }

end World

end LiveMarkup
