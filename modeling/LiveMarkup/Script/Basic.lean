/-
Scripts: a document and its components driven step by step, and what can be seen of it.

A script names nodes, components and blocks and makes one `Step` after another. Each step gives a `Reply`; actions,
listeners and recorders write `Entry`s to a log. Everything here is data; `Script/Run` says what it does.
-/
import LiveMarkup.Component.Call

namespace LiveMarkup.Script

/-- a node, by the name it is kept under and child positions from there on -/
structure NodePath where
  name : String
  positions : List Nat
deriving DecidableEq, Repr

/-! ## What a host of scripts brings along -/

structure Hooks where
  update : Bool
  destroy : Bool
deriving DecidableEq, Repr

/-- an action that writes to the log and may show its parameter in an attribute -/
structure ActionSpec where
  label : String
  hooks : Hooks
  shows : Option String
deriving DecidableEq, Repr

inductive RecordedCall where
  | create
  | mount
  | update
  | transition (t : Transition)
  | destroy
deriving DecidableEq, Repr

def RecordedCall.word : RecordedCall → String
  | create => "create"
  | mount => "mount"
  | update => "update"
  | transition .intro => "intro"
  | transition .outro => "outro"
  | destroy => "destroy"

/-- slot content that records its calls, some of which fail -/
structure Recorder where
  label : String
  fails : List RecordedCall
  element : Option NodeId
deriving DecidableEq, Repr

/-! ## Blocks and components to build -/

mutual
inductive BlockSpec where
  | fixed (data : String)
  | bound (prop initial : String)
  | recorder (label : String) (fails : List RecordedCall)
  /-- the block of this name, which is then no longer kept -/
  | taken (name : String)
  | component (spec : ComponentSpec)
/-- a component to start; slot contents are built in the order in which they stand -/
inductive ComponentSpec where
  | mk (template : String) (props : Props) (target anchor : Option NodePath) (hydrate : Bool)
      (slots : List (String × BlockSpec)) (slotContext : Props)
end

/-! ## Steps -/

mutual
inductive Step where
  | add (kind : Kind) (name : String)
  | addMarkup (html name : String)
  | keep (node : NodePath) (name : String)
  | forget (name : String)
  | describe (node : NodePath)
  | getAttribute (node : NodePath) (name : String)
  | setAttribute (node : NodePath) (name value : String)
  | removeAttribute (node : NodePath) (name : String)
  | renameAttribute (node : NodePath) (source target value : String)
  | setData (node : NodePath) (data : String)
  | insert (parent node : NodePath) (anchor : Option NodePath)
  | detach (node : NodePath)
  | replace (old new : NodePath)
  | findElement (node : NodePath) (tag : String)
  | findAttribute (node : NodePath) (name : String)
  | contains (outer inner : NodePath)
  | same (one other : NodePath)
  | listen (node : NodePath) (event : String) (reaction : Reaction)
  | unlisten (name : String)
  | dispatch (node : NodePath) (event : Event)
  /-- from now on components find no name that begins like one of these -/
  | lose (heads : List String)
  | start (name : String) (spec : ComponentSpec)
  | call (name : String) (call : Call NodePath)
  | drop (name : String)
  | report (name : String)
  | inspect (name : String)
  | subscribe (name topic : String) (reaction : Reaction)
  | unsubscribe (name : String)
  | subscribers (name topic : String)
  | build (name : String) (spec : BlockSpec)
  | callBlock (name : String) (call : BlockCall NodePath)
  | blockData (name : String)
/-- what a listener of a script does: it writes to the log under its name and makes steps -/
inductive Reaction where
  | mk (name : String) (steps : List Step)
end

/-! ## Replies -/

/-- everything about a node that can be seen -/
structure Description where
  inspect : String
  fragment : Bool
  tag : Option String
  attributes : Attributes
  data : Option String
  text : String
  html : String
  inner : String
  children : List String
  parent : Option String
  listeners : Nat
  listenersBelow : Nat
deriving DecidableEq, Repr

structure Report where
  state : State
  props : Props
  roots : List String
  declared : List String
  render : String
deriving DecidableEq

inductive Reply where
  | nothing
  | flag (b : Bool)
  | count (n : Nat)
  | text (s : Option String)
  | state (s : State)
  | description (d : Description)
  | report (r : Report)
  | fault (f : LifecycleFault)
deriving DecidableEq

/-! ## The log -/

inductive Detail where
  | nothing
  | place (target : String) (anchor : Option String)
  | props (p : Props)
  | flag (b : Bool)
deriving DecidableEq

inductive Entry where
  | ran (label html : String) (value : Option Value)
  | updated (label param : String) (value : Value)
  | destroyed (label html : String)
  | heard (name : String) (event : Event)
  | replied (name : String) (reply : Reply)
  | recorded (label : String) (call : RecordedCall) (detail : Detail)
deriving DecidableEq

/-- the host of scripts: its listeners are reactions, what actions and blocks may change is the log, and its own slot
content are recorders -/
abbrev host : Host := ⟨Reaction, List Entry, Recorder⟩

abbrev ScriptWorld := World host

def log (w : ScriptWorld) (e : Entry) : ScriptWorld := { w with outside := w.outside ++ [e] }

end LiveMarkup.Script
