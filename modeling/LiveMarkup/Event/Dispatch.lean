/-
Dispatching an event: from a node up through its ancestors, all listeners for it run.

At each node the listeners that are attached when the event arrives run in order, whatever they change; the way up
follows the tree as it is when they are done. A listener of a component passes the event to those who are subscribed to
its topic at that moment. Handlers may change the whole state `S` that the world is a part of, so dispatching is a
function on `S`; since they might also move nodes for ever, an event makes at most `hops` steps.
-/
import LiveMarkup.World

namespace LiveMarkup

structure WorldView (H : Host) (S : Type) where
  world : S → World H
  modify : (World H → World H) → S → S

namespace WorldView

variable {H : Host} {S : Type}

/-- passes an event to the subscribers that a topic has at this moment -/
def publish (view : WorldView H S) (run : H.Handler → Event → S → S) (id : Nat) (topic : String) (event : Event)
    (s : S) : S :=
  match (view.world s).channel? id with
  | some channel =>
    if channel.isOpen then
      let s := view.modify (·.updateChannel id .enter) s
      let s := (channel.fire topic (fun handler s => run handler event s) s).1
      view.modify (·.updateChannel id .leave) s
    else s
  | none => s

/-- runs one listener -/
def notify (view : WorldView H S) (run : H.Handler → Event → S → S) (event : Event) (s : S) :
    Listener H.Handler → S
  | .handler handler => run handler event s
  | .channel id topic => view.publish run id topic event s

/-- holds a node while something runs -/
def holding (view : WorldView H S) (id : NodeId) (f : S → S) (s : S) : S :=
  view.modify (fun w => { w with passing := w.passing.erase id })
    (f (view.modify (fun w => { w with passing := id :: w.passing }) s))

/-- takes an event from a node upwards and counts the listeners that run -/
def bubble (view : WorldView H S) (run : H.Handler → Event → S → S) (event : Event) :
    (hops : Nat) → NodeId → S → S × Nat
  | 0, _, s => (s, 0)
  | hops + 1, id, s =>
    let listeners := (view.world s).document.listenersFor id event.name
    let s := view.holding id (fun s => listeners.foldl (view.notify run event) s) s
    match (view.world s).document.parent? id with
    | some parent =>
      let (s, above) := bubble view run event hops parent s
      (s, listeners.length + above)
    | none => (s, listeners.length)

/-- dispatches an event at a node and counts the listeners that run -/
def dispatch (view : WorldView H S) (run : H.Handler → Event → S → S) (hops : Nat) (target : NodeId) (event : Event)
    (s : S) : S × Nat :=
  let s := view.modify (fun w => { w with passing := target :: w.passing }) s
  let (s, count) := view.bubble run event hops target s
  (view.modify (fun w => { w with passing := w.passing.erase target }) s, count)

end WorldView

end LiveMarkup
