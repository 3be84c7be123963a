/-
Channels: the subscribers of one component, by topic.

A subscription is known by a ticket that is never given out twice, so ending it ends that one and no other. A new
handler of a topic comes after all earlier ones. A channel belongs to a component and is open as long as that exists;
while an event is passed to its subscribers it stays open even if the component goes.
-/
namespace LiveMarkup

/-- a handler that waits for a topic, with its ticket -/
structure Subscription (A : Type) where
  ticket : Nat
  topic : String
  handler : A
deriving DecidableEq, Repr

/-- the subscriptions of one component, in order, and the next ticket -/
structure Channel (A : Type) where
  subscriptions : List (Subscription A)
  nextTicket : Nat
  /-- whether the component still exists -/
  owned : Bool
  /-- how many events are being passed to subscribers -/
  running : Nat
deriving DecidableEq, Repr

namespace Channel

variable {A : Type}

def new : Channel A := ⟨[], 0, true, 0⟩

/-- whether events still reach the subscribers -/
def isOpen (c : Channel A) : Bool := c.owned || 0 < c.running

/-- adds a handler after all others and gives its ticket -/
def subscribe (c : Channel A) (topic : String) (handler : A) : Channel A × Nat :=
  ({ c with subscriptions := c.subscriptions ++ [⟨c.nextTicket, topic, handler⟩], nextTicket := c.nextTicket + 1 },
    c.nextTicket)

def unsubscribe (c : Channel A) (ticket : Nat) : Channel A :=
  { c with subscriptions := c.subscriptions.filter (·.ticket != ticket) }

/-- the handlers of a topic in order of subscription -/
def handlersOf (c : Channel A) (topic : String) : List A :=
  (c.subscriptions.filter (·.topic == topic)).map (·.handler)

def count (c : Channel A) (topic : String) : Nat := (c.handlersOf topic).length

/-- calls the handlers that a topic has at this moment, in order of subscription, and counts them; what they subscribe and
unsubscribe takes effect with the next event -/
def fire {S : Type} (c : Channel A) (topic : String) (run : A → S → S) (s : S) : S × Nat :=
  let handlers := c.handlersOf topic
  (handlers.foldl (fun s handler => run handler s) s, handlers.length)

/-- the component is gone -/
def close (c : Channel A) : Channel A := { c with owned := false }

/-- an event begins to be passed on -/
def enter (c : Channel A) : Channel A := { c with running := c.running + 1 }

/-- an event has been passed on -/
def leave (c : Channel A) : Channel A := { c with running := c.running - 1 }

end Channel

end LiveMarkup
