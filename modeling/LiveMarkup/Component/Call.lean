/-
Lifecycle calls as data.

`Component.call` and `Block.call` make one call; `Component.run` makes one after another, whatever each results in.
`Component.callIn` makes a call in which nested blocks take what is forwarded to them in given orders, and `Component.call`
in that in which it was forwarded. Calls refer to nodes by `N`, which is the id of a node where a call is made.
-/
import LiveMarkup.Component.Mount
import LiveMarkup.Component.Update

namespace LiveMarkup

variable {H : Host}

inductive Call (N : Type) where
  | create
  | mount (target : N) (anchor : Option N)
  | update (changed : Props)
  | set (incoming : Props)
  | tick (incoming : Props) (context : Option Props)
  | transition (t : Transition) (isLocal : Bool)
  | destroy (detaching : Bool)

/-- a call with its nodes replaced, if each has a replacement -/
def Call.mapNodes? {M N : Type} (f : M → Option N) : Call M → Option (Call N)
  | .create => some .create
  | .mount target anchor => do
    let target ← f target
    match anchor with
    | some anchor => return .mount target (some (← f anchor))
    | none => return .mount target none
  | .update changed => some (.update changed)
  | .set incoming => some (.set incoming)
  | .tick incoming context => some (.tick incoming context)
  | .transition t isLocal => some (.transition t isLocal)
  | .destroy detaching => some (.destroy detaching)

variable [ForeignBlocks H]

/-- makes a call on a component in which nested blocks take what is forwarded to them in these orders -/
def Component.callIn (orders : Orders) (c : Component H) (w : World H) : Call NodeId → Outcome H (Component H)
  | .create => c.create w
  | .mount target anchor => c.mount target anchor w
  | .update changed => c.updateIn orders changed w
  | .set incoming => c.tickIn orders incoming none w
  | .tick incoming context => c.tickIn orders incoming context w
  | .transition t isLocal =>
    let (c, w) := c.transition t isLocal w
    .ok c w
  | .destroy detaching => c.destroy detaching w

def Component.call (c : Component H) (w : World H) (call : Call NodeId) : Outcome H (Component H) :=
  c.callIn .kept w call

theorem Component.call_update (c : Component H) (w : World H) (changed : Props) :
    c.call w (.update changed) = c.update changed w := rfl

theorem Component.call_set (c : Component H) (w : World H) (incoming : Props) :
    c.call w (.set incoming) = c.set incoming w := rfl

theorem Component.call_tick (c : Component H) (w : World H) (incoming : Props) (context : Option Props) :
    c.call w (.tick incoming context) = c.tick incoming context w := rfl

def Component.run (c : Component H) (w : World H) (calls : List (Call NodeId)) : Component H × World H :=
  calls.foldl (fun (c, w) call => ((c.call w call).self, (c.call w call).world)) (c, w)

inductive BlockCall (N : Type) where
  | create
  | mount (target : N) (anchor : Option N)
  | update (changed : Props)
  | transition (t : Transition) (isLocal : Bool)
  | destroy (detaching : Bool)

def BlockCall.mapNodes? {M N : Type} (f : M → Option N) : BlockCall M → Option (BlockCall N)
  | .create => some .create
  | .mount target anchor => do
    let target ← f target
    match anchor with
    | some anchor => return .mount target (some (← f anchor))
    | none => return .mount target none
  | .update changed => some (.update changed)
  | .transition t isLocal => some (.transition t isLocal)
  | .destroy detaching => some (.destroy detaching)

def Block.call (b : Block H) (w : World H) : BlockCall NodeId → Outcome H (Block H)
  | .create => b.create w
  | .mount target anchor => b.mount target anchor w
  | .update changed => b.update changed w
  | .transition t isLocal =>
    let (b, w) := b.transition t isLocal w
    .ok b w
  | .destroy detaching => b.destroy detaching w

def Block.data? : Block H → Option String
  | .text t => some t.data
  | _ => none

end LiveMarkup
