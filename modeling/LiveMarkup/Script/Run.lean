/-
Running a script.

`exec` makes one step and gives its reply. Only a dispatch re-enters: the reactions that it calls make their steps at
once, each followed by a line in the log. `run` makes all steps of a script and gives a `Line` for each: the reply, what
was written to the log since the step before, and the markup of the watched nodes.

The entries of one change set have no order of their own. So in each line, neighbouring log entries of update hooks are
put in the order of their parameters (`settle`).
-/
import LiveMarkup.Template.Names
import LiveMarkup.Component.Inspect
import LiveMarkup.Script.Stage

namespace LiveMarkup.Script

/-! ## Looking -/

def describe (d : Document (Listener Reaction)) (id : NodeId) : Description where
  inspect := d.inspect id
  fragment := d.isFragment id
  tag := d.tag? id
  attributes := d.attributes id
  data := (d.kind? id).bind Kind.data?
  text := d.textContent id
  html := d.html id
  inner := d.innerHtml id
  children := (d.children id).map d.inspect
  parent := (d.parent? id).map d.inspect
  listeners := d.listenerCount id
  listenersBelow := d.listenerCountBelow id

def report (w : ScriptWorld) (c : Component host) : Report where
  state := c.state
  props := c.props
  roots := c.roots.map w.document.html
  declared := c.core.template.props
  render := c.core.template.render c.props SlotMarkup.none

def Reply.ofResult : Except LifecycleFault Unit → Reply
  | .ok _ => .nothing
  | .error reason => .fault reason

/-! ## Steps -/

namespace Stage

/-- makes a step on a node; nothing happens if there is no such node -/
def withNode (s : Stage) (path : NodePath) (f : NodeId → Stage × Reply) : Stage × Reply :=
  match s.node? path with
  | some id => f id
  | none => (s, .nothing)

def withComponent (s : Stage) (name : String) (f : Component host → Stage × Reply) : Stage × Reply :=
  match s.components.get? name with
  | some c => f c
  | none => (s, .nothing)

def editNode (s : Stage) (path : NodePath)
    (f : NodeId → Document (Listener Reaction) → Document (Listener Reaction)) : Stage × Reply :=
  s.withNode path fun id => (s.edit (f id), .nothing)

/-- keeps a new node under a name -/
def keepNew (s : Stage) (name : String) (made : Document (Listener Reaction) × NodeId) : Stage × Reply :=
  ({ s with world := { s.world with document := made.1 }, nodes := s.nodes.set name made.2 }, .nothing)

/-- makes a step that dispatches nothing -/
def quietStep (s : Stage) : Step → Stage × Reply
  | .add kind name => s.keepNew name (s.world.document.add kind)
  | .addMarkup html name => s.keepNew name (s.world.document.addFragment (Markup.read html))
  | .keep path name => s.withNode path fun id => ({ s with nodes := s.nodes.set name id }, .nothing)
  | .forget name => ({ s with nodes := s.nodes.erase name }, .nothing)
  | .describe path => s.withNode path fun id => (s, .description (Script.describe s.world.document id))
  | .getAttribute path name => s.withNode path fun id => (s, .text ((s.world.document.attributes id).get? name))
  | .setAttribute path name value => s.editNode path fun id d => d.setAttribute id name value
  | .removeAttribute path name => s.editNode path fun id d => d.removeAttribute id name
  | .renameAttribute path source target value =>
    s.withNode path fun id =>
      let w := s.world.renameAttribute id source target value
      ({ s with world := w }, .text (some (w.document.html id)))
  | .setData path data => s.editNode path fun id d => d.setData id data
  | .insert parent path anchor =>
    s.withNode path fun id => s.editNode parent fun parent d => d.insertBefore parent id (s.optionalNode? anchor)
  | .detach path => s.editNode path fun id d => d.detach id
  | .replace old new => s.withNode new fun new => s.editNode old fun old d => d.replaceWith old new
  | .findElement path tag =>
    s.withNode path fun id => (s, .text ((s.world.document.findElement? id tag).map s.world.document.html))
  | .findAttribute path name =>
    s.withNode path fun id => (s, .text ((s.world.document.findAttribute? id name).map s.world.document.html))
  | .contains outer inner =>
    s.withNode outer fun outer => s.withNode inner fun inner => (s, .flag (s.world.document.contains outer inner))
  | .same one other => s.withNode one fun one => s.withNode other fun other => (s, .flag (one == other))
  | .listen path event reaction =>
    s.withNode path fun id =>
      let (w, ticket) := s.world.listen id event (.handler reaction)
      match reaction with
      | .mk name _ => ({ s with world := w, listenings := s.listenings.set name (id, ticket) }, .nothing)
  | .unlisten name =>
    match s.listenings.get? name with
    | some (id, ticket) =>
      ({ s.edit (·.unlisten id ticket) with listenings := s.listenings.erase name }, .nothing)
    | none => (s, .nothing)
  | .dispatch _ _ => (s, .nothing)
  | .lose heads =>
    let finds := fun (_ : NodeId) (name : String) => !heads.any fun head => head.toList.isPrefixOf name.toList
    ({ s with world := { s.world with backend := { s.world.backend with finds } } }, .nothing)
  | .start name spec =>
    match s.buildComponent spec with
    | (s, .ok c) => (s.keepComponent name c, .state c.state)
    | (s, .error fault) => (s, .fault fault)
  | .call name call =>
    s.withComponent name fun c =>
      match call.mapNodes? s.node? with
      | some call =>
        let o := c.call s.world call
        ({ s with world := o.world, components := s.components.set name o.self }, .ofResult o.result)
      | none => (s, .nothing)
  | .drop name =>
    s.withComponent name fun c =>
      ({ s with components := s.components.erase name, world := c.drop s.world }, .nothing)
  | .report name => s.withComponent name fun c => (s, .report (Script.report s.world c))
  | .inspect name => s.withComponent name fun c => (s, .text (some (c.inspect s.world)))
  | .subscribe name topic reaction =>
    s.withComponent name fun c =>
      let (w, ticket) := c.subscribe topic reaction s.world
      match reaction with
      | .mk name _ =>
        ({ s with world := w, subscriptions := s.subscriptions.set name (c.core.channel, ticket) }, .nothing)
  | .unsubscribe name =>
    match s.subscriptions.get? name with
    | some (channel, ticket) =>
      ({ s with
        world := s.world.updateChannel channel (·.unsubscribe ticket), subscriptions := s.subscriptions.erase name },
        .nothing)
    | none => (s, .nothing)
  | .subscribers name topic => s.withComponent name fun c => (s, .count (c.subscribers topic s.world))
  | .build name spec =>
    match s.buildBlock spec with
    | (s, .ok b) => (s.keepBlock name b, .nothing)
    | (s, .error fault) => (s, .fault fault)
  | .callBlock name call =>
    match s.blocks.get? name, call.mapNodes? s.node? with
    | some b, some call =>
      let o := b.call s.world call
      ({ s with world := o.world, blocks := s.blocks.set name o.self }, .ofResult o.result)
    | _, _ => (s, .nothing)
  | .blockData name => (s, .text ((s.blocks.get? name).bind Block.data?))

/-- makes one step; with no fuel left, a dispatch reaches nobody -/
def exec : (fuel : Nat) → Step → Stage → Stage × Reply
  | fuel + 1, .dispatch path event, s =>
    s.withNode path fun id =>
      let react : Reaction → Event → Stage → Stage
        | .mk name steps, event, s =>
          let s := { s with world := log s.world (.heard name event) }
          steps.foldl (fun s step =>
            let (s, reply) := exec fuel step s
            let s := s.tidy
            { s with world := log s.world (.replied name reply) }) s
      let (s, count) := view.dispatch react fuel id event s
      (s, .count count)
  | _, step, s => s.quietStep step

end Stage

/-! ## Whole scripts -/

/-- the parameter of an update hook's log entry -/
def Entry.param? : Entry → Option String
  | .updated _ param _ => some param
  | _ => none

/-- puts an entry before the first of the leading update entries that has a greater parameter -/
def Entry.insert (param : String) (e : Entry) : List Entry → List Entry
  | [] => [e]
  | f :: es =>
    match f.param? with
    | some p => if p < param then f :: insert param e es else e :: f :: es
    | none => e :: f :: es

/-- puts neighbouring entries of update hooks in the order of their parameters; equal ones keep their order -/
def settle : List Entry → List Entry
  | [] => []
  | e :: es =>
    match e.param? with
    | some param => e.insert param (settle es)
    | none => e :: settle es

structure Line where
  reply : Reply
  log : List Entry
  watched : List (Option String)

/-- the depth to which dispatches may nest, and the steps that each may make -/
def fuel : Nat := 100000

def Stage.advance (s : Stage) (watch : List String) (step : Step) : Stage × Line :=
  let (s, reply) := s.exec fuel step
  let s := s.tidy
  ({ s with world := { s.world with outside := [] } },
    { reply
      log := settle s.world.outside
      watched := watch.map fun name => (s.nodes.get? name).map s.world.document.html })

def Stage.run (watch : List String) : List Step → Stage → List Line
  | [], _ => []
  | step :: steps, s =>
    let (s, line) := s.advance watch step
    line :: s.run watch steps

end LiveMarkup.Script
