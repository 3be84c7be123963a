/-
What scripts bring along that acts by itself: actions that write to the log, and recorders.
-/
import LiveMarkup.Script.Basic

namespace LiveMarkup.Script

/-! ## Actions -/

namespace ActionSpec

/-- shows a value in the attribute of the action, if it has one -/
def display (a : ActionSpec) (element : NodeId) (value : Option Value) (w : ScriptWorld) : ScriptWorld :=
  match a.shows, value with
  | some name, some v => w.edit (·.setAttribute element name v.toText)
  | _, _ => w

def onUpdate (a : ActionSpec) (param : String) (element : NodeId) (value : Value) (w : ScriptWorld) : ScriptWorld :=
  a.display element (some value) (log w (.updated a.label param value))

def onDestroy (a : ActionSpec) (element : NodeId) (w : ScriptWorld) : ScriptWorld :=
  let w := log w (.destroyed a.label (w.document.html element))
  match a.shows with
  | some name => w.edit (·.removeAttribute element name)
  | none => w

def action (a : ActionSpec) (param : Option String) : Action host := fun element value w =>
  let w := a.display element value (log w (.ran a.label (w.document.html element) value))
  (w, { update := if a.hooks.update then some (a.onUpdate (param.getD "") element) else none
        destroy := if a.hooks.destroy then some (a.onDestroy element) else none })

end ActionSpec

/-! ## Recorders -/

namespace Recorder

/-- the fault of a call that is to fail -/
def fault (r : Recorder) (call : RecordedCall) : LifecycleFault := .missingMarker (r.label ++ "-" ++ call.word)

/-- records a call and, unless it is to fail, goes on -/
def record (r : Recorder) (w : ScriptWorld) (call : RecordedCall) (detail : Detail)
    (go : ScriptWorld → Recorder × ScriptWorld) : Outcome host Recorder :=
  let w := log w (.recorded r.label call detail)
  if r.fails.contains call then .fail (r.fault call) r w
  else
    let (r, w) := go w
    .ok r w

/-- makes a new element in place of the one it holds -/
def create (r : Recorder) (w : ScriptWorld) : Outcome host Recorder :=
  r.record w .create .nothing fun w =>
    let (document, id) := w.document.add (.element "i" [("id", r.label)])
    ({ r with element := some id }, { w with document })

def mount (target : NodeId) (anchor : Option NodeId) (r : Recorder) (w : ScriptWorld) : Outcome host Recorder :=
  r.record w .mount (.place (w.document.inspect target) (anchor.map w.document.inspect)) fun w =>
    (r, match r.element with
      | some id => w.edit (·.insertBefore target id anchor)
      | none => w)

/-- only records -/
def update (changed : Props) (r : Recorder) (w : ScriptWorld) : Outcome host Recorder :=
  r.record w .update (.props changed) (r, ·)

def transition (t : Transition) (isLocal : Bool) (r : Recorder) (w : ScriptWorld) : Recorder × ScriptWorld :=
  (r, log w (.recorded r.label (.transition t) (.flag isLocal)))

/-- lets go of the element it holds, and detaches it if `detaching`, before it records -/
def destroy (detaching : Bool) (r : Recorder) (w : ScriptWorld) : Outcome host Recorder :=
  let w := match r.element with
    | some id => if detaching then w.edit (·.detach id) else w
    | none => w
  let r := { r with element := none }
  r.record w .destroy (.flag detaching) (r, ·)

end Recorder

instance : ForeignBlocks host where
  create := Recorder.create
  mount := Recorder.mount
  update := Recorder.update
  transition := Recorder.transition
  destroy := Recorder.destroy
  handles r := r.element.toList

end LiveMarkup.Script
