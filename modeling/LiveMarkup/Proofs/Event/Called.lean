/-
Which handlers a dispatch calls.

An event climbs from the node that it is dispatched at to the top of its tree. On each node of this path the listeners for
it run in the order in which they were attached, and a listener of a component calls those who are subscribed to its topic,
in the order of subscription. A dispatch can be watched: what it calls is written down, and nothing else is different. If
the handlers that it is to call leave documents and channels alone, then it calls these and no others.

- `Document.exists_climbs`: every path up ends;
- `WorldView.traced_dispatch`: a dispatch that is watched is the same dispatch;
- `WorldView.dispatch_calls`: what is called, and what is counted.
-/
import LiveMarkup.Proofs.Event.Quiet
import LiveMarkup.Proofs.Document.Links

namespace LiveMarkup

/-! ## The way up -/

namespace Document

variable {L : Type} {d : Document L} {x : NodeId}

/-- the path leads from a node to its parent, and so on to a node that has none -/
inductive Climbs (d : Document L) : NodeId → List NodeId → Prop
  | top {x : NodeId} (h : d.parent? x = none) : Climbs d x [x]
  | up {x p : NodeId} {path : List NodeId} (h : d.parent? x = some p) (rest : Climbs d p path) : Climbs d x (x :: path)

theorem exists_climbs (hv : d.Valid) (x : NodeId) : ∃ path, d.Climbs x path ∧ path.length ≤ d.fresh + 1 := by
  have hall : ∃ path, d.Climbs x path ∧ path.length + d.weight x ≤ d.fresh + 1 := by
    refine climb hv (motive := fun x => ∃ path, d.Climbs x path ∧ path.length + d.weight x ≤ d.fresh + 1)
      (fun x ih => ?_) x
    cases hp : d.parent? x with
    | none =>
      refine ⟨[x], .top hp, ?_⟩
      have := weight_le hv x
      rw [List.length_singleton]
      omega
    | some p =>
      obtain ⟨path, hpath, hle⟩ := ih p hp
      refine ⟨x :: path, .up hp hpath, ?_⟩
      have := weight_lt hv hp
      rw [List.length_cons]
      omega
  obtain ⟨path, hpath, hle⟩ := hall
  exact ⟨path, hpath, Nat.le_trans (Nat.le_add_right _ _) hle⟩

end Document

variable {H : Host} {S : Type}

/-! ## What is to be called -/

/-- the handlers that a listener calls -/
def World.told (w : World H) : Listener H.Handler → List H.Handler
  | .handler handler => [handler]
  | .channel id topic =>
    match w.channel? id with
    | some channel => if channel.isOpen then channel.handlersOf topic else []
    | none => []

/-- the listeners for an event on the nodes of a path -/
def World.onPath (w : World H) (event : String) (path : List NodeId) : List (Listener H.Handler) :=
  path.flatMap fun x => w.document.listenersFor x event

/-! ## Watching -/

/-- handlers with what they are called with -/
abbrev Trace (H : Host) := List (H.Handler × Event)

namespace WorldView

variable {view : WorldView H S} {run : H.Handler → Event → S → S}

/-- a state with what has been called so far -/
def traced (view : WorldView H S) : WorldView H (S × Trace H) where
  world s := view.world s.1
  modify f s := (view.modify f s.1, s.2)

/-- writes down what is called -/
def tracing (run : H.Handler → Event → S → S) (handler : H.Handler) (event : Event) (s : S × Trace H) : S × Trace H :=
  (run handler event s.1, s.2 ++ [(handler, event)])

/-- the handlers that a dispatch calls, in order -/
def calls (view : WorldView H S) (run : H.Handler → Event → S → S) (hops : Nat) (target : NodeId) (event : Event)
    (s : S) : Trace H :=
  (view.traced.dispatch (tracing run) hops target event (s, [])).1.2

theorem foldl_fst {α : Type} {f : S → α → S} {g : S × Trace H → α → S × Trace H} (h : ∀ s a, (g s a).1 = f s.1 a)
    (l : List α) (s : S × Trace H) : (l.foldl g s).1 = l.foldl f s.1 := by
  induction l generalizing s with
  | nil => rfl
  | cons a l ih => rw [List.foldl_cons, List.foldl_cons, ih, h]

theorem traced_notify (event : Event) (s : S × Trace H) (listener : Listener H.Handler) :
    (view.traced.notify (tracing run) event s listener).1 = view.notify run event s.1 listener := by
  cases listener with
  | handler handler => rfl
  | channel id topic =>
    show (view.traced.publish (tracing run) id topic event s).1 = view.publish run id topic event s.1
    unfold publish
    show Prod.fst (match (view.world s.1).channel? id with | some channel => _ | none => _) = _
    cases (view.world s.1).channel? id with
    | none => rfl
    | some channel =>
      dsimp only
      split
      · refine congrArg (view.modify _) (foldl_fst (fun _ _ => rfl) _ _)
      · rfl

theorem traced_world (s : S × Trace H) : view.traced.world s = view.world s.1 := rfl

theorem traced_bubble (view : WorldView H S) (run : H.Handler → Event → S → S) (event : Event) (hops : Nat)
    (id : NodeId) (s : S × Trace H) :
    (view.traced.bubble (tracing run) event hops id s).1.1 = (view.bubble run event hops id s.1).1 ∧
      (view.traced.bubble (tracing run) event hops id s).2 = (view.bubble run event hops id s.1).2 := by
  induction hops generalizing id s with
  | zero => exact ⟨rfl, rfl⟩
  | succ hops ih =>
    have hhere : ∀ listeners : List (Listener H.Handler),
        (view.traced.holding id (fun s => listeners.foldl (view.traced.notify (tracing run) event) s) s).1 =
          view.holding id (fun s => listeners.foldl (view.notify run event) s) s.1 := fun listeners =>
      congrArg (view.modify _) (foldl_fst (traced_notify event) listeners _)
    unfold bubble
    dsimp only
    rw [traced_world, ← hhere, traced_world]
    generalize view.traced.holding id _ s = t
    cases (view.world t.1).document.parent? id with
    | none => exact ⟨rfl, rfl⟩
    | some p => exact ⟨(ih p t).1, congrArg (_ + ·) (ih p t).2⟩

/-- a dispatch that is watched is the same dispatch -/
theorem traced_dispatch (view : WorldView H S) (run : H.Handler → Event → S → S) (hops : Nat) (target : NodeId)
    (event : Event) (s : S × Trace H) :
    (view.traced.dispatch (tracing run) hops target event s).1.1 = (view.dispatch run hops target event s.1).1 ∧
      (view.traced.dispatch (tracing run) hops target event s).2 = (view.dispatch run hops target event s.1).2 := by
  obtain ⟨hstate, hcount⟩ := view.traced_bubble run event hops target
    (view.traced.modify (fun w => { w with passing := target :: w.passing }) s)
  exact ⟨congrArg (view.modify _) hstate, hcount⟩

/-! ## What is called -/

/-- the handler changes only what the host adds to a world -/
def Mild (view : WorldView H S) (run : H.Handler → Event → S → S) (handler : H.Handler) : Prop :=
  ∀ event s, (view.world s).Aside (view.world (run handler event s))

/-- mild handlers have been called with an event, and nothing else has happened -/
structure Traces (view : WorldView H S) (w : World H) (event : Event) (handlers : List H.Handler) (s t : S × Trace H) :
    Prop where
  aside : w.Aside (view.world t.1)
  trace : t.2 = s.2 ++ handlers.map (·, event)

section

variable {w : World H} {event : Event} {s : S × Trace H}

theorem Traces.refl (hs : w.Aside (view.world s.1)) : view.Traces w event [] s s := ⟨hs, (List.append_nil _).symm⟩

theorem Traces.trans {handlers more : List H.Handler} {t u : S × Trace H} (h : view.Traces w event handlers s t)
    (h' : view.Traces w event more t u) : view.Traces w event (handlers ++ more) s u :=
  ⟨h'.aside, by rw [h'.trace, h.trace, List.append_assoc, List.map_append]⟩

variable (event) in
/-- mild handlers are called one after another -/
theorem traces_handlers {handlers : List H.Handler} (hm : ∀ handler ∈ handlers, view.Mild run handler)
    (hs : w.Aside (view.world s.1)) :
    view.Traces w event handlers s (handlers.foldl (fun s handler => tracing run handler event s) s) := by
  induction handlers generalizing s with
  | nil => exact .refl hs
  | cons handler handlers ih =>
    rw [List.forall_mem_cons] at hm
    have hone : view.Traces w event [handler] s (tracing run handler event s) :=
      ⟨hs.trans (hm.1 event s.1), rfl⟩
    exact hone.trans (ih hm.2 hone.aside)

variable (hview : ∀ f s, view.world (view.modify f s) = f (view.world s))
include hview

variable (event) in
/-- a channel is entered, its subscribers are called, and it is left -/
theorem traces_notify {listener : Listener H.Handler} (hm : ∀ handler ∈ w.told listener, view.Mild run handler)
    (hs : w.Aside (view.world s.1)) :
    view.Traces w event (w.told listener) s (view.traced.notify (tracing run) event s listener) := by
  cases listener with
  | handler handler => exact traces_handlers event hm hs
  | channel id topic =>
    have hchannel : (view.world s.1).channel? id = w.channel? id := congrArg (·[id]?) hs.channels
    show view.Traces w event _ s (view.traced.publish (tracing run) id topic event s)
    rw [publish, traced_world, hchannel]
    rw [World.told] at hm ⊢
    cases hc : w.channel? id with
    | none => exact .refl hs
    | some channel =>
      rw [hc] at hm
      dsimp only at hm ⊢
      split
      · next hopen =>
        rw [if_pos hopen] at hm
        have hentered : (w.updateChannel id .enter).Aside
            (view.world (view.traced.modify (·.updateChannel id .enter) s).1) := by
          show World.Aside _ (view.world (view.modify _ s.1))
          rw [hview]
          exact ⟨hs.document, congrArg (List.modify · id _) hs.channels, hs.backend⟩
        obtain ⟨haside, htrace⟩ := traces_handlers event hm hentered
        refine ⟨?_, htrace⟩
        show World.Aside w (view.world (view.modify _ _))
        rw [hview]
        refine ⟨haside.document, (congrArg (List.modify · id _) haside.channels).trans ?_, haside.backend⟩
        show (w.channels.modify id .enter).modify id .leave = w.channels
        rw [List.modify_modify_eq]
        exact List.modify_id _ _
      · exact .refl hs

variable (event) in
theorem traces_listeners {listeners : List (Listener H.Handler)}
    (hm : ∀ handler ∈ listeners.flatMap w.told, view.Mild run handler) (hs : w.Aside (view.world s.1)) :
    view.Traces w event (listeners.flatMap w.told) s (listeners.foldl (view.traced.notify (tracing run) event) s) := by
  induction listeners generalizing s with
  | nil => exact .refl hs
  | cons listener listeners ih =>
    rw [List.flatMap_cons, List.forall_mem_append] at hm
    rw [List.flatMap_cons]
    have hone := traces_notify event hview hm.1 hs
    exact hone.trans (ih hm.2 hone.aside)

/-- along the path, the listeners on each node are told in turn -/
theorem traces_bubble {x : NodeId} {path : List NodeId} (hp : w.document.Climbs x path) {hops : Nat}
    (hh : path.length ≤ hops) (hm : ∀ handler ∈ (w.onPath event.name path).flatMap w.told, view.Mild run handler)
    (hs : w.Aside (view.world s.1)) :
    view.Traces w event ((w.onPath event.name path).flatMap w.told) s
      (view.traced.bubble (tracing run) event hops x s).1 ∧
      (view.traced.bubble (tracing run) event hops x s).2 = (w.onPath event.name path).length := by
  have hhere : ∀ {x : NodeId} {s : S × Trace H}, w.Aside (view.world s.1) →
      (∀ handler ∈ (w.document.listenersFor x event.name).flatMap w.told, view.Mild run handler) →
      view.Traces w event ((w.document.listenersFor x event.name).flatMap w.told) s
        (view.traced.holding x (fun s => (w.document.listenersFor x event.name).foldl
          (view.traced.notify (tracing run) event) s) s) := by
    intro x s hs hm
    have hheld : w.Aside (view.world
        (view.traced.modify (fun w => { w with passing := x :: w.passing }) s).1) := by
      show World.Aside _ (view.world (view.modify _ s.1))
      rw [hview]
      exact ⟨hs.document, hs.channels, hs.backend⟩
    obtain ⟨haside, htrace⟩ := traces_listeners event hview hm hheld
    refine ⟨?_, htrace⟩
    show World.Aside w (view.world (view.modify _ _))
    rw [hview]
    exact ⟨haside.document, haside.channels, haside.backend⟩
  induction hp generalizing hops s with
  | @top x h =>
    obtain ⟨hops, rfl⟩ := Nat.exists_eq_add_of_le' hh
    rw [World.onPath, List.flatMap_singleton] at hm ⊢
    have hone := hhere hs hm
    rw [List.length_singleton, bubble]
    dsimp only
    rw [traced_world s, hs.document, traced_world, hone.aside.document, h]
    exact ⟨hone, rfl⟩
  | @up x p path h rest ih =>
    obtain ⟨hops, rfl⟩ := Nat.exists_eq_add_of_le' (Nat.le_trans (Nat.succ_le_succ (Nat.zero_le _)) hh)
    rw [World.onPath, List.flatMap_cons, List.flatMap_append] at hm ⊢
    rw [List.forall_mem_append] at hm
    have hone := hhere hs hm.1
    obtain ⟨habove, hcount⟩ := ih (Nat.le_of_succ_le_succ hh) hm.2 hone.aside
    rw [bubble]
    dsimp only
    rw [traced_world s, hs.document, traced_world, hone.aside.document, h]
    refine ⟨hone.trans habove, ?_⟩
    rw [List.length_append]
    exact congrArg (_ + ·) hcount

variable (run) in
/-- **A dispatch** at a node calls, on each node of the path up from there, those whom the listeners on that node call, in
their order; it counts these listeners, and leaves documents and channels alone. -/
theorem dispatch_calls {s : S} {x : NodeId} {path : List NodeId} (hp : (view.world s).document.Climbs x path) {hops : Nat}
    (hh : path.length ≤ hops) (event : Event)
    (hm : ∀ handler ∈ ((view.world s).onPath event.name path).flatMap (view.world s).told, view.Mild run handler) :
    view.calls run hops x event s =
        (((view.world s).onPath event.name path).flatMap (view.world s).told).map (·, event) ∧
      (view.dispatch run hops x event s).2 = ((view.world s).onPath event.name path).length ∧
      (view.world s).Aside (view.world (view.dispatch run hops x event s).1) := by
  have hs : (view.world s).Aside
      (view.world (view.traced.modify (fun w => { w with passing := x :: w.passing }) (s, ([] : Trace H))).1) := by
    show World.Aside _ (view.world (view.modify _ s))
    rw [hview]
    exact ⟨rfl, rfl, rfl⟩
  obtain ⟨⟨haside, htrace⟩, hcount⟩ := traces_bubble hview hp hh hm hs
  obtain ⟨hstate, hsame⟩ := view.traced_dispatch run hops x event (s, [])
  refine ⟨htrace.trans (List.nil_append _), hsame.symm.trans hcount, ?_⟩
  rw [← hstate]
  show World.Aside _ (view.world (view.modify _ _))
  rw [hview]
  exact ⟨haside.document, haside.channels, haside.backend⟩

end

end WorldView

end LiveMarkup
