/-
Dispatching to handlers that leave documents and channels alone.

While an event is at a node its listeners run, and the channels that they pass it to are open for that time. When all
handlers leave the document and the channels alone, so does the whole dispatch: every channel is entered as often as it is
left.

- `WorldView.Quiet.notify`, `WorldView.Quiet.bubble`, `WorldView.Quiet.dispatch`: one listener, the way up, a dispatch.
-/
import LiveMarkup.Event.Dispatch

namespace LiveMarkup

variable {H : Host} {S : Type}

/-- only what the host adds is different -/
structure World.Aside (w w₁ : World H) : Prop where
  document : w₁.document = w.document
  channels : w₁.channels = w.channels
  backend : w₁.backend = w.backend

theorem World.Aside.refl (w : World H) : w.Aside w := ⟨rfl, rfl, rfl⟩

theorem World.Aside.trans {u v w : World H} (h : u.Aside v) (h' : v.Aside w) : u.Aside w :=
  ⟨h'.document.trans h.document, h'.channels.trans h.channels, h'.backend.trans h.backend⟩

/-- the world of a state that is nothing else -/
def WorldView.whole : WorldView H (World H) := ⟨id, id⟩

namespace WorldView

/-- the world that is put in is the one that is found, and handlers change only what the host adds to it -/
structure Quiet (view : WorldView H S) (run : H.Handler → Event → S → S) : Prop where
  world_modify : ∀ f s, view.world (view.modify f s) = f (view.world s)
  aside : ∀ handler event s, (view.world s).Aside (view.world (run handler event s))

variable {view : WorldView H S} {run : H.Handler → Event → S → S} (h : view.Quiet run)
include h

theorem Quiet.handlers (event : Event) (handlers : List H.Handler) (s : S) :
    (view.world s).Aside (view.world (handlers.foldl (fun s handler => run handler event s) s)) := by
  induction handlers generalizing s with
  | nil => exact .refl _
  | cons handler handlers ih => exact (h.aside handler event s).trans (ih _)

/-- a channel that is entered and left is as it was -/
theorem Quiet.publish (id : Nat) (topic : String) (event : Event) (s : S) :
    (view.world s).Aside (view.world (view.publish run id topic event s)) := by
  unfold WorldView.publish Channel.fire
  split
  · next channel hchannel =>
    split
    · have hmid := h.handlers event (channel.handlersOf topic) (view.modify (·.updateChannel id .enter) s)
      rw [h.world_modify] at hmid
      refine ⟨?_, ?_, ?_⟩
      · rw [h.world_modify]
        exact hmid.document
      · rw [h.world_modify]
        show (World.channels _).modify id .leave = _
        rw [hmid.channels]
        show ((view.world s).channels.modify id .enter).modify id .leave = _
        rw [List.modify_modify_eq]
        exact List.modify_id _ _
      · rw [h.world_modify]
        exact hmid.backend
    · exact .refl _
  · exact .refl _

theorem Quiet.notify (event : Event) (s : S) (listener : Listener H.Handler) :
    (view.world s).Aside (view.world (view.notify run event s listener)) := by
  cases listener with
  | handler handler => exact h.aside handler event s
  | channel id topic => exact h.publish id topic event s

theorem Quiet.listeners (event : Event) (listeners : List (Listener H.Handler)) (s : S) :
    (view.world s).Aside (view.world (listeners.foldl (view.notify run event) s)) := by
  induction listeners generalizing s with
  | nil => exact .refl _
  | cons listener listeners ih => exact (h.notify event s listener).trans (ih _)

theorem Quiet.holding (id : NodeId) {f : S → S} (hf : ∀ s, (view.world s).Aside (view.world (f s))) (s : S) :
    (view.world s).Aside (view.world (view.holding id f s)) := by
  unfold WorldView.holding
  have hmid := hf (view.modify (fun w => { w with passing := id :: w.passing }) s)
  rw [h.world_modify] at hmid ⊢
  exact ⟨hmid.document, hmid.channels, hmid.backend⟩

theorem Quiet.bubble (event : Event) (hops : Nat) (id : NodeId) (s : S) :
    (view.world s).Aside (view.world (view.bubble run event hops id s).1) := by
  induction hops generalizing id s with
  | zero => exact .refl _
  | succ hops ih =>
    have hhere := h.holding id (h.listeners event ((view.world s).document.listenersFor id event.name)) s
    unfold WorldView.bubble
    dsimp only
    split
    · exact hhere.trans (ih _ _)
    · exact hhere

/-- **A dispatch** to such handlers leaves the document and the channels alone. -/
theorem Quiet.dispatch (hops : Nat) (target : NodeId) (event : Event) (s : S) :
    (view.world s).Aside (view.world (view.dispatch run hops target event s).1) := by
  unfold WorldView.dispatch
  have hmid := h.bubble event hops target (view.modify (fun w => { w with passing := target :: w.passing }) s)
  rw [h.world_modify] at hmid
  dsimp only
  rw [h.world_modify]
  exact ⟨hmid.document, hmid.channels, hmid.backend⟩

end WorldView

end LiveMarkup
