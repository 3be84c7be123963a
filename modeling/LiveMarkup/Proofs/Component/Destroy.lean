/-
Destroying, and calls that change nothing.

Destroying takes a component's nodes out or leaves them where they are; either way the document stays valid, and the
component and all that is nested in it have nothing in it any more. The props stay, so what was given before is there
when the component is mounted again.

- `Stands.destroy`: a component that waits or is mounted is destroyed, with all its children;
- `Stands.create_created`, `Stands.create_mounted`, `Stands.destroy_unmounted`, `Stands.destroy_destroyed`,
  `Stands.transition`: other calls leave the component and the world alone.
-/
import LiveMarkup.Proofs.Component.Create

namespace LiveMarkup

open Markup Marker Forest

variable {H : Host}

/-! ## Worlds whose document stays valid -/

/-- the document stays valid and is searched in the same way -/
structure World.Keeps (w w' : World H) : Prop where
  backend : w'.backend = w.backend
  valid : w.document.Valid → w'.document.Valid

theorem World.Alike.keeps {w w' : World H} (h : w.Alike w') : w.Keeps w' :=
  ⟨h.backend, fun hv => by rw [h.document]; exact hv⟩

theorem World.Keeps.refl (w : World H) : w.Keeps w := ⟨rfl, fun hv => hv⟩

theorem World.Keeps.trans {u v w : World H} (h : u.Keeps v) (h' : v.Keeps w) : u.Keeps w :=
  ⟨h'.backend.trans h.backend, fun hv => h'.valid (h.valid hv)⟩

theorem World.keeps_foldl {α : Type} {step : World H → α → World H} {l : List α}
    (h : ∀ a ∈ l, ∀ w : World H, w.Keeps (step w a)) (w : World H) : w.Keeps (l.foldl step w) := by
  induction l generalizing w with
  | nil => exact .refl w
  | cons a l ih =>
    rw [List.forall_mem_cons] at h
    exact (h.1 w).trans (ih h.2 _)

namespace Core

variable {c : Core H} {p : Props} {entries : Entries Value} {row : List (Kid H)} {s : State} {X : Forest Bare}

theorem detachRoots_keeps (c : Core H) (w : World H) : w.Keeps (c.detachRoots w) := by
  refine World.keeps_foldl (fun root _ w => ?_) w
  refine ⟨rfl, fun hv => ?_⟩
  obtain ⟨g, hg, -⟩ := hv.detach_ids root
  exact hg.valid

theorem cleanUp_keeps (h : ∀ cleanup ∈ c.cleanups, cleanup.Quiet) (w : World H) : w.Keeps (c.cleanUp w) := by
  refine World.keeps_foldl (fun cleanup hin w => ?_) w
  cases cleanup with
  | listener node ticket => exact ⟨rfl, fun hv => (hv.unlisten node ticket).valid⟩
  | hook node run => exact (h _ hin w).keeps

theorem Is.quiet_cleanups (h : c.Is p entries row s X) : ∀ cleanup ∈ c.cleanups, cleanup.Quiet := by
  have hnil : c.cleanups = [] → ∀ cleanup ∈ c.cleanups, cleanup.Quiet := fun he cleanup hin => by
    rw [he] at hin
    cases hin
  cases s with
  | unmounted => exact hnil h.2.1.cleanups
  | created => obtain ⟨fragment, hw, -⟩ := h; exact hnil hw.cleanups
  | mounted => obtain ⟨start, hs, -⟩ := h; exact hs.cleanups
  | destroyed => exact hnil h.2.1.cleanups

end Core

/-! ## Destroying -/

structure Destroyed (g : History) (c : Component H) (w : World H) (o : Outcome H (Component H)) : Prop where
  ok : o.result = .ok ()
  template : o.self.core.template = c.core.template
  props : o.self.props = c.props
  keeps : w.Keeps o.world
  stands : Stands .destroyed g o.self nil

variable [ForeignBlocks H]

/-- the children of a row are destroyed one after another -/
theorem destroyAll_spec {g : Nat → History} {row : List (Kid H)}
    (hk : ∀ k ∈ row, ∀ detaching w, Destroyed (g k.index) k.component w (k.component.destroy detaching w))
    (detaching : Bool) (w : World H) :
    (destroyAll detaching (row.map Kid.nested) w).result = .ok () ∧
      w.Keeps (destroyAll detaching (row.map Kid.nested) w).world ∧
      ∃ row' : List (Kid H), (destroyAll detaching (row.map Kid.nested) w).self = row'.map Kid.nested ∧
        List.Forall₂ Kid.Alike row row' ∧ ∀ k ∈ row', Stands .destroyed (g k.index) k.component k.ground := by
  induction row generalizing w with
  | nil => exact ⟨rfl, .refl w, [], rfl, .nil, fun _ h => absurd h List.not_mem_nil⟩
  | cons k row ih =>
    rw [List.forall_mem_cons] at hk
    have hd := hk.1 (detaching && k.atRoot) w
    obtain ⟨hok, hkeeps, row', hself, halike, hstands⟩ := ih hk.2 (k.component.destroy (detaching && k.atRoot) w).world
    rw [List.map_cons, Kid.nested, destroyAll, Block.destroy]
    dsimp only [Outcome.map]
    refine ⟨?_, hd.keeps.trans hkeeps,
      ⟨k.index, k.atRoot, (k.component.destroy (detaching && k.atRoot) w).self, nil⟩ :: row', ?_,
      .cons ⟨rfl, hd.template⟩ halike, List.forall_mem_cons.2 ⟨hd.stands, hstands⟩⟩
    · rw [hd.ok]
      exact hok
    · rw [hself]
      rfl

/-- **Destroying.** A component that waits to be mounted or is mounted is destroyed, with all that is nested in it. -/
theorem Stands.destroy {s : State} (hs : s = .created ∨ s = .mounted) {g : History} {c : Component H} {X : Forest Bare}
    (h : Stands s g c X) (detaching : Bool) (w : World H) : Destroyed g c w (c.destroy detaching w) := by
  induction h generalizing detaching w with
  | @mk g core row X props embeds own kids ih =>
    have hphase : (∃ fragment, core.phase = .created fragment) ∨ core.phase = .mounted := by
      rcases hs with rfl | rfl
      · obtain ⟨fragment, hw, -⟩ := own
        exact .inl ⟨fragment, hw.phase⟩
      · obtain ⟨start, hshows, -⟩ := own
        exact .inr hshows.phase
    obtain ⟨u, hu, hdestroy⟩ : ∃ u, w.Keeps u ∧ Component.destroy detaching (.mk core [] (row.map Kid.nested)) w =
        ⟨.mk core.cleared [] (destroyAll detaching (row.map Kid.nested) (core.cleanUp u)).self,
          (destroyAll detaching (row.map Kid.nested) (core.cleanUp u)).world,
          (destroyAll detaching (row.map Kid.nested) (core.cleanUp u)).result⟩ := by
      refine ⟨if detaching && core.phase = .mounted then core.detachRoots w else w, ?_, ?_⟩
      · split
        · exact core.detachRoots_keeps w
        · exact .refl w
      · rcases hphase with ⟨fragment, hp⟩ | hp <;>
        · rw [Component.destroy, hp]
          rfl
    have hclean := Core.cleanUp_keeps own.quiet_cleanups u
    obtain ⟨hok, hkeeps, row', hself, halike, hstands⟩ := destroyAll_spec (g := core.handed g) ih detaching (core.cleanUp u)
    rw [hdestroy]
    refine ⟨hok, rfl, rfl, (hu.trans hclean).trans hkeeps, ?_⟩
    dsimp only
    rw [hself]
    exact .mk props (embeds.of_alike rfl halike) ⟨rfl, ⟨rfl, rfl, rfl, rfl⟩, rfl⟩ hstands

/-! ## Calls that change nothing -/

section

variable {g : History} {c : Component H} {X : Forest Bare}

/-- a component that was never created is not destroyed -/
theorem Stands.destroy_unmounted (h : Stands .unmounted g c X) (detaching : Bool) (w : World H) :
    c.destroy detaching w = .ok c w := by
  cases h with
  | mk _ _ own => rw [Component.destroy, own.1]

/-- a destroyed component is not destroyed again -/
theorem Stands.destroy_destroyed (h : Stands .destroyed g c X) (detaching : Bool) (w : World H) :
    c.destroy detaching w = .fail .alreadyDestroyed c w := by
  cases h with
  | mk _ _ own => rw [Component.destroy, own.1]

/-- a component that waits to be mounted is not created again -/
theorem Stands.create_created (h : Stands .created g c X) (w : World H) : c.create w = .ok c w := by
  cases h with
  | mk _ _ own =>
    obtain ⟨fragment, hw, -⟩ := own
    rw [Component.create, hw.phase]

/-- a mounted component is not created again -/
theorem Stands.create_mounted (h : Stands .mounted g c X) (w : World H) : c.create w = .fail .alreadyMounted c w := by
  cases h with
  | mk _ _ own =>
    obtain ⟨start, hshows, -⟩ := own
    rw [Component.create, hshows.phase]

/-- without slot contents, no one is told that a component comes in or goes out -/
theorem Stands.transition {s : State} (h : Stands s g c X) (t : Transition) (isLocal : Bool) (w : World H) :
    c.transition t isLocal w = (c, w) := by
  induction h generalizing w with
  | @mk g core row X props embeds own kids ih =>
    have hrow : transitionAll t isLocal (row.map Kid.nested) w = (row.map Kid.nested, w) := by
      clear props embeds own kids
      induction row with
      | nil => rfl
      | cons k row ihrow =>
        rw [List.forall_mem_cons] at ih
        rw [List.map_cons, Kid.nested, transitionAll, Block.transition, ih.1 w]
        dsimp only
        rw [ihrow ih.2]
    rw [Component.transition, transitionAll]
    dsimp only
    rw [hrow]

end

end LiveMarkup
