/-
Mounts that fail.

All that a mount does before it succeeds, it does in trees of its own: the fragment and the text nodes that were made for
the component and for what is nested in it. The target is touched once, at the very end. So a mount that fails leaves alone
every tree of the document in which the component holds nothing, the target's above all; and what it has set up it takes
back, whatever the blocks nested in it result in then.

- `Component.mount_result`: the fault of a mount is that of the first step that fails;
- `Component.mount_confined`: what a mount that fails leaves alone, and what it leaves of the component.
-/
import LiveMarkup.Proofs.Component.Released
import LiveMarkup.Proofs.Component.Zone

namespace LiveMarkup

variable {H : Host} [ForeignBlocks H]

/-! ## The steps of a mount -/

omit [ForeignBlocks H] in
theorem firstError_cons (result : Except LifecycleFault Unit) (results : List (Except LifecycleFault Unit)) :
    firstError (result :: results) = firstFault result (firstError results) := by
  rw [← List.singleton_append, firstError_append]
  cases result <;> rfl

/-- what binding a component that is created and putting in what is nested in it result in, step by step -/
def Component.steps (c : Component H) (w : World H) : List (Except LifecycleFault Unit) :=
  match c.core.phase with
  | .created fragment =>
    let own := c.core.bind fragment w
    let placeholders := c.core.template.placeholders
    own.result :: (own.world.spots fragment .slot (indicesOf placeholders .slot)).map (fun _ => ()) ::
      (own.world.spots fragment .child (indicesOf placeholders .child)).map (fun _ => ()) ::
      (c.visits w).map Visit.result
  | .mounted => [.error .alreadyMounted]
  | .unmounted | .destroyed => [.error (.missingMarker "#document-fragment")]

/-- the same of a mount, which creates the component first if need be -/
def Component.attempts (c : Component H) (w : World H) : List (Except LifecycleFault Unit) :=
  match c.core.phase with
  | .created _ | .mounted => c.steps w
  | .unmounted | .destroyed => (c.create w).result :: (c.create w).self.steps (c.create w).world

theorem mountRow_result (fragment : NodeId) (held later : List NodeId) (row : List (Nested H))
    (spots : List (Nat × NodeId)) (w : World H) : (mountRow fragment held later row spots w).result =
      firstError ((rowVisits fragment held later row spots w).map Visit.result) := by
  induction row generalizing held spots w with
  | nil => rfl
  | cons n row ih =>
    obtain ⟨index, atRoot, block⟩ := n
    rw [mountRow, rowVisits]
    dsimp only
    generalize w.discardAll (held ++ (spots.dropWhile (·.1 ≠ index)).map (·.2) ++ later)
      (spots.takeWhile (·.1 ≠ index)) = w₁
    cases spots.dropWhile (·.1 ≠ index) with
    | nil => exact ih _ _ _
    | cons spot after =>
      obtain ⟨place, spot⟩ := spot
      dsimp only
      cases w₁.document.parent? spot with
      | none => exact ih _ _ _
      | some parent =>
        dsimp only
        rw [List.map_cons, firstError_cons]
        cases (block.mountCreated parent (some spot) w₁).result with
        | error fault => rfl
        | ok => exact ih _ _ _

theorem Component.mountCreated_result (target : NodeId) (anchor : Option NodeId) (c : Component H) (w : World H) :
    (c.mountCreated target anchor w).result = firstError (c.steps w) := by
  obtain ⟨core, slots, children⟩ := c
  rw [mountCreated, steps, visits]
  dsimp only [Component.core]
  cases core.phase with
  | mounted | unmounted | destroyed => rfl
  | created fragment =>
    dsimp only
    rw [firstError_cons, firstError_cons, firstError_cons]
    cases (core.bind fragment w).result with
    | error fault => rfl
    | ok =>
      dsimp only
      cases (core.bind fragment w).world.spots fragment .slot (indicesOf core.template.placeholders .slot) with
      | error fault => rfl
      | ok slotSpots =>
        cases (core.bind fragment w).world.spots fragment .child (indicesOf core.template.placeholders .child) with
        | error fault => rfl
        | ok childSpots =>
          dsimp only
          generalize ((core.bind fragment w).world.document.children fragment).filter
            (!((slotSpots ++ childSpots).map (·.2)).contains ·) = roots
          generalize Core.handles { (core.bind fragment w).self with roots } = held
          have hcontents := mountRow_result fragment held (childSpots.map (·.2)) slots slotSpots
            (core.bind fragment w).world
          refine Eq.trans ?_ (congrArg firstError List.map_append.symm)
          rw [firstError_append, ← hcontents]
          generalize mountRow fragment held (childSpots.map (·.2)) slots slotSpots (core.bind fragment w).world = contents
          cases contents.result with
          | error fault => rfl
          | ok =>
            have hkids := mountRow_result fragment (held ++ handlesOf contents.self) [] children childSpots contents.world
            dsimp only [firstFault]
            rw [← hkids]
            cases (mountRow fragment (held ++ handlesOf contents.self) [] children childSpots contents.world).result <;> rfl

/-- a mount results in the fault of its first step that fails, whatever happens when it is taken back -/
theorem Component.mount_result (target : NodeId) (anchor : Option NodeId) (c : Component H) (w : World H) :
    (c.mount target anchor w).result = firstError (c.attempts w) := by
  rw [mount, attempts]
  cases hp : c.core.phase with
  | created fragment => exact c.mountCreated_result target anchor w
  | mounted =>
    rw [steps, hp]
    rfl
  | unmounted | destroyed =>
    dsimp only
    rw [firstError_cons]
    cases hr : (c.create w).result with
    | error fault => exact hr
    | ok => exact (c.create w).self.mountCreated_result target anchor _

/-! ## Where a mount that fails is confined -/

/-- a mount that fails does not come to its target -/
theorem Component.mountCreated_of_fails {target : NodeId} {anchor : Option NodeId} {c : Component H} {w : World H}
    (h : (c.mountCreated target anchor w).result ≠ .ok ()) (target' : NodeId) (anchor' : Option NodeId) :
    c.mountCreated target' anchor' w = c.mountCreated target anchor w := by
  obtain ⟨core, slots, children⟩ := c
  rw [mountCreated] at h ⊢
  rw [mountCreated]
  cases hp : core.phase with
  | mounted | unmounted | destroyed => rfl
  | created fragment =>
    rw [hp] at h
    dsimp only at h ⊢
    cases hbind : (core.bind fragment w).result with
    | error fault => rfl
    | ok =>
      rw [hbind] at h
      dsimp only at h ⊢
      cases hslots : (core.bind fragment w).world.spots fragment .slot
          (indicesOf core.template.placeholders .slot) with
      | error fault => rfl
      | ok slotSpots =>
        cases hchildren : (core.bind fragment w).world.spots fragment .child
            (indicesOf core.template.placeholders .child) with
        | error fault => rfl
        | ok childSpots =>
          rw [hslots, hchildren] at h
          dsimp only at h ⊢
          generalize ((core.bind fragment w).world.document.children fragment).filter
            (!((slotSpots ++ childSpots).map (·.2)).contains ·) = roots at h ⊢
          generalize Core.handles { (core.bind fragment w).self with roots } = held at h ⊢
          generalize mountRow fragment held (childSpots.map (·.2)) slots slotSpots (core.bind fragment w).world =
            contents at h ⊢
          cases hcontents : contents.result with
          | error fault => rfl
          | ok =>
            rw [hcontents] at h
            dsimp only at h ⊢
            generalize mountRow fragment (held ++ handlesOf contents.self) [] children childSpots contents.world =
              kids at h ⊢
            cases hkids : kids.result with
            | error fault => rfl
            | ok =>
              rw [hkids] at h
              exact absurd rfl h

/-- a mount that fails of a component that has nothing in a tree leaves that tree alone, and the component out of it -/
theorem Component.leaves_mountCreated {T : Node (Listener H.Handler) × Forest (Node (Listener H.Handler))}
    (ha : (Zone.outside T : Zone H).Admits) {c : Component H} (h : (Block.component c).Dwells (Zone.outside T))
    {target : NodeId} {anchor : Option NodeId} {w : World H} (hw : w.document.Spared T)
    (hfails : (c.mountCreated target anchor w).result ≠ .ok ()) :
    (Zone.outside T).Leaves ((c.mountCreated target anchor w).map .component) := by
  have hc := h
  obtain ⟨core, slots, children⟩ := c
  cases hp : core.phase with
  | mounted | unmounted | destroyed =>
    rw [mountCreated, hp]
    exact ⟨hw, hc⟩
  | created fragment =>
    -- it would have failed in the same way below its own fragment
    have hf : Document.Outside T fragment :=
      (dwells_mk.1 h).1.held fragment (Core.mem_handles.2 (.inl (by rw [hp]; rfl)))
    rw [← mountCreated_of_fails hfails fragment none]
    exact hc.mountCreated ha hf (fun a ha => absurd ha (Option.not_mem_none a)) hw

theorem Component.spared_mountCreated {T : Node (Listener H.Handler) × Forest (Node (Listener H.Handler))}
    (ha : (Zone.outside T : Zone H).Admits) {c : Component H} (h : (Block.component c).Dwells (Zone.outside T))
    {target : NodeId} {anchor : Option NodeId} {w : World H} (hw : w.document.Spared T)
    (hfails : (c.mountCreated target anchor w).result ≠ .ok ()) :
    (c.mountCreated target anchor w).world.document.Spared T := (leaves_mountCreated ha h hw hfails).world

/-- the same of a component that is created first -/
theorem Component.leaves_mount {T : Node (Listener H.Handler) × Forest (Node (Listener H.Handler))}
    (ha : (Zone.outside T : Zone H).Admits) {c : Component H} (h : (Block.component c).Dwells (Zone.outside T))
    (hp : ¬ c.core.phase.Active) {target : NodeId} {anchor : Option NodeId} {w : World H} (hw : w.document.Spared T)
    (hfails : (c.mount target anchor w).result ≠ .ok ()) :
    (Zone.outside T).Leaves ((c.mount target anchor w).map .component) := by
  have hcreate : (Zone.outside T : Zone H).Leaves ((c.create w).map .component) := h.create ha hw
  cases hr : (c.create w).result with
  | error fault =>
    rw [mount_of_error hp target anchor hr]
    exact hcreate
  | ok =>
    rw [mount_of_ok hp target anchor hr] at hfails ⊢
    exact leaves_mountCreated ha hcreate.self hcreate.world hfails

/-- no node of the tree is held by the component or by anything nested in it, or listened to by them -/
structure Component.Apart (T : Node (Listener H.Handler) × Forest (Node (Listener H.Handler))) (c : Component H) :
    Prop where
  held : ∀ x ∈ c.handles, Document.Outside T x
  heard : c.Each (fun core => ∀ cleanup ∈ core.cleanups, Document.Outside T cleanup.node) fun _ => True

/-- blocks of the host leave every tree alone in which they hold nothing and into which they are not mounted -/
def ForeignBlocks.Confined (H : Host) [ForeignBlocks H] : Prop := ∀ T, (Zone.outside T : Zone H).Admits

omit [ForeignBlocks H] in
theorem Component.Idle.roots {c : Component H} (h : c.Idle) : c.roots = [] := by
  obtain ⟨core, slots, children⟩ := c
  exact h.1.roots

omit [ForeignBlocks H] in
theorem Component.Orderly.roots_of_inactive {c : Component H} (h : c.Orderly) (hp : ¬ c.core.phase.Active) :
    c.roots = [] := by
  cases h with
  | active h =>
    obtain ⟨core, slots, children⟩ := c
    exact absurd h.1 hp
  | resting own => exact own.roots

/-- a component that is created already is not created again -/
theorem Component.create_of_created {c : Component H} (hs : c.state = .created) (w : World H) :
    (c.create w).result = .ok () := by
  obtain ⟨core, slots, children⟩ := c
  change core.phase.state = .created at hs
  rw [create]
  cases hp : core.phase with
  | created fragment => rfl
  | _ => rw [hp] at hs; cases hs

/-- **A mount that fails leaves the document alone.** After any calls on a component whose actions leave the document
alone, and whose slots hold blocks that keep to where they are put: if it is mounted and that fails, every tree of the
document in which the component has nothing stands as it was, with everything in its nodes. A mounted component fails with
that fault and is left alone, and so is the whole world. Otherwise the component has no nodes at the top level afterwards,
and the fault is that of the first step of the mount that failed, whatever else fails while it is taken back. -/
theorem Component.mount_confined {t : Template (Action H)} {options : Options H} (hf : ForeignBlocks.Confined H)
    (ht : t.Everywhere Template.Quiet) (hslots : ∀ e ∈ options.slots, e.2.Orderly ∧ e.2.Modest) (w₀ : World H)
    (calls : List (Call NodeId × World H)) {target : NodeId} {anchor : Option NodeId} {w : World H}
    (hd : w.document.Intact)
    (hfails : (((furnished t options w₀).over calls).mount target anchor w).result ≠ .ok ()) :
    let c := (furnished t options w₀).over calls
    let o := c.mount target anchor w
    (∀ T ∈ w.document.forest.trees, (c.state = .mounted ∨ c.Apart T) → T ∈ o.world.document.forest.trees) ∧
    (c.state = .mounted → o.self = c ∧ o.world = w ∧ o.result = .error .alreadyMounted) ∧
    (c.state ≠ .mounted → o.self.roots = [] ∧ o.result = firstError (c.attempts w)) := by
  intro c o
  have horderly : c.Orderly := (furnished_orderly (t := t) (fun e he => (hslots e he).1) w₀).1.over calls
  have hmodest : c.Modest := (furnished_modest ht (fun e he => (hslots e he).2) w₀).over calls
  have hmounted : c.state = .mounted → o.self = c ∧ o.world = w ∧ o.result = .error .alreadyMounted := by
    intro hs
    have hp : c.core.phase = .mounted := by
      cases hphase : c.core.phase with
      | mounted => rfl
      | _ => rw [state, hphase] at hs; cases hs
    show (c.mount target anchor w).self = c ∧ (c.mount target anchor w).world = w ∧ _
    rw [show o.result = (c.mount target anchor w).result from rfl, mount, hp]
    exact ⟨rfl, rfl, rfl⟩
  refine ⟨fun T hT hapart => ?_, hmounted, fun hs => ⟨?_, c.mount_result target anchor w⟩⟩
  · by_cases hs : c.state = .mounted
    · rw [(hmounted hs).2.1]
      exact hT
    · have hapart := hapart.resolve_left hs
      have hdwells : (Block.component c).Dwells (Zone.outside T) := hmodest.dwells (fun _ => trivial) hapart.held hapart.heard
      have hw : w.document.Spared T := ⟨hd, hT⟩
      have hfails : (c.mount target anchor w).result ≠ .ok () := hfails
      show T ∈ (c.mount target anchor w).world.document.forest.trees
      by_cases hp : c.core.phase.Active
      · cases hphase : c.core.phase with
        | unmounted => rw [hphase] at hp; exact hp.elim
        | destroyed => rw [hphase] at hp; exact hp.elim
        | mounted => exact absurd (congrArg Phase.state hphase) hs
        | created fragment =>
          rw [mount, hphase] at hfails ⊢
          exact (spared_mountCreated (hf T) hdwells hw hfails).tree
      · have hcreate := hdwells.create (hf T) (w := w) hw
        cases hr : (c.create w).result with
        | error fault =>
          rw [mount_of_error hp target anchor hr]
          exact hcreate.world.tree
        | ok =>
          rw [mount_of_ok hp target anchor hr] at hfails ⊢
          exact (spared_mountCreated (hf T) hcreate.self hcreate.world hfails).tree
  · obtain ⟨hafter, hgone⟩ := horderly.mount target anchor w
    rcases hgone hs hfails with ⟨hcreate, hstate⟩ | habandoned
    · refine hafter.roots_of_inactive fun hp => ?_
      -- what is created already does not fail to be created
      have hwas : c.state = .created := by
        cases hphase : (c.mount target anchor w).self.core.phase with
        | created fragment => exact hstate.symm.trans (congrArg Phase.state hphase)
        | mounted => exact absurd (hstate.symm.trans (congrArg Phase.state hphase)) hs
        | unmounted => rw [hphase] at hp; exact hp.elim
        | destroyed => rw [hphase] at hp; exact hp.elim
      exact hcreate (c.create_of_created hwas w)
    · exact habandoned.idle.roots

/-! ## A mount that fails twice -/

/-- what a recorder does is written to the log, and goes on unless it is to fail -/
theorem Script.Recorder.leaves_record {z : Zone host} (r : Recorder) {w : ScriptWorld}
    (hr : (Block.foreign r : Block host).Dwells z) (hw : z.world w) (call : RecordedCall) (detail : Detail)
    {go : ScriptWorld → Recorder × ScriptWorld}
    (hgo : ∀ u : ScriptWorld, z.world u → (Block.foreign (go u).1 : Block host).Dwells z ∧ z.world (go u).2) :
    z.Leaves ((r.record w call detail go).map .foreign) := by
  have hlogged : z.world (log w (.recorded r.label call detail)) := z.alike hw ⟨rfl, rfl⟩
  rw [record]
  dsimp only
  split
  · exact ⟨hlogged, hr⟩
  · exact ⟨(hgo _ hlogged).2, (hgo _ hlogged).1⟩

/-- recorders keep to the element that they have made -/
theorem Script.confined : ForeignBlocks.Confined host := fun T => by
  have hdwells : ∀ r : Recorder, (∀ x ∈ r.element, Document.Outside T x) →
      (Block.foreign r : Block host).Dwells (Zone.outside T) := fun r h =>
    ⟨fun x hx => h x (Option.mem_toList.1 hx), trivial, trivial⟩
  refine ⟨fun r w hr hw => ?_, fun target anchor r w hr hw ht _ => ?_, fun detaching r w hr hw => ?_⟩
  · refine Recorder.leaves_record r hr hw .create .nothing fun u hu => ?_
    have hu : u.document.Spared T := hu
    refine ⟨hdwells _ fun x hx => ?_, hu.add (.element "i" [("id", r.label)])⟩
    obtain rfl := Option.some.inj hx
    exact hu.outside_of_fresh (Nat.le_refl _)
  · refine Recorder.leaves_record r hr hw .mount _ fun u hu => ⟨hr, ?_⟩
    dsimp only
    cases hid : r.element with
    | none => exact hu
    | some id => exact (Zone.outside T).insert hu ht (hr.held id (Option.mem_toList.2 hid)) anchor
  · have hempty := hdwells { r with element := none } fun x hx => absurd hx (Option.not_mem_none x)
    refine Recorder.leaves_record _ hempty ?_ .destroy _ fun u hu => ⟨hempty, hu⟩
    cases hid : r.element with
    | none => exact hw
    | some id =>
      cases detaching with
      | false => exact hw
      | true => exact (Zone.outside T).detach hw (hr.held id (Option.mem_toList.2 hid))

/-- a document in which the text of the paragraph is never found -/
def World.textless : World Script.host := { World.blank with backend := ⟨fun _ name => name != "mc-text-1", true⟩ }

/-- the guest is put in, the paragraph fails, and then the guest fails as well; the body stays as it was -/
theorem Component.mount_confined_refusing :
    let failed := refusing.mount 0 none World.textless
    (⟨0, .element "body" [], [], 0⟩, .nil) ∈ failed.world.document.forest.trees ∧ failed.self.roots = [] ∧
      failed.result = .error (.missingMarker "mc-text-1") ∧
      (refusing.create World.textless).result = .ok () := by
  have hfails : (refusing.mount 0 none World.textless).result = .error (.missingMarker "mc-text-1") := by decide +kernel
  have hguest : ∀ e ∈ (Options.around (.foreign ⟨"guest", [.destroy], none⟩)).slots,
      e.2 = (.foreign ⟨"guest", [.destroy], none⟩ : Block Script.host) := fun e he => by rw [List.mem_singleton.1 he]
  have hidle : refusing.Idle := furnished_idle (fun e he => hguest e he ▸ trivial) World.blank
  have hapart : ∀ T, refusing.Apart T := fun T => by
    refine ⟨fun x hx => ?_, Each.imp (fun core hcore cleanup hin => ?_) (fun _ _ => trivial) hidle⟩
    · rw [show refusing.handles = [] from by decide +kernel] at hx
      cases hx
    · rw [hcore.cleanups] at hin
      cases hin
  obtain ⟨hbody, -, hleft⟩ := mount_confined (t := Template.stacked) Script.confined Template.stacked_quiet
    (show ∀ e ∈ (Options.around (.foreign ⟨"guest", [.destroy], none⟩)).slots, e.2.Orderly ∧ e.2.Modest from
      fun e he => hguest e he ▸ ⟨Block.foreign_orderly _, fun _ _ => trivial, trivial, trivial⟩) World.blank []
    (w := World.textless) (Document.intact_empty.add (.element "body" []))
    (show (refusing.mount 0 none World.textless).result ≠ .ok () from fun h => error_ne_ok (hfails.symm.trans h))
  exact ⟨hbody _ List.mem_cons_self (.inr (hapart _)), (hleft (by decide +kernel)).1, hfails, by decide +kernel⟩

end LiveMarkup
