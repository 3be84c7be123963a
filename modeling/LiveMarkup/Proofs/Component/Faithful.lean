/-
Where no marker is lost.

`Component.lifecycle` is about components that find all their markers, which `Component.findsAll` says of the calls. It asks
for nothing that a working backend denies: a component that is mounted with all that is nested in it has found all markers,
each in its place, and on a faithful backend every allowed mount of an accepted template gets that far.

- `Component.In.findsMarkers`: what is mounted has found its markers;
- `Life.findsAll_trace`: no marker is lost by any allowed calls, for every accepted template that names no marker and whose
  actions leave the document alone.
-/
import LiveMarkup.Proofs.Component.Lifecycle
import LiveMarkup.Proofs.Component.Run
import LiveMarkup.Proofs.Component.Seated

namespace LiveMarkup

variable {H : Host}

/-- all that is nested in the component, at any depth, are components -/
def Component.Textless (c : Component H) : Prop := c.Each (fun _ => True) fun _ => False

/-- a component that stands has children only, in the state that it is in itself -/
theorem Stands.nested {s : State} {g : History} {c : Component H} {X : Forest Bare} (h : Stands s g c X) :
    c.In s ∧ c.Built ∧ c.Textless := by
  induction h with
  | @mk g core row X props embeds own kids ih =>
    have hstate : core.phase.state = s := (Stands.mk props embeds own kids).state
    have hindices : (row.map Kid.nested).map Nested.index = indicesOf core.template.placeholders .child :=
      List.map_map.trans embeds.indices
    have hkids : ∀ {P : Nested H → Prop}, (∀ k ∈ row, P k.nested) → ∀ n ∈ row.map Kid.nested, P n :=
      List.forall_mem_map.2
    exact ⟨⟨hstate, trivial, eachOf_iff.2 (hkids fun k hk => (ih k hk).1)⟩,
      ⟨List.nil_sublist _, hindices, trivial, builtAll_iff.2 (hkids fun k hk => (ih k hk).2.1)⟩,
      ⟨trivial, trivial, eachOf_iff.2 (hkids fun k hk => (ih k hk).2.2)⟩⟩

variable [ForeignBlocks H]

/-! ## What is mounted has found its markers -/

/-- the blocks of a row have found their markers if all of them are mounted now -/
theorem rowFindsMarkers_of_mounted {row : List (Nested H)}
    (h : ∀ n ∈ row, ¬ n.block.In .mounted ∧ ∀ t a w, (n.block.mountCreated t a w).result = .ok () →
      (n.block.mountCreated t a w).self.In .mounted → n.block.findsMarkers w = true)
    (fragment : NodeId) (held later : List NodeId) (spots : List (Nat × NodeId)) (w : World H)
    (hok : (mountRow fragment held later row spots w).result = .ok ())
    (hin : ∀ n ∈ (mountRow fragment held later row spots w).self, n.block.In .mounted) :
    rowFindsMarkers fragment held later row spots w = true := by
  induction row generalizing held spots w with
  | nil => rfl
  | cons n row ih =>
    obtain ⟨index, atRoot, block⟩ := n
    rw [List.forall_mem_cons] at h
    rw [mountRow] at hok hin
    rw [rowFindsMarkers]
    dsimp only at hok hin ⊢
    -- a block that is left as it is has not been mounted
    cases hspots : spots.dropWhile (·.1 ≠ index) with
    | nil =>
      rw [hspots] at hin
      exact absurd (hin _ List.mem_cons_self) h.1.1
    | cons spot after =>
      rw [hspots] at hok hin
      dsimp only at hok hin ⊢
      generalize w.discardAll (held ++ (spot :: after).map (·.2) ++ later) (spots.takeWhile (·.1 ≠ index)) = u at hok hin ⊢
      cases hparent : u.document.parent? spot.2 with
      | none =>
        rw [hparent] at hin
        exact absurd (hin _ List.mem_cons_self) h.1.1
      | some parent =>
        rw [hparent] at hok hin
        dsimp only at hok hin ⊢
        cases hmount : (block.mountCreated parent (some spot.2) u).result with
        | error fault =>
          rw [hmount] at hok
          cases hok
        | ok =>
          rw [hmount] at hok hin
          obtain ⟨hone, hrest⟩ := List.forall_mem_cons.1 hin
          have hfinds : block.findsMarkers u = true := h.1.2 parent (some spot.2) u hmount hone
          rw [hfinds, Bool.true_and]
          exact ih h.2 _ _ _ hok hrest

namespace Component

/-- a component that is mounted with all that is nested in it has found all its markers -/
theorem In.findsMarkers {c : Component H} (h : c.In .created) (hb : c.Built) (ht : c.Textless) (target : NodeId)
    (anchor : Option NodeId) {w : World H} (hok : (c.mountCreated target anchor w).result = .ok ())
    (hin : (c.mountCreated target anchor w).self.In .mounted) : c.findsMarkers w = true := by
  induction c using Component.induct generalizing target anchor w with
  | mk core slots children ihs ihc =>
    obtain ⟨hp, hslots, hchildren⟩ := h
    have hrow : ∀ row : List (Nested H), (∀ n ∈ row, ∀ c, n.block = .component c → c.In .created → c.Built → c.Textless →
        ∀ (t : NodeId) (a : Option NodeId) {w : World H}, (c.mountCreated t a w).result = .ok () →
          (c.mountCreated t a w).self.In .mounted → c.findsMarkers w = true) →
        eachOf (·.phase.state = .created) (fun _ => True) row → builtAll row → eachOf (fun _ => True) (fun _ => False) row →
        ∀ n ∈ row, ¬ n.block.In .mounted ∧ ∀ t a w, (n.block.mountCreated t a w).result = .ok () →
          (n.block.mountCreated t a w).self.In .mounted → n.block.findsMarkers w = true := by
      intro row ih hcreated hbuilt htextless n hn
      have hcreated := eachOf_iff.1 hcreated n hn
      have hbuilt := builtAll_iff.1 hbuilt n hn
      have htextless := eachOf_iff.1 htextless n hn
      cases hblock : n.block with
      | text x => rw [hblock] at htextless; exact htextless.elim
      | foreign f => rw [hblock] at hbuilt; exact hbuilt.elim
      | component c =>
        rw [hblock] at hcreated hbuilt htextless
        refine ⟨fun hmounted => ?_, fun t a w => ih n hn c hblock hcreated hbuilt htextless t a⟩
        have hstates : State.created = .mounted := (In.phase hcreated).symm.trans (In.phase hmounted)
        cases hstates
    obtain ⟨fragment, hphase⟩ := Phase.eq_created_of hp
    have hphase : core.phase = .created fragment := hphase
    rw [Component.findsMarkers, hphase]
    rcases mountCreated_cases hphase target anchor slots children w with ⟨fault, heq⟩ |
      ⟨hbind, slotSpots, childSpots, hslotSpots, hchildSpots, heq⟩
    · rw [heq] at hok
      cases hok
    · rw [heq, Core.mountBlocks] at hok hin
      dsimp only at hok hin ⊢
      rw [hbind, hslotSpots, hchildSpots]
      dsimp only
      generalize ((core.bind fragment w).world.document.children fragment).filter
        (!((slotSpots ++ childSpots).map (·.2)).contains ·) = roots at hok hin ⊢
      generalize Core.handles { (core.bind fragment w).self with roots } = held at hok hin ⊢
      have hcontents := rowFindsMarkers_of_mounted (hrow slots ihs hslots hb.2.2.1 ht.2.1) fragment held
        (childSpots.map (·.2)) slotSpots (core.bind fragment w).world
      generalize mountRow fragment held (childSpots.map (·.2)) slots slotSpots (core.bind fragment w).world = contents
        at hok hin hcontents ⊢
      cases hfirst : contents.result with
      | error fault =>
        rw [hfirst] at hok
        cases hok
      | ok =>
        rw [hfirst] at hok hin
        dsimp only at hok hin
        have hkids := rowFindsMarkers_of_mounted (hrow children ihc hchildren hb.2.2.2 ht.2.2) fragment
          (held ++ handlesOf contents.self) [] childSpots contents.world
        cases hsecond : (mountRow fragment (held ++ handlesOf contents.self) [] children childSpots contents.world).result with
        | error fault =>
          rw [hsecond] at hok
          cases hok
        | ok =>
          rw [hsecond] at hin
          obtain ⟨-, hinSlots, hinChildren⟩ := hin
          exact Bool.and_eq_true_iff.2 ⟨hcontents hfirst (eachOf_iff.1 hinSlots), hkids hsecond (eachOf_iff.1 hinChildren)⟩

/-- a mount that does not fail has lost no marker -/
theorem In.findsFor {s : State} {c : Component H} (h : c.In s) (hs : s ≠ .mounted) (hb : c.Built) (ht : c.Textless)
    (target : NodeId) (anchor : Option NodeId) {w : World H} (hok : (c.mount target anchor w).result = .ok ())
    (hin : (c.mount target anchor w).self.In .mounted) : c.findsFor w (.mount target anchor) = true := by
  have hnew : s = .unmounted ∨ s = .destroyed → (c.create w).self.findsMarkers (c.create w).world = true := by
    intro hnew
    obtain ⟨hcreate, hcreated⟩ := h.create hnew ForeignBlocks.willing_none hb.guests w
    have hp := Phase.not_active_of (h.phase.symm ▸ hnew)
    rw [mount_of_ok hp target anchor hcreate] at hok hin
    have hlike := c.create_values w
    exact hcreated.findsMarkers (hlike.built_of_values hb) (hlike.each (fun _ _ _ => id) (fun _ _ _ => id) ht) target anchor
      hok hin
  rw [Component.findsFor]
  cases s with
  | mounted => exact absurd rfl hs
  | unmounted =>
    rw [Phase.eq_unmounted_of h.phase]
    exact hnew (.inl rfl)
  | destroyed =>
    rw [Phase.eq_destroyed_of h.phase]
    exact hnew (.inr rfl)
  | created =>
    obtain ⟨fragment, hp⟩ := Phase.eq_created_of h.phase
    rw [mount, hp] at hok hin
    rw [hp]
    exact h.findsMarkers hb ht target anchor hok hin

end Component

/-! ## Lives -/

namespace Life

variable {t : Template (Action H)}

/-- the calls of these moves, each with the world that it is made in -/
def trace (l : Life H) : List Move → List (Call NodeId × World H)
  | [] => []
  | move :: moves => (move.call, l.world) :: (l.step move).trace moves

/-- an allowed call loses no marker -/
theorem findsFor_of_lives (ht : t.Everywhere Template.Sound) (hq : t.Everywhere Template.Quiet) {g : History} {l : Life H}
    (h : Lives t g l) {call : Call NodeId} (ha : l.Allows call) : l.component.findsFor l.world call = true := by
  cases call with
  | mount target anchor =>
    obtain ⟨X, F, hX, -⟩ := h.stands
    obtain ⟨hin, hbuilt, htextless⟩ := hX.nested
    by_cases hs : l.component.state = .mounted
    · have hp : l.component.core.phase = .mounted := Phase.eq_mounted_of hs
      rw [Component.findsFor, hp]
    · obtain ⟨hsteps, hstate, hok⟩ := h.step_mount ht hq .kept ha
      obtain ⟨Y, G, hY, -⟩ := hsteps.lives.stands
      rw [hstate] at hY
      exact hin.findsFor hs hbuilt htextless target anchor (hok hs) hY.nested.1
  | _ => rfl

theorem findsAll_of_lives (ht : t.Everywhere Template.Sound) (hq : t.Everywhere Template.Quiet) {g : History} {l : Life H}
    (h : Lives t g l) {calls : List (Call NodeId)} (hl : l.Legal (calls.map (⟨·, .kept⟩))) :
    l.component.findsAll (l.trace (calls.map (⟨·, .kept⟩))) = true := by
  induction calls generalizing l g with
  | nil => rfl
  | cons call calls ih =>
    obtain ⟨hallows, hlegal⟩ := hl
    exact Bool.and_eq_true_iff.2 ⟨findsFor_of_lives ht hq h hallows, ih (h.step ht hq ⟨call, .kept⟩ hallows).lives hlegal⟩

/-- **No marker is lost** by allowed calls on a faithful backend, if the template is accepted, its literals name no marker
and its actions leave the document alone, and those of all that are embedded in it. So what `Component.lifecycle` asks for
holds of every such run. -/
theorem findsAll_trace (ha : t.Everywhere Template.Accepted) (hf : t.Everywhere Template.MarkerFree)
    (hq : t.Everywhere Template.Quiet) {w : World H} (hb : w.backend = .faithful) (hw : w.document.Valid)
    (options : Options H) {calls : List (Call NodeId)} (hl : (start t options w).Legal (calls.map (⟨·, .kept⟩))) :
    (start t options w).component.findsAll ((start t options w).trace (calls.map (⟨·, .kept⟩))) = true :=
  findsAll_of_lives (ha.sound hf) hq (lives_start t options hb hw) hl

end Life

end LiveMarkup
