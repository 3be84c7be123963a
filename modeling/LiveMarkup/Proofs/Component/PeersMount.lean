/-
Mounting one component in two worlds that look the same.

Mounting is where attributes are renamed: the marker of an attribute placeholder becomes the attribute. The marker is found
below the component's own fragment, so it is on a newer element and stands there once, and after it is renamed either way
the worlds look the same again. All other steps of a mount are the same in both worlds.

- `Block.Impartial.mountCreated`, `Component.call_impartial`: one call in both worlds;
- `Component.run_impartial`: any calls one after another;
- `Component.start_impartial`: from a template on.
-/
import LiveMarkup.Proofs.Component.Peers
import LiveMarkup.Proofs.Component.Start

namespace LiveMarkup

variable {H : Host} {τ : Terms H} {w w' : World H}

/-! ## Binding -/

theorem bindTexts_impartial (fragment : NodeId) {cells : List TextCell} (hcells : ∀ cell ∈ cells, τ.floor ≤ cell.node)
    (h : w.Peers τ w') :
    Outcome.Coincide τ (fun _ => True) (bindTexts fragment cells w) (bindTexts fragment cells w') := by
  induction cells generalizing w w' with
  | nil => exact ⟨rfl, rfl, h, trivial⟩
  | cons cell cells ih =>
    rw [List.forall_mem_cons] at hcells
    rw [bindTexts, bindTexts, h.marker]
    cases w.marker fragment ⟨.text, cell.index⟩ with
    | error fault => exact ⟨rfl, rfl, h, trivial⟩
    | ok spot => exact ih hcells.2 (h.replaceWith spot hcells.1)

theorem attachListeners_impartial {T : Type} (fragment : NodeId) (channel index : Nat)
    (ps : List (Placeholder (Action H) T)) (h : w.Peers τ w') :
    Outcome.Coincide τ (fun cleanups => ∀ cleanup ∈ cleanups, World.Impartial τ (Cleanup.run · cleanup))
      (attachListeners fragment channel index ps w) (attachListeners fragment channel index ps w') := by
  induction ps generalizing index w w' with
  | nil => exact ⟨rfl, rfl, h, List.forall_mem_nil _⟩
  | cons p ps ih =>
    cases p with
    | event event topic =>
      rw [attachListeners, attachListeners]
      dsimp only
      rw [h.marker]
      cases w.marker fragment ⟨.event, index⟩ with
      | error fault => exact ⟨rfl, rfl, h, List.forall_mem_nil _⟩
      | ok element =>
        obtain ⟨hlistens, hticket⟩ :=
          (h.removeAttribute element (Marker.name ⟨.event, index⟩)).listen element event (.channel channel topic)
        dsimp only
        rw [hticket]
        exact (ih (index + 1) hlistens).map fun cleanups hin => List.forall_mem_cons.2
          ⟨fun _ _ hpeers => hpeers.unlisten element _, hin⟩
    | _ => exact ih (index + 1) h

section

variable {fragment : NodeId} (hf : τ.floor ≤ fragment)
include hf

theorem bindAttributes_impartial {cells : List AttributeCell}
    (hcells : ∀ cell ∈ cells, cell.index < Marker.indexLimit) (h : w.Peers τ w') :
    Outcome.Coincide τ (fun cells => ∀ cell ∈ cells, cell.index < Marker.indexLimit) (bindAttributes fragment cells w)
      (bindAttributes fragment cells w') := by
  induction cells generalizing w w' with
  | nil => exact ⟨rfl, rfl, h, List.forall_mem_nil _⟩
  | cons cell cells ih =>
    have hall := hcells
    rw [List.forall_mem_cons] at hcells
    rw [bindAttributes, bindAttributes, h.marker]
    cases hmarker : w.marker fragment ⟨.attribute, cell.index⟩ with
    | error fault => exact ⟨rfl, rfl, h, hall⟩
    | ok element =>
      have hrenamed := h.renameAttribute (h.le_of_marker hf hmarker) hcells.1 cell.name cell.value
      exact (ih hcells.2 hrenamed).map fun cells hin => List.forall_mem_cons.2 ⟨hcells.1, hin⟩

theorem runActions_impartial {T : Type} (props : Props) (index : Nat) {ps : List (Placeholder (Action H) T)}
    (hps : ∀ run param, .action run param ∈ ps → Action.Impartial τ run) (h : w.Peers τ w') :
    Outcome.Coincide τ (fun left => (∀ cleanup ∈ left.1, World.Impartial τ (Cleanup.run · cleanup)) ∧
        ∀ hook ∈ left.2, ∀ value, World.Impartial τ (hook.run value))
      (runActions fragment props index ps w) (runActions fragment props index ps w') := by
  induction ps generalizing index w w' with
  | nil => exact ⟨rfl, rfl, h, List.forall_mem_nil _, List.forall_mem_nil _⟩
  | cons p ps ih =>
    have hrest := fun run param hin => hps run param (List.mem_cons_of_mem _ hin)
    cases p with
    | action run param =>
      rw [runActions, runActions]
      dsimp only
      rw [h.marker]
      cases hmarker : w.marker fragment ⟨.action, index⟩ with
      | error fault => exact ⟨rfl, rfl, h, List.forall_mem_nil _, List.forall_mem_nil _⟩
      | ok element =>
        obtain ⟨hworld, hsame, hleft⟩ := hps run param List.mem_cons_self element (param.bind props.get?) _ _
          (h.le_of_marker hf hmarker) (h.removeAttribute element (Marker.name ⟨.action, index⟩))
        dsimp only
        rw [hsame]
        refine (ih (index + 1) hrest hworld).map fun left hin => ⟨List.forall_mem_append.2 ⟨fun cleanup hc => ?_, hin.1⟩,
          List.forall_mem_append.2 ⟨fun hook hh => ?_, hin.2⟩⟩
        · obtain ⟨destroy, hd, rfl⟩ := Option.map_eq_some_iff.1 (Option.mem_toList.1 hc)
          exact hleft.destroy destroy hd
        · obtain ⟨update, hu, rfl⟩ := Option.map_eq_some_iff.1 (Option.mem_toList.1 hh)
          exact hleft.update update hu
    | _ => exact ih (index + 1) hrest h

theorem Core.Impartial.bind {c : Core H} (hc : c.Impartial τ) (h : w.Peers τ w') :
    Outcome.Coincide τ (Core.Impartial τ) (c.bind fragment w) (c.bind fragment w') := by
  unfold Core.bind
  dsimp only
  obtain ⟨_, result, u, u', ho, ho', hu, -⟩ := (bindTexts_impartial fragment hc.texts h).parts
  rw [ho, ho']
  cases result with
  | error fault => exact ⟨rfl, rfl, hu, hc⟩
  | ok =>
    dsimp only
    obtain ⟨cells, result, v, v', hq, hq', hv, hcells⟩ := (bindAttributes_impartial hf hc.cells hu).parts
    rw [hq, hq']
    cases result with
    | error fault => exact ⟨rfl, rfl, hv, { hc with cells := hcells }⟩
    | ok =>
      dsimp only
      obtain ⟨cleanups, result, y, y', hr, hr', hy, hcleanups⟩ :=
        (attachListeners_impartial fragment c.channel 0 c.template.placeholders hv).parts
      have hattached := List.forall_mem_append.2 ⟨hc.cleanups, hcleanups⟩
      rw [hr, hr']
      cases result with
      | error fault => exact ⟨rfl, rfl, hy, { hc with cells := hcells, cleanups := hattached }⟩
      | ok =>
        exact (runActions_impartial hf c.props 0 hc.actions hy).map fun left hleft =>
          { hc with
            cells := hcells
            cleanups := List.forall_mem_append.2 ⟨hattached, hleft.1⟩
            hooks := List.forall_mem_append.2 ⟨hc.hooks, hleft.2⟩ }

end

/-! ## Mounting -/

theorem World.Peers.discardAll (held : List NodeId) (spots : List (Nat × NodeId)) (h : w.Peers τ w') :
    (w.discardAll held spots).Peers τ (w'.discardAll held spots) := by
  induction spots generalizing w w' with
  | nil => exact h
  | cons spot spots ih => exact ih (h.discard _ spot.2)

theorem TextBlock.Newer.mount {t : TextBlock} (ht : t.Newer τ.floor) (target : NodeId) (anchor : Option NodeId)
    (h : w.Peers τ w') : (t.mount target anchor w').1 = (t.mount target anchor w).1 ∧
      (t.mount target anchor w).2.Peers τ (t.mount target anchor w').2 ∧ (t.mount target anchor w).1.Newer τ.floor := by
  obtain ⟨hsame, hworld, hnewer⟩ := ht.create h
  unfold TextBlock.mount
  dsimp only
  rw [hsame]
  refine ⟨rfl, ?_, hnewer⟩
  cases hnode : (t.create w).1.node with
  | none => exact hworld
  | some node => exact hworld.insertBefore target (hnewer node hnode) anchor

variable [ForeignBlocks H]

theorem Component.abandon_impartial (hhost : ForeignBlocks.Impartial τ) {c : Component H}
    (hc : (Block.component c).Impartial τ) (fault : LifecycleFault) (h : w.Peers τ w') :
    Outcome.Coincide τ (fun c => (Block.component c).Impartial τ) (c.abandon fault w) (c.abandon fault w') := by
  have hblock := hc.destroy hhost false h
  have hsame : (c.destroy false w').self = (c.destroy false w).self := Block.component.inj hblock.self
  have hkept : (Block.component (c.destroy false w).self).Impartial τ := hblock.kept
  unfold abandon
  dsimp only
  rw [hsame]
  refine ⟨rfl, rfl, hblock.world, ?_⟩
  generalize (c.destroy false w).self = gone at hkept
  obtain ⟨core, slots, children⟩ := gone
  obtain ⟨hcore, hrows⟩ := impartial_mk.1 hkept
  exact impartial_mk.2 ⟨{ hcore with fragment := fun _ hx => absurd hx (Option.not_mem_none _) }, hrows⟩

theorem mountRow_impartial {row : List (Nested H)} (hr : ∀ n ∈ row, n.block.Impartial τ)
    (ih : ∀ n ∈ row, ∀ target anchor w w', w.Peers τ w' → Outcome.Coincide τ (Block.Impartial τ)
      (n.block.mountCreated target anchor w) (n.block.mountCreated target anchor w'))
    (fragment : NodeId) (held later : List NodeId) (spots : List (Nat × NodeId)) (h : w.Peers τ w') :
    Outcome.Coincide τ (fun row => ∀ n ∈ row, n.block.Impartial τ) (mountRow fragment held later row spots w)
      (mountRow fragment held later row spots w') := by
  induction row generalizing held spots w w' with
  | nil => exact ⟨rfl, rfl, h.discardAll _ spots, List.forall_mem_nil _⟩
  | cons n row ihr =>
    obtain ⟨index, atRoot, block⟩ := n
    rw [List.forall_mem_cons] at ih hr
    rw [mountRow, mountRow]
    dsimp only
    have hcleared := h.discardAll (held ++ (spots.dropWhile (·.1 ≠ index)).map (·.2) ++ later)
      (spots.takeWhile (·.1 ≠ index))
    generalize w.discardAll (held ++ (spots.dropWhile (·.1 ≠ index)).map (·.2) ++ later)
      (spots.takeWhile (·.1 ≠ index)) = u at hcleared ⊢
    generalize w'.discardAll (held ++ (spots.dropWhile (·.1 ≠ index)).map (·.2) ++ later)
      (spots.takeWhile (·.1 ≠ index)) = u' at hcleared ⊢
    cases spots.dropWhile (·.1 ≠ index) with
    | nil => exact (ihr hr.2 ih.2 held [] hcleared).map fun row hrow => List.forall_mem_cons.2 ⟨hr.1, hrow⟩
    | cons spot after =>
      obtain ⟨place, spot⟩ := spot
      dsimp only
      rw [hcleared.alike.parent?]
      cases u.document.parent? spot with
      | none =>
        exact (ihr hr.2 ih.2 held after (hcleared.discard _ spot)).map
          fun row hrow => List.forall_mem_cons.2 ⟨hr.1, hrow⟩
      | some parent =>
        obtain ⟨mounted, result, v, v', ho, ho', hv, hmounted⟩ := (ih.1 parent (some spot) u u' hcleared).parts
        dsimp only [Nested.block] at ho ho' ⊢
        rw [ho, ho']
        cases result with
        | error fault => exact ⟨rfl, rfl, hv, List.forall_mem_cons.2 ⟨hmounted, hr.2⟩⟩
        | ok =>
          exact (ihr hr.2 ih.2 _ after (hv.discard _ spot)).map
            fun row hrow => List.forall_mem_cons.2 ⟨hmounted, hrow⟩

/-- **Mounting** what has been created. -/
theorem Block.Impartial.mountCreated (hhost : ForeignBlocks.Impartial τ) {b : Block H}
    (hb : b.Impartial τ) (target : NodeId) (anchor : Option NodeId) (h : w.Peers τ w') :
    Outcome.Coincide τ (Block.Impartial τ) (b.mountCreated target anchor w) (b.mountCreated target anchor w') := by
  induction b using Block.induct generalizing target anchor w w' with
  | text t =>
    obtain ⟨hsame, hworld, hnewer⟩ := (impartial_text.1 hb).mount target anchor h
    exact ⟨congrArg Block.text hsame, rfl, hworld, impartial_text.2 hnewer⟩
  | foreign f => exact (hhost.mount target anchor f w w' (impartial_foreign.1 hb) h).map fun f => impartial_foreign.2
  | component core slots children ihs ihc =>
    obtain ⟨hcore, hslots, hchildren⟩ := Component.impartial_mk.1 hb
    refine Outcome.Coincide.component ?_
    rw [Component.mountCreated, Component.mountCreated]
    cases hp : core.phase with
    | mounted | unmounted | destroyed => exact ⟨rfl, rfl, h, hb⟩
    | created fragment =>
      have hf : τ.floor ≤ fragment := hcore.fragment fragment (by rw [hp]; rfl)
      dsimp only
      obtain ⟨own, result, u, u', ho, ho', hu, hown⟩ := (hcore.bind hf h).parts
      rw [ho, ho']
      have hgiven := Component.impartial_mk.2 ⟨hown, hslots, hchildren⟩
      cases result with
      | error fault => exact Component.abandon_impartial hhost hgiven fault hu
      | ok =>
        dsimp only
        rw [hu.spots, hu.spots, hu.alike.children]
        cases u.spots fragment .slot (indicesOf core.template.placeholders .slot) with
        | error fault => exact Component.abandon_impartial hhost hgiven fault hu
        | ok slotSpots =>
          cases u.spots fragment .child (indicesOf core.template.placeholders .child) with
          | error fault => exact Component.abandon_impartial hhost hgiven fault hu
          | ok childSpots =>
            dsimp only
            generalize (u.document.children fragment).filter (!((slotSpots ++ childSpots).map (·.2)).contains ·) = roots
            have hrooted : Core.Impartial τ { own with roots } := { hown with }
            generalize Core.handles { own with roots } = held
            obtain ⟨contents, result, v, v', hq, hq', hv, hcontents⟩ :=
              (mountRow_impartial hslots (fun n hn target anchor _ _ => ihs n hn (hslots n hn) target anchor) fragment held
                (childSpots.map (·.2)) slotSpots hu).parts
            rw [hq, hq']
            cases result with
            | error fault =>
              exact Component.abandon_impartial hhost (Component.impartial_mk.2 ⟨hrooted, hcontents, hchildren⟩) fault hv
            | ok =>
              dsimp only
              obtain ⟨kids, result, y, y', hr, hr', hy, hkids⟩ :=
                (mountRow_impartial hchildren (fun n hn target anchor _ _ => ihc n hn (hchildren n hn) target anchor)
                  fragment (held ++ handlesOf contents) [] childSpots hv).parts
              rw [hr, hr']
              cases result with
              | error fault =>
                exact Component.abandon_impartial hhost (Component.impartial_mk.2 ⟨hrooted, hcontents, hkids⟩) fault hy
              | ok =>
                exact ⟨rfl, rfl, hy.insertBefore target hf anchor, Component.impartial_mk.2
                  ⟨{ hown with fragment := fun _ hx => absurd hx (Option.not_mem_none _) }, hcontents, hkids⟩⟩

namespace Component

variable {c : Component H} (hhost : ForeignBlocks.Impartial τ) (hc : (Block.component c).Impartial τ)
  (h : w.Peers τ w')
include hhost hc h

theorem create_impartial :
    Outcome.Coincide τ (fun c => (Block.component c).Impartial τ) (c.create w) (c.create w') := by
  have hblock := hc.create hhost h
  exact ⟨Block.component.inj hblock.self, hblock.result, hblock.world, hblock.kept⟩

theorem mountCreated_impartial (target : NodeId) (anchor : Option NodeId) :
    Outcome.Coincide τ (fun c => (Block.component c).Impartial τ) (c.mountCreated target anchor w)
      (c.mountCreated target anchor w') := by
  have hblock := hc.mountCreated hhost target anchor h
  exact ⟨Block.component.inj hblock.self, hblock.result, hblock.world, hblock.kept⟩

theorem mount_impartial (target : NodeId) (anchor : Option NodeId) :
    Outcome.Coincide τ (fun c => (Block.component c).Impartial τ) (c.mount target anchor w)
      (c.mount target anchor w') := by
  unfold mount
  cases c.core.phase with
  | mounted => exact ⟨rfl, rfl, h, hc⟩
  | created fragment => exact mountCreated_impartial hhost hc h target anchor
  | unmounted | destroyed =>
    obtain ⟨made, result, u, u', ho, ho', hu, hmade⟩ := (create_impartial hhost hc h).parts
    dsimp only
    rw [ho, ho']
    cases result with
    | error fault => exact ⟨rfl, rfl, hu, hmade⟩
    | ok => exact mountCreated_impartial hhost hmade hu target anchor

/-- **One call** in both worlds. -/
theorem call_impartial (call : Call NodeId) :
    Outcome.Coincide τ (fun c => (Block.component c).Impartial τ) (c.call w call) (c.call w' call) := by
  cases call with
  | create => exact create_impartial hhost hc h
  | mount target anchor => exact mount_impartial hhost hc h target anchor
  | update changed =>
    have hblock := hc.update hhost changed h
    exact ⟨Block.component.inj hblock.self, hblock.result, hblock.world, hblock.kept⟩
  | set incoming => exact tick_impartial hhost hc incoming none h
  | tick incoming context => exact tick_impartial hhost hc incoming context h
  | transition t isLocal =>
    obtain ⟨hsame, hworld, hkept⟩ := hc.transition hhost t isLocal h
    exact ⟨Block.component.inj hsame, rfl, hworld, hkept⟩
  | destroy detaching =>
    have hblock := hc.destroy hhost detaching h
    exact ⟨Block.component.inj hblock.self, hblock.result, hblock.world, hblock.kept⟩

/-- **Any calls** one after another. -/
theorem run_impartial (calls : List (Call NodeId)) : ∃ left u u', c.run w calls = (left, u) ∧
    c.run w' calls = (left, u') ∧ u.Peers τ u' ∧ (Block.component left).Impartial τ := by
  induction calls generalizing c w w' with
  | nil => exact ⟨c, w, w', rfl, rfl, h, hc⟩
  | cons call calls ih =>
    have hcall := call_impartial hhost hc h call
    have hrun : ∀ v : World H, c.run v (call :: calls) = (c.call v call).self.run (c.call v call).world calls := fun _ => rfl
    rw [hrun, hrun, hcall.self]
    exact ih hcall.kept hcall.world

end Component

end LiveMarkup
