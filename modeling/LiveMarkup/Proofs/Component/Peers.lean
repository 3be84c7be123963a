/-
One component in two worlds that look the same.

Two worlds are peers if their documents are alike and what else there is in them is equal, up to how attributes are
renamed and what the host keeps. From some node on both documents are neat, so that markers stand once where components look
for them. A component that is handed the same calls in both comes out as the same component, with the same results, and
leaves peers behind: it looks up the same, and what it changes it changes in both.

What a host adds has to take part in this. An action is impartial if it makes peers of peers and leaves the same behind,
which is impartial in turn; the same is asked of blocks of the host.

- `World.Peers.insertBefore`, `World.Peers.marker` and others: single changes and look-ups;
- `Block.Impartial.create`, `Block.Impartial.update`, `Block.Impartial.destroy`: one call in both worlds.
-/
import LiveMarkup.Proofs.Document.Neat
import LiveMarkup.Proofs.Component.Tick
import LiveMarkup.Proofs.Component.Zone

namespace LiveMarkup

variable {H : Host}

/-! ## Two worlds -/

/-- what two worlds are compared on -/
structure Terms (H : Host) where
  /-- nodes from this one on belong to the component -/
  floor : NodeId
  /-- how what the host keeps in the one world relates to what it keeps in the other -/
  outside : H.Outside → H.Outside → Prop
  /-- the blocks of the host that take part -/
  guest : H.Foreign → Prop

/-- nobody who looks things up can tell the two worlds apart; where the component's nodes are, both are neat -/
structure World.Peers (τ : Terms H) (w w' : World H) : Prop where
  alike : w.document.Alike w'.document
  left : w.document.Neat τ.floor
  right : w'.document.Neat τ.floor
  channels : w'.channels = w.channels
  finds : w'.backend.finds = w.backend.finds
  outside : τ.outside w.outside w'.outside
  passing : w'.passing = w.passing

namespace World.Peers

variable {τ : Terms H} {w w' : World H} (h : w.Peers τ w')
include h

theorem edit (f f' : Document (Listener H.Handler) → Document (Listener H.Handler))
    (ha : (f w.document).Alike (f' w'.document)) (hl : (f w.document).Neat τ.floor) (hr : (f' w'.document).Neat τ.floor) :
    (w.edit f).Peers τ (w'.edit f') := ⟨ha, hl, hr, h.channels, h.finds, h.outside, h.passing⟩

/-- what is written into a node, unless it is that an attribute is renamed -/
theorem write (x : NodeId) (writing : Writing (Listener H.Handler))
    (hw : ∀ source target value, writing ≠ .renameAttribute source target value) :
    (w.edit (writing.perform x)).Peers τ (w'.edit (writing.perform x)) :=
  h.edit _ _ (h.alike.write x hw) (h.left.write x writing) (h.right.write x writing)

theorem setAttribute (x : NodeId) (name value : String) :
    (w.edit (·.setAttribute x name value)).Peers τ (w'.edit (·.setAttribute x name value)) :=
  h.write x (.setAttribute name value) nofun

theorem removeAttribute (x : NodeId) (name : String) :
    (w.edit (·.removeAttribute x name)).Peers τ (w'.edit (·.removeAttribute x name)) :=
  h.write x (.removeAttribute name) nofun

/-- a marker is renamed the one way or the other -/
theorem renameAttribute {x index : Nat} (hx : τ.floor ≤ x) (hi : index < Marker.indexLimit) (target value : String) :
    (w.renameAttribute x (Marker.name ⟨.attribute, index⟩) target value).Peers τ
      (w'.renameAttribute x (Marker.name ⟨.attribute, index⟩) target value) :=
  h.edit _ _ (h.alike.renamed h.left.valid h.right.valid (h.left.once hx hi) (h.right.once hx hi) _ _ target value)
    (h.left.renamed w.backend.renamesInPlace x _ target value) (h.right.renamed w'.backend.renamesInPlace x _ target value)

theorem insertBefore (p : NodeId) {x : NodeId} (hx : τ.floor ≤ x) (anchor : Option NodeId) :
    (w.edit (·.insertBefore p x anchor)).Peers τ (w'.edit (·.insertBefore p x anchor)) :=
  h.edit _ _ (h.alike.insertBefore p x anchor) (h.left.insertBefore p hx anchor) (h.right.insertBefore p hx anchor)

theorem replaceWith (old : NodeId) {new : NodeId} (hnew : τ.floor ≤ new) :
    (w.edit (·.replaceWith old new)).Peers τ (w'.edit (·.replaceWith old new)) :=
  h.edit _ _ (h.alike.replaceWith old new) (h.left.replaceWith old hnew) (h.right.replaceWith old hnew)

theorem detach (x : NodeId) : (w.edit (·.detach x)).Peers τ (w'.edit (·.detach x)) :=
  h.edit _ _ (h.alike.detach x) (h.left.detach x) (h.right.detach x)

theorem discard (held : List NodeId) (x : NodeId) : (w.discard held x).Peers τ (w'.discard held x) :=
  h.edit _ _ (h.alike.discard held.contains x) (h.left.discard held.contains x) (h.right.discard held.contains x)

theorem listen (x : NodeId) (event : String) (listener : Listener H.Handler) :
    (w.listen x event listener).1.Peers τ (w'.listen x event listener).1 ∧
      (w'.listen x event listener).2 = (w.listen x event listener).2 :=
  ⟨h.write x (.listen event listener) nofun, (h.alike.listen x event listener).2⟩

theorem add (kind : Kind) (hk : Tidy kind.attributes) :
    (w.edit fun d => (d.add kind).1).Peers τ (w'.edit fun d => (d.add kind).1) ∧
      (w'.document.add kind).2 = (w.document.add kind).2 ∧ τ.floor ≤ (w.document.add kind).2 := by
  obtain ⟨ha, hid⟩ := h.alike.add kind
  exact ⟨h.edit _ _ ha (h.left.add hk) (h.right.add hk), hid, h.left.floor⟩

theorem unlisten (x : NodeId) (ticket : Nat) :
    (w.edit (·.unlisten x ticket)).Peers τ (w'.edit (·.unlisten x ticket)) := h.write x (.unlisten ticket) nofun

theorem addText (data : String) : (w.addText data).1.Peers τ (w'.addText data).1 ∧
    (w'.addText data).2 = (w.addText data).2 ∧ τ.floor ≤ (w.addText data).2 := h.add (.text data) .nil

theorem addFragment {nodes : List Markup.Node} (hn : (markersOfAll nodes).Nodup) :
    (w.addFragment nodes).1.Peers τ (w'.addFragment nodes).1 ∧ (w'.addFragment nodes).2 = (w.addFragment nodes).2 ∧
      τ.floor ≤ (w.addFragment nodes).2 := by
  obtain ⟨ha, hid⟩ := h.alike.addFragment nodes
  exact ⟨h.edit (fun d => (d.addFragment nodes).1) (fun d => (d.addFragment nodes).1) ha
    (h.left.addFragment hn) (h.right.addFragment hn), hid, h.left.floor⟩

theorem openChannel : w.openChannel.1.Peers τ w'.openChannel.1 ∧ w'.openChannel.2 = w.openChannel.2 := by
  unfold World.openChannel
  rw [h.channels]
  exact ⟨⟨h.alike, h.left, h.right, rfl, h.finds, h.outside, h.passing⟩, rfl⟩

theorem updateChannel (id : Nat) (f : Channel H.Handler → Channel H.Handler) :
    (w.updateChannel id f).Peers τ (w'.updateChannel id f) :=
  ⟨h.alike, h.left, h.right, congrArg (·.modify id f) h.channels, h.finds, h.outside, h.passing⟩

/-! ## Markers -/

theorem marker (fragment : NodeId) (k : Marker) : w'.marker fragment k = w.marker fragment k := by
  unfold World.marker World.findAttribute? World.findElement?
  rw [h.finds, h.alike.findAttribute?, h.alike.findElement?]

/-- a marker below a newer node is newer -/
theorem le_of_marker {fragment x : NodeId} {k : Marker} (hf : τ.floor ≤ fragment) (hx : w.marker fragment k = .ok x) :
    τ.floor ≤ x := by
  have hbelow : ∀ test, w.document.firstBelow? fragment test = some x → τ.floor ≤ x := fun test hfirst => by
    obtain ⟨n, hn, rfl⟩ := Option.map_eq_some_iff.1 hfirst
    refine h.left.le_of_contains hf ?_
    rw [Document.contains, Bool.or_eq_true]
    exact .inr (List.any_eq_true.2 ⟨n, List.mem_of_find?_eq_some hn, Document.isNode_iff.2 rfl⟩)
  unfold World.marker World.findAttribute? World.findElement? at hx
  split at hx
  · next hfound =>
    obtain rfl := Except.ok.inj hx
    split at hfound <;> split at hfound
    · exact hbelow _ hfound
    · cases hfound
    · exact hbelow _ hfound
    · cases hfound
  · cases hx

theorem spots (fragment : NodeId) (category : Category) (indices : List Nat) :
    w'.spots fragment category indices = w.spots fragment category indices := by
  induction indices with
  | nil => rfl
  | cons index indices ih => rw [World.spots, World.spots, h.marker, ih]

end World.Peers

/-! ## What takes part -/

/-- peers come out as peers -/
def World.Impartial (τ : Terms H) (f : World H → World H) : Prop := ∀ w w', w.Peers τ w' → (f w).Peers τ (f w')

structure Handle.Impartial (τ : Terms H) (handle : Handle H) : Prop where
  update : ∀ run ∈ handle.update, ∀ value, World.Impartial τ (run value)
  destroy : ∀ run ∈ handle.destroy, World.Impartial τ run

/-- run on a newer element of peers, the action makes peers of them and leaves the same behind -/
def Action.Impartial (τ : Terms H) (run : Action H) : Prop :=
  ∀ x value w w', τ.floor ≤ x → w.Peers τ w' → (run x value w).1.Peers τ (run x value w').1 ∧
    (run x value w').2 = (run x value w).2 ∧ (run x value w).2.Impartial τ

def Template.Impartial (τ : Terms H) (t : Template (Action H)) : Prop :=
  ∀ run param, .action run param ∈ t.placeholders → Action.Impartial τ run

/-- a component whose own nodes are newer, and which runs nothing that is not impartial -/
structure Core.Impartial (τ : Terms H) (c : Core H) : Prop where
  sound : c.template.Sound
  actions : c.template.Impartial τ
  fragment : ∀ x ∈ c.phase.handle?, τ.floor ≤ x
  texts : ∀ cell ∈ c.textCells, τ.floor ≤ cell.node
  cells : ∀ cell ∈ c.attributeCells, cell.index < Marker.indexLimit
  cleanups : ∀ cleanup ∈ c.cleanups, World.Impartial τ (Cleanup.run · cleanup)
  hooks : ∀ hook ∈ c.updateHooks, ∀ value, World.Impartial τ (hook.run value)

def TextBlock.Newer (m : NodeId) (t : TextBlock) : Prop := ∀ x ∈ t.node, m ≤ x

/-- all components, texts and blocks of the host that are nested somewhere take part -/
structure Block.Impartial (τ : Terms H) (b : Block H) : Prop where
  each : b.Each (Core.Impartial τ) (TextBlock.Newer τ.floor)
  guests : b.Guests τ.guest

/-- two calls that came to the same, with something kept -/
structure Outcome.Coincide {α : Type} (τ : Terms H) (kept : α → Prop) (o o' : Outcome H α) : Prop where
  self : o'.self = o.self
  result : o'.result = o.result
  world : o.world.Peers τ o'.world
  kept : kept o.self

/-- blocks of the host that take part -/
structure ForeignBlocks.Impartial [ForeignBlocks H] (τ : Terms H) : Prop where
  create : ∀ f (w w' : World H), τ.guest f → w.Peers τ w' →
    Outcome.Coincide τ τ.guest (ForeignBlocks.create f w) (ForeignBlocks.create f w')
  mount : ∀ target anchor f (w w' : World H), τ.guest f → w.Peers τ w' →
    Outcome.Coincide τ τ.guest (ForeignBlocks.mount target anchor f w) (ForeignBlocks.mount target anchor f w')
  update : ∀ changed f (w w' : World H), τ.guest f → w.Peers τ w' →
    Outcome.Coincide τ τ.guest (ForeignBlocks.update changed f w) (ForeignBlocks.update changed f w')
  destroy : ∀ detaching f (w w' : World H), τ.guest f → w.Peers τ w' →
    Outcome.Coincide τ τ.guest (ForeignBlocks.destroy detaching f w) (ForeignBlocks.destroy detaching f w')
  transition : ∀ t isLocal f (w w' : World H), τ.guest f → w.Peers τ w' →
    (ForeignBlocks.transition t isLocal f w').1 = (ForeignBlocks.transition t isLocal f w).1 ∧
      (ForeignBlocks.transition t isLocal f w).2.Peers τ (ForeignBlocks.transition t isLocal f w').2 ∧
      τ.guest (ForeignBlocks.transition t isLocal f w).1

namespace Outcome.Coincide

variable {α β : Type} {τ : Terms H} {kept : α → Prop} {kept' : β → Prop} {o o' : Outcome H α}

/-- the two outcomes part by part -/
theorem parts (h : Coincide τ kept o o') : ∃ a result u u', o = ⟨a, u, result⟩ ∧ o' = ⟨a, u', result⟩ ∧
    u.Peers τ u' ∧ kept a := by
  obtain ⟨a, u, result⟩ := o
  obtain ⟨a', u', result'⟩ := o'
  obtain ⟨rfl, rfl, hu, hk⟩ := h
  exact ⟨_, _, u, u', rfl, rfl, hu, hk⟩

theorem map (h : Coincide τ kept o o') {f : α → β} (hf : ∀ a, kept a → kept' (f a)) : Coincide τ kept' (o.map f) (o'.map f) :=
  ⟨congrArg f h.self, h.result, h.world, hf _ h.kept⟩

end Outcome.Coincide

section

variable {τ : Terms H}

theorem Block.impartial_text {t : TextBlock} : (Block.text t : Block H).Impartial τ ↔ t.Newer τ.floor :=
  ⟨fun h => h.each, fun h => ⟨h, trivial⟩⟩

theorem Block.impartial_foreign {f : H.Foreign} : (Block.foreign f).Impartial τ ↔ τ.guest f :=
  ⟨fun h => h.guests, fun h => ⟨trivial, h⟩⟩

theorem Component.impartial_mk {core : Core H} {slots children : List (Nested H)} :
    (Block.component (.mk core slots children)).Impartial τ ↔ core.Impartial τ ∧
      (∀ n ∈ slots, n.block.Impartial τ) ∧ ∀ n ∈ children, n.block.Impartial τ := by
  have hrow : ∀ row : List (Nested H), (∀ n ∈ row, n.block.Impartial τ) ↔
      eachOf (Core.Impartial τ) (TextBlock.Newer τ.floor) row ∧ guestsOf τ.guest row := by
    intro row
    rw [eachOf_iff, guestsOf_iff]
    exact ⟨fun h => ⟨fun n hn => (h n hn).each, fun n hn => (h n hn).guests⟩, fun h n hn => ⟨h.1 n hn, h.2 n hn⟩⟩
  rw [hrow, hrow]
  constructor
  · rintro ⟨⟨hcore, hslots, hchildren⟩, hgs, hgc⟩
    exact ⟨hcore, ⟨hslots, hgs⟩, hchildren, hgc⟩
  · rintro ⟨hcore, ⟨hslots, hgs⟩, hchildren, hgc⟩
    exact ⟨⟨hcore, hslots, hchildren⟩, hgs, hgc⟩

theorem Outcome.Coincide.component {o o' : Outcome H (Component H)}
    (h : Outcome.Coincide τ (fun c => (Block.component c).Impartial τ) o o') :
    Outcome.Coincide τ (Block.Impartial τ) (o.map .component) (o'.map .component) :=
  h.map fun _ hc => hc

/-- nothing is left that would have to take part -/
theorem Core.Impartial.cleared {c : Core H} (h : c.Impartial τ) : c.cleared.Impartial τ where
  sound := h.sound
  actions := h.actions
  fragment _ hx := absurd hx (Option.not_mem_none _)
  texts := List.forall_mem_nil _
  cells := List.forall_mem_nil _
  cleanups := List.forall_mem_nil _
  hooks := List.forall_mem_nil _

end

variable {τ : Terms H} {w w' : World H}

/-! ## Creating -/

theorem textCellsFor_peers {T : Type} (props : Props) (index : Nat) (ps : List (Placeholder (Action H) T))
    (h : w.Peers τ w') : (textCellsFor props index ps w').1 = (textCellsFor props index ps w).1 ∧
      (textCellsFor props index ps w).2.Peers τ (textCellsFor props index ps w').2 ∧
      ∀ cell ∈ (textCellsFor props index ps w).1, τ.floor ≤ cell.node := by
  induction ps generalizing index w w' with
  | nil => exact ⟨rfl, h, List.forall_mem_nil _⟩
  | cons p ps ih =>
    cases p with
    | text prop =>
      obtain ⟨hadded, hnode, hnew⟩ := h.addText (props.text prop)
      obtain ⟨hcells, hrest, hnewer⟩ := ih (index + 1) hadded
      rw [textCellsFor, textCellsFor]
      dsimp only
      rw [hcells, hnode]
      exact ⟨rfl, hrest, List.forall_mem_cons.2 ⟨hnew, hnewer⟩⟩
    | _ => exact ih (index + 1) h

/-- the marker of a cell is the marker of its placeholder -/
theorem mem_markersFor_of_cell {T : Type} {props : Props} {index : Nat} {ps : List (Placeholder (Action H) T)}
    {cell : AttributeCell} (h : cell ∈ attributeCellsFor props index ps) :
    (⟨.attribute, cell.index⟩ : Marker) ∈ markersFor index ps := by
  induction ps generalizing index with
  | nil => cases h
  | cons p ps ih =>
    rw [markersFor]
    cases p with
    | «attribute» prop name =>
      rcases List.mem_cons.1 h with rfl | h
      · exact List.mem_cons_self
      · exact List.mem_cons_of_mem _ (ih h)
    | _ => exact List.mem_cons_of_mem _ (ih h)

namespace Core.Impartial

variable {c : Core H} (hc : c.Impartial τ)
include hc

/-- the nodes of a component that is not created yet are new in both worlds -/
theorem prepare (h : w.Peers τ w') : ∃ made fragment u u', c.prepare w = (made, fragment, u) ∧
    c.prepare w' = (made, fragment, u') ∧ u.Peers τ u' ∧ made.Impartial τ ∧
      Core.Impartial τ { made with phase := .created fragment } := by
  have hn : (markersOfAll c.template.skeleton).Nodup := hc.sound.markers ▸ nodup_markersFor 0 _
  obtain ⟨hplanted, hfragment, hnew⟩ := h.addFragment hn
  obtain ⟨hcells, hworld, hnewer⟩ := textCellsFor_peers c.props 0 c.template.placeholders hplanted
  have hindex : ∀ cell ∈ attributeCellsFor c.props 0 c.template.placeholders, cell.index < Marker.indexLimit := by
    intro cell hcell
    have hin := mem_markersFor_of_cell hcell
    rw [← hc.sound.markers] at hin
    exact Forest.index_lt_of_mem hin
  refine ⟨_, _, _, _, rfl, ?_, hworld, ?_, ?_⟩
  · unfold Core.prepare
    dsimp only
    rw [hfragment, hcells]
    rfl
  · exact { hc with texts := hnewer, cells := hindex }
  · exact { hc with texts := hnewer, cells := hindex, fragment := fun x hx => Option.some.inj hx ▸ hnew }

/-- listeners are taken off, and hooks run, in both worlds -/
theorem cleanUp (h : w.Peers τ w') : (c.cleanUp w).Peers τ (c.cleanUp w') := by
  have hcleanups := hc.cleanups
  unfold Core.cleanUp
  generalize c.cleanups = cleanups at hcleanups
  induction cleanups generalizing w w' with
  | nil => exact h
  | cons cleanup cleanups ih =>
    rw [List.forall_mem_cons] at hcleanups
    exact ih (hcleanups.1 w w' h) hcleanups.2

end Core.Impartial

variable [ForeignBlocks H]

theorem createAll_impartial {row : List (Nested H)} (hr : ∀ n ∈ row, n.block.Impartial τ)
    (ih : ∀ n ∈ row, ∀ w w', w.Peers τ w' →
      Outcome.Coincide τ (Block.Impartial τ) (n.block.create w) (n.block.create w')) (h : w.Peers τ w') :
    Outcome.Coincide τ (fun row => ∀ n ∈ row, n.block.Impartial τ) (createAll row w) (createAll row w') := by
  induction row generalizing w w' with
  | nil => exact ⟨rfl, rfl, h, List.forall_mem_nil _⟩
  | cons n row ihr =>
    obtain ⟨index, atRoot, block⟩ := n
    rw [List.forall_mem_cons] at ih hr
    obtain ⟨made, result, u, u', ho, ho', hu, hmade⟩ := (ih.1 w w' h).parts
    rw [createAll, createAll]
    dsimp only [Nested.block] at ho ho'
    rw [ho, ho']
    cases result with
    | error fault => exact ⟨rfl, rfl, hu, List.forall_mem_cons.2 ⟨hmade, hr.2⟩⟩
    | ok => exact (ihr hr.2 ih.2 hu).map fun row hrow => List.forall_mem_cons.2 ⟨hmade, hrow⟩

omit [ForeignBlocks H] in
theorem TextBlock.Newer.create {t : TextBlock} (ht : t.Newer τ.floor) (h : w.Peers τ w') :
    (t.create w').1 = (t.create w).1 ∧ (t.create w).2.Peers τ (t.create w').2 ∧ (t.create w).1.Newer τ.floor := by
  unfold TextBlock.create
  cases hnode : t.node with
  | some node => exact ⟨rfl, h, ht⟩
  | none =>
    obtain ⟨hadded, hsame, hnew⟩ := h.addText t.data
    refine ⟨?_, hadded, fun x hx => Option.some.inj hx ▸ hnew⟩
    dsimp only
    rw [hsame]

/-- **Creating.** -/
theorem Block.Impartial.create (hhost : ForeignBlocks.Impartial τ) {b : Block H} (hb : b.Impartial τ)
    (h : w.Peers τ w') : Outcome.Coincide τ (Block.Impartial τ) (b.create w) (b.create w') := by
  induction b using Block.induct generalizing w w' with
  | text t =>
    obtain ⟨hsame, hworld, hnewer⟩ := (impartial_text.1 hb).create h
    exact ⟨congrArg Block.text hsame, rfl, hworld, impartial_text.2 hnewer⟩
  | foreign f => exact (hhost.create f w w' (impartial_foreign.1 hb) h).map fun f => impartial_foreign.2
  | component core slots children ihs ihc =>
    obtain ⟨hcore, hslots, hchildren⟩ := Component.impartial_mk.1 hb
    refine Outcome.Coincide.component ?_
    by_cases hp : core.phase.Active
    · rw [Component.create, Component.create]
      cases hphase : core.phase with
      | created fragment => exact ⟨rfl, rfl, h, hb⟩
      | mounted => exact ⟨rfl, rfl, h, hb⟩
      | unmounted => rw [hphase] at hp; exact hp.elim
      | destroyed => rw [hphase] at hp; exact hp.elim
    · obtain ⟨made, fragment, u, u', hm, hm', hu, hmade, hcreated⟩ := hcore.prepare h
      rw [Component.create_eq hp, Component.create_eq hp, hm, hm']
      dsimp only
      obtain ⟨kids, result, v, v', ho, ho', hv, hkids⟩ :=
        (createAll_impartial hchildren (fun n hn _ _ => ihc n hn (hchildren n hn)) hu).parts
      rw [ho, ho']
      cases result with
      | error fault => exact ⟨rfl, rfl, hv, Component.impartial_mk.2 ⟨hmade, hslots, hkids⟩⟩
      | ok =>
        dsimp only
        obtain ⟨contents, result, z, z', ho, ho', hz, hcontents⟩ :=
          (createAll_impartial hslots (fun n hn _ _ => ihs n hn (hslots n hn)) hv).parts
        rw [ho, ho']
        cases result with
        | error fault => exact ⟨rfl, rfl, hz, Component.impartial_mk.2 ⟨hmade, hcontents, hkids⟩⟩
        | ok => exact ⟨rfl, rfl, hz, Component.impartial_mk.2 ⟨hcreated, hcontents, hkids⟩⟩

/-! ## Destroying -/

omit [ForeignBlocks H] in
theorem Core.detachRoots_peers (c : Core H) (h : w.Peers τ w') : (c.detachRoots w).Peers τ (c.detachRoots w') := by
  unfold Core.detachRoots
  generalize c.roots = roots
  induction roots generalizing w w' with
  | nil => exact h
  | cons root roots ih => exact ih (h.detach root)

omit [ForeignBlocks H] in
theorem TextBlock.destroy_peers (t : TextBlock) (detaching : Bool) (h : w.Peers τ w') :
    (t.destroy detaching w).2.Peers τ (t.destroy detaching w').2 := by
  unfold TextBlock.destroy
  cases t.node with
  | none => exact h
  | some node =>
    cases detaching with
    | true => exact h.detach node
    | false => exact h

theorem destroyAll_impartial {row : List (Nested H)} (hr : ∀ n ∈ row, n.block.Impartial τ)
    (ih : ∀ n ∈ row, ∀ detaching w w', w.Peers τ w' →
      Outcome.Coincide τ (Block.Impartial τ) (n.block.destroy detaching w) (n.block.destroy detaching w'))
    (detaching : Bool) (h : w.Peers τ w') :
    Outcome.Coincide τ (fun row => ∀ n ∈ row, n.block.Impartial τ) (destroyAll detaching row w)
      (destroyAll detaching row w') := by
  induction row generalizing w w' with
  | nil => exact ⟨rfl, rfl, h, List.forall_mem_nil _⟩
  | cons n row ihr =>
    obtain ⟨index, atRoot, block⟩ := n
    rw [List.forall_mem_cons] at ih hr
    obtain ⟨gone, result, u, u', ho, ho', hu, hgone⟩ := (ih.1 (detaching && atRoot) w w' h).parts
    obtain ⟨others, results, v, v', hq, hq', hv, hothers⟩ := (ihr hr.2 ih.2 hu).parts
    rw [destroyAll, destroyAll]
    dsimp only [Nested.block] at ho ho'
    rw [ho, ho']
    dsimp only
    rw [hq, hq']
    exact ⟨rfl, rfl, hv, List.forall_mem_cons.2 ⟨hgone, hothers⟩⟩

/-- **Destroying.** -/
theorem Block.Impartial.destroy (hhost : ForeignBlocks.Impartial τ) {b : Block H} (hb : b.Impartial τ)
    (detaching : Bool) (h : w.Peers τ w') :
    Outcome.Coincide τ (Block.Impartial τ) (b.destroy detaching w) (b.destroy detaching w') := by
  induction b using Block.induct generalizing detaching w w' with
  | text t => exact ⟨rfl, rfl, t.destroy_peers detaching h, impartial_text.2 fun _ hx => absurd hx (Option.not_mem_none _)⟩
  | foreign f => exact (hhost.destroy detaching f w w' (impartial_foreign.1 hb) h).map fun f => impartial_foreign.2
  | component core slots children ihs ihc =>
    obtain ⟨hcore, hslots, hchildren⟩ := Component.impartial_mk.1 hb
    refine Outcome.Coincide.component ?_
    by_cases hp : core.phase.Active
    · have hundone : (core.cleanUp (if detaching && core.phase = .mounted then core.detachRoots w else w)).Peers τ
          (core.cleanUp (if detaching && core.phase = .mounted then core.detachRoots w' else w')) := by
        refine hcore.cleanUp ?_
        split
        · exact core.detachRoots_peers h
        · exact h
      rw [Component.destroy_eq hp, Component.destroy_eq hp]
      dsimp only
      obtain ⟨contents, result, u, u', ho, ho', hu, hcontents⟩ :=
        (destroyAll_impartial hslots (fun n hn d _ _ => ihs n hn (hslots n hn) d) detaching hundone).parts
      obtain ⟨kids, results, v, v', hq, hq', hv, hkids⟩ :=
        (destroyAll_impartial hchildren (fun n hn d _ _ => ihc n hn (hchildren n hn) d) detaching hu).parts
      rw [ho, ho']
      dsimp only
      rw [hq, hq']
      exact ⟨rfl, rfl, hv, Component.impartial_mk.2 ⟨hcore.cleared, hcontents, hkids⟩⟩
    · rw [Component.destroy, Component.destroy]
      cases hphase : core.phase with
      | unmounted => exact ⟨rfl, rfl, h, hb⟩
      | destroyed => exact ⟨rfl, rfl, h, hb⟩
      | created fragment => rw [hphase] at hp; exact absurd trivial hp
      | mounted => rw [hphase] at hp; exact absurd trivial hp

omit [ForeignBlocks H] in
theorem dropAll_impartial {row : List (Nested H)}
    (ih : ∀ n ∈ row, ∀ w w' : World H, w.Peers τ w' → (n.block.drop w).Peers τ (n.block.drop w')) (h : w.Peers τ w') :
    (dropAll row w).Peers τ (dropAll row w') := by
  induction row generalizing w w' with
  | nil => exact h
  | cons n row ihr =>
    obtain ⟨index, atRoot, block⟩ := n
    rw [List.forall_mem_cons] at ih
    exact ihr ih.2 (ih.1 w w' h)

omit [ForeignBlocks H] in
/-- **Dropping.** -/
theorem Block.Impartial.drop {b : Block H} (hb : b.Impartial τ) (h : w.Peers τ w') :
    (b.drop w).Peers τ (b.drop w') := by
  induction b using Block.induct generalizing w w' with
  | text t => exact h
  | foreign f => exact h
  | component core slots children ihs ihc =>
    obtain ⟨hcore, hslots, hchildren⟩ := Component.impartial_mk.1 hb
    have hclosed := (hcore.cleanUp h).updateChannel core.channel .close
    have hcontents := dropAll_impartial (fun n hn _ _ => ihs n hn (hslots n hn)) hclosed
    exact dropAll_impartial (fun n hn _ _ => ihc n hn (hchildren n hn)) hcontents

/-! ## Updating -/

omit [ForeignBlocks H] in
theorem showTexts_peers (cells : List TextCell) (prop text : String) (h : w.Peers τ w') :
    (showTexts cells prop text w).Peers τ (showTexts cells prop text w') := by
  unfold showTexts
  generalize cells.filter (·.prop == prop) = shown
  induction shown generalizing w w' with
  | nil => exact h
  | cons cell shown ih => exact ih (h.write cell.node (.setData text) nofun)

omit [ForeignBlocks H] in
theorem showAttributes_peers (prop text : String) (cells : List AttributeCell) (h : w.Peers τ w') :
    (showAttributes prop text cells w').1 = (showAttributes prop text cells w).1 ∧
      (showAttributes prop text cells w).2.Peers τ (showAttributes prop text cells w').2 := by
  induction cells generalizing w w' with
  | nil => exact ⟨rfl, h⟩
  | cons cell cells ih =>
    by_cases hp : cell.prop = prop
    · have hshown : (w.writeCell cell text).Peers τ (w'.writeCell cell text) := by
        unfold World.writeCell
        cases cell.element with
        | none => exact h
        | some element => exact h.setAttribute element cell.name text
      obtain ⟨hcells, hrest⟩ := ih hshown
      rw [showAttributes_of_prop hp, showAttributes_of_prop hp]
      exact ⟨congrArg (_ :: ·) hcells, hrest⟩
    · obtain ⟨hcells, hrest⟩ := ih h
      rw [showAttributes_of_other hp, showAttributes_of_other hp]
      exact ⟨congrArg (_ :: ·) hcells, hrest⟩

namespace Core.Impartial

variable {c : Core H} (hc : c.Impartial τ)
include hc

omit [ForeignBlocks H] in
theorem runHooks (prop : String) (value : Value) (h : w.Peers τ w') :
    ((c.updateHooks.filter (c.hears prop)).foldl (fun w hook => hook.run value w) w).Peers τ
      ((c.updateHooks.filter (c.hears prop)).foldl (fun w hook => hook.run value w) w') := by
  have hhooks : ∀ hook ∈ c.updateHooks.filter (c.hears prop), ∀ value, World.Impartial τ (hook.run value) :=
    fun hook hin => hc.hooks hook (List.mem_of_mem_filter hin)
  generalize c.updateHooks.filter (c.hears prop) = hooks at hhooks
  induction hooks generalizing w w' with
  | nil => exact h
  | cons hook hooks ih =>
    rw [List.forall_mem_cons] at hhooks
    exact ih (hhooks.1 value w w' h) hhooks.2

omit [ForeignBlocks H] in
theorem applyEntry (prop : String) (value : Value) (h : w.Peers τ w') :
    (c.applyEntry w' prop value).1 = (c.applyEntry w prop value).1 ∧
      (c.applyEntry w prop value).2.Peers τ (c.applyEntry w' prop value).2 := by
  have htexts := showTexts_peers c.textCells prop value.toText h
  obtain ⟨hcells, hattributes⟩ := showAttributes_peers prop value.toText c.attributeCells htexts
  unfold Core.applyEntry
  dsimp only
  rw [hcells]
  exact ⟨rfl, hc.runHooks prop value hattributes⟩

omit [ForeignBlocks H] in
theorem of_footing {c' : Core H} (hs : c.SameFooting c') : c'.Impartial τ where
  sound := hs.template ▸ hc.sound
  actions := hs.template ▸ hc.actions
  fragment := hs.phase ▸ hc.fragment
  texts := hs.textCells ▸ hc.texts
  cells cell hcell := by
    have hin : cell.binding ∈ c.attributeCells.map AttributeCell.binding :=
      hs.attributeCells ▸ List.mem_map_of_mem hcell
    obtain ⟨old, hold, he⟩ := List.mem_map.1 hin
    have hindex : old.index = cell.index := congrArg Prod.fst he
    exact hindex ▸ hc.cells old hold
  cleanups := hs.cleanups ▸ hc.cleanups
  hooks := hs.updateHooks ▸ hc.hooks

omit [ForeignBlocks H] in
/-- an update of the component itself -/
theorem applyEntries (changed : Props) (h : w.Peers τ w') : ∃ updated u u', c.applyEntries w changed = (updated, u) ∧
    c.applyEntries w' changed = (updated, u') ∧ u.Peers τ u' ∧ updated.Impartial τ := by
  unfold Core.applyEntries
  generalize changed.entries = es
  induction es generalizing c w w' with
  | nil => exact ⟨c, w, w', rfl, rfl, h, hc⟩
  | cons e es ih =>
    obtain ⟨hsame, hworld⟩ := hc.applyEntry e.1 e.2 h
    have hpair : c.applyEntry w' e.1 e.2 = ((c.applyEntry w e.1 e.2).1, (c.applyEntry w' e.1 e.2).2) :=
      Prod.ext hsame rfl
    rw [List.foldl_cons, List.foldl_cons]
    dsimp only
    rw [hpair]
    exact ih (hc.of_footing (c.applyEntry_footing w e.1 e.2)) hworld

end Core.Impartial

theorem updateRow_impartial {row : List (Nested H)} (hr : ∀ n ∈ row, n.block.Impartial τ)
    (ih : ∀ n ∈ row, ∀ changed w w', w.Peers τ w' →
      Outcome.Coincide τ (Block.Impartial τ) (n.block.update changed w) (n.block.update changed w'))
    (deliver : Nat → Option Props) (h : w.Peers τ w') :
    Outcome.Coincide τ (fun row => ∀ n ∈ row, n.block.Impartial τ) (updateRow deliver row w)
      (updateRow deliver row w') := by
  induction row generalizing w w' with
  | nil => exact ⟨rfl, rfl, h, List.forall_mem_nil _⟩
  | cons n row ihr =>
    obtain ⟨index, atRoot, block⟩ := n
    rw [List.forall_mem_cons] at ih hr
    rw [updateRow_cons, updateRow_cons]
    cases deliver index with
    | none => exact (ihr hr.2 ih.2 h).map fun row hrow => List.forall_mem_cons.2 ⟨hr.1, hrow⟩
    | some changed =>
      obtain ⟨updated, result, u, u', ho, ho', hu, hupdated⟩ := (ih.1 changed w w' h).parts
      dsimp only [Nested.block] at ho ho' ⊢
      rw [ho, ho']
      cases result with
      | error fault => exact ⟨rfl, rfl, hu, List.forall_mem_cons.2 ⟨hupdated, hr.2⟩⟩
      | ok => exact (ihr hr.2 ih.2 hu).map fun row hrow => List.forall_mem_cons.2 ⟨hupdated, hrow⟩

omit [ForeignBlocks H] in
theorem TextBlock.Newer.update {t : TextBlock} (ht : t.Newer τ.floor) (changed : Props) (h : w.Peers τ w') :
    (t.update changed w').1 = (t.update changed w).1 ∧ (t.update changed w).2.Peers τ (t.update changed w').2 ∧
      (t.update changed w).1.Newer τ.floor := by
  unfold TextBlock.update
  cases t.prop.bind changed.get? with
  | none => exact ⟨rfl, h, ht⟩
  | some value =>
    refine ⟨rfl, ?_, ht⟩
    dsimp only
    cases t.node with
    | none => exact h
    | some node => exact h.write node (.setData value.toText) nofun

/-- **Updating.** -/
theorem Block.Impartial.update (hhost : ForeignBlocks.Impartial τ) {b : Block H} (hb : b.Impartial τ)
    (changed : Props) (h : w.Peers τ w') :
    Outcome.Coincide τ (Block.Impartial τ) (b.update changed w) (b.update changed w') := by
  induction b using Block.induct generalizing changed w w' with
  | text t =>
    obtain ⟨hsame, hworld, hnewer⟩ := (impartial_text.1 hb).update changed h
    exact ⟨congrArg Block.text hsame, rfl, hworld, impartial_text.2 hnewer⟩
  | foreign f => exact (hhost.update changed f w w' (impartial_foreign.1 hb) h).map fun f => impartial_foreign.2
  | component core slots children ihs ihc =>
    obtain ⟨hcore, hslots, hchildren⟩ := Component.impartial_mk.1 hb
    rw [Block.update_component, Block.update_component]
    refine Outcome.Coincide.component ?_
    rw [Component.update_mk, Component.update_mk]
    split
    · exact ⟨rfl, rfl, h, hb⟩
    · obtain ⟨updated, u, u', hup, hup', hu, hupdated⟩ := hcore.applyEntries changed h
      rw [hup, hup']
      exact (updateRow_impartial hchildren (fun n hn given _ _ => ihc n hn (hchildren n hn) given) _ hu).map
        fun row hrow => Component.impartial_mk.2 ⟨hupdated, hslots, hrow⟩

/-- **Ticking.** -/
theorem Component.tick_impartial (hhost : ForeignBlocks.Impartial τ) {c : Component H}
    (hc : (Block.component c).Impartial τ) (incoming : Props) (context : Option Props) (h : w.Peers τ w') :
    Outcome.Coincide τ (fun c => (Block.component c).Impartial τ) (c.tick incoming context w)
      (c.tick incoming context w') := by
  obtain ⟨core, slots, children⟩ := c
  obtain ⟨hcore, hslots, hchildren⟩ := impartial_mk.1 hc
  by_cases hp : core.phase = .destroyed
  · rw [tick_mk, tick_mk, if_pos hp, if_pos hp]
    exact ⟨rfl, rfl, h, hc⟩
  · obtain ⟨updated, u, u', hup, hup', hu, hupdated⟩ := hcore.applyEntries (core.props.changes incoming) h
    rw [tick_eq hp, tick_eq hp, Core.taking, Core.taking, hup, hup']
    dsimp only
    have hgiven : ∀ n : Nested H, n.block.Impartial τ → ∀ changed (w w' : World H), w.Peers τ w' →
        Outcome.Coincide τ (Block.Impartial τ) (n.block.update changed w) (n.block.update changed w') :=
      fun n hn changed _ _ => hn.update hhost changed
    obtain ⟨contents, result, v, v', ho, ho', hv, hcontents⟩ :=
      (updateRow_impartial hslots (fun n hn => hgiven n (hslots n hn)) (core.dirty context).offer hu).parts
    rw [ho, ho']
    have htaken : Core.Impartial τ
        { updated with slotContext := core.slotContext.extend (core.dirty context).entries } := { hupdated with }
    cases result with
    | error fault => exact ⟨rfl, rfl, hv, impartial_mk.2 ⟨htaken, hcontents, hchildren⟩⟩
    | ok =>
      exact (updateRow_impartial hchildren (fun n hn => hgiven n (hchildren n hn)) _ hv).map
        fun row hrow => impartial_mk.2 ⟨htaken, hcontents, hrow⟩

/-! ## Transitions -/

theorem transitionAll_impartial {row : List (Nested H)} {t : Transition} {isLocal : Bool}
    (ih : ∀ n ∈ row, ∀ w w' : World H, w.Peers τ w' →
      (n.block.transition t isLocal w').1 = (n.block.transition t isLocal w).1 ∧
        (n.block.transition t isLocal w).2.Peers τ (n.block.transition t isLocal w').2 ∧
          (n.block.transition t isLocal w).1.Impartial τ) (h : w.Peers τ w') :
    (transitionAll t isLocal row w').1 = (transitionAll t isLocal row w).1 ∧
      (transitionAll t isLocal row w).2.Peers τ (transitionAll t isLocal row w').2 ∧
        ∀ n ∈ (transitionAll t isLocal row w).1, n.block.Impartial τ := by
  induction row generalizing w w' with
  | nil => exact ⟨rfl, h, List.forall_mem_nil _⟩
  | cons n row ihr =>
    obtain ⟨index, atRoot, block⟩ := n
    rw [List.forall_mem_cons] at ih
    obtain ⟨hblock, hworld, hkept⟩ := ih.1 w w' h
    obtain ⟨hrow, hrest, hkeeps⟩ := ihr ih.2 hworld
    rw [transitionAll, transitionAll]
    dsimp only [Nested.block] at hblock hrow hkept ⊢
    rw [hblock, hrow]
    exact ⟨rfl, hrest, List.forall_mem_cons.2 ⟨hkept, hkeeps⟩⟩

/-- **Transitions.** -/
theorem Block.Impartial.transition (hhost : ForeignBlocks.Impartial τ) {b : Block H} (hb : b.Impartial τ)
    (t : Transition) (isLocal : Bool) (h : w.Peers τ w') :
    (b.transition t isLocal w').1 = (b.transition t isLocal w).1 ∧
      (b.transition t isLocal w).2.Peers τ (b.transition t isLocal w').2 ∧
        (b.transition t isLocal w).1.Impartial τ := by
  induction b using Block.induct generalizing w w' with
  | text t => exact ⟨rfl, h, hb⟩
  | foreign f =>
    obtain ⟨hsame, hworld, hkept⟩ := hhost.transition t isLocal f w w' (impartial_foreign.1 hb) h
    exact ⟨congrArg Block.foreign hsame, hworld, impartial_foreign.2 hkept⟩
  | component core slots children ihs ihc =>
    obtain ⟨hcore, hslots, hchildren⟩ := Component.impartial_mk.1 hb
    obtain ⟨hs, hworld, hcontents⟩ := transitionAll_impartial (fun n hn _ _ => ihs n hn (hslots n hn)) h
    obtain ⟨hk, hrest, hkids⟩ := transitionAll_impartial (fun n hn _ _ => ihc n hn (hchildren n hn)) hworld
    rw [Block.transition, Block.transition, Component.transition, Component.transition]
    dsimp only
    rw [hs, hk]
    exact ⟨rfl, hrest, Component.impartial_mk.2 ⟨hcore, hcontents, hkids⟩⟩

end LiveMarkup
