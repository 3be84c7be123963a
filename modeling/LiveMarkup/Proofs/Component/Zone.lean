/-
Where a component acts.

A zone is a condition on worlds with a condition on nodes that everything leads back to: what is done to nodes of the zone
in such a world leaves such a world, and what is found from nodes of the zone is in the zone. It says what actions may do
to its nodes besides. A component dwells in a zone if all that it holds or listens to is there, and if its actions do what
they may. Then creating it, destroying it and mounting it below a node of the zone leave it there, whatever each results in.

- `Block.Dwells.create`, `Block.Dwells.mountCreated`, `Block.Dwells.destroy`: one lemma for each call, at any depth;
- `Zone.everywhere`, `Zone.outside`: all nodes, and those that are not in a certain tree;
- `Component.Modest.over`: actions that leave the document alone leave behind nothing else, after any calls.
-/
import LiveMarkup.Proofs.Component.Appear
import LiveMarkup.Proofs.Component.Built
import LiveMarkup.Proofs.Document.Spared

namespace LiveMarkup

variable {H : Host}

/-- worlds, nodes that everything leads back to, what actions may do to each of them, and blocks of the host -/
structure Zone (H : Host) where
  world : World H → Prop
  node : NodeId → Prop
  tame : NodeId → (World H → World H) → Prop
  guest : H.Foreign → Prop
  runs : ∀ {w : World H} {x : NodeId} {f : World H → World H}, world w → node x → tame x f → world (f w)
  quiet : ∀ {x : NodeId} {f : World H → World H}, (∀ w : World H, w.Alike (f w)) → tame x f
  alike : ∀ {w w' : World H}, world w → w.Alike w' → world w'
  write : ∀ {w : World H} {x : NodeId}, world w → node x → ∀ writing : Writing (Listener H.Handler),
    world (w.edit (writing.perform x))
  insert : ∀ {w : World H} {x y : NodeId}, world w → node x → node y → ∀ anchor,
    world (w.edit (·.insertBefore x y anchor))
  replace : ∀ {w : World H} {x y : NodeId}, world w → node x → node y → world (w.edit (·.replaceWith x y))
  detach : ∀ {w : World H} {x : NodeId}, world w → node x → world (w.edit (·.detach x))
  discard : ∀ {w : World H} {x : NodeId}, world w → node x → ∀ held, world (w.discard held x)
  addText : ∀ {w : World H}, world w → ∀ data, world (w.addText data).1 ∧ node (w.addText data).2
  addFragment : ∀ {w : World H}, world w → ∀ nodes, world (w.addFragment nodes).1 ∧ node (w.addFragment nodes).2
  below : ∀ {w : World H} {x y : NodeId}, world w → node x → y ∈ (w.document.childForest x).ids → node y
  parent : ∀ {w : World H} {x y : NodeId}, world w → node x → w.document.parent? x = some y → node y

/-- all worlds, nodes and blocks, where actions leave the document alone -/
def Zone.everywhere : Zone H where
  world _ := True
  node _ := True
  tame _ f := ∀ w : World H, w.Alike (f w)
  guest _ := True
  runs _ _ _ := trivial
  quiet h := h
  alike _ _ := trivial
  write _ _ _ := trivial
  insert _ _ _ _ := trivial
  replace _ _ _ := trivial
  detach _ _ := trivial
  discard _ _ _ := trivial
  addText _ _ := ⟨trivial, trivial⟩
  addFragment _ _ := ⟨trivial, trivial⟩
  below _ _ _ := trivial
  parent _ _ _ := trivial

/-- worlds in which this tree stands by itself, and the nodes that are not in it, where actions leave the tree alone -/
def Zone.outside (T : Node (Listener H.Handler) × Forest (Node (Listener H.Handler))) : Zone H where
  world w := w.document.Spared T
  node x := Document.Outside T x
  tame x f := ∀ w : World H, w.document.Spared T → Document.Outside T x → (f w).document.Spared T
  guest _ := True
  runs hw hx hf := hf _ hw hx
  quiet h w hw _ := by rw [(h w).document]; exact hw
  alike hw h := by rw [h.document]; exact hw
  write hw hx writing := hw.perform hx writing
  insert hw hx hy anchor := hw.insertBefore hx hy anchor
  replace hw hx hy := hw.replaceWith hx hy
  detach hw hx := hw.detach hx
  discard hw hx held := hw.discard hx held.contains
  addText hw data := ⟨hw.add (.text data), hw.outside_of_fresh (Nat.le_refl _)⟩
  addFragment hw nodes := ⟨hw.addFragment nodes, hw.outside_of_fresh (Nat.le_refl _)⟩
  below hw hx hy := hw.outside_of_below hx hy
  parent hw hx hy := hw.parent? hx hy

/-- the same without blocks of the host -/
def Zone.besides (T : Node (Listener H.Handler) × Forest (Node (Listener H.Handler))) : Zone H :=
  { Zone.outside T with guest := fun _ => False }

/-- the node that is listened to, or that an action was run on -/
def Cleanup.node : Cleanup H → NodeId
  | listener node _ => node
  | hook node _ => node

/-- what the action does, and what is left to do at the end, may be done in the zone -/
def Zone.Lets (z : Zone H) (run : Action H) : Prop :=
  ∀ x value, z.tame x (fun w => (run x value w).1) ∧
    ∀ w, z.world w → ∀ destroy ∈ (run x value w).2.destroy, z.tame x destroy

def Zone.LetsAll (z : Zone H) (t : Template (Action H)) : Prop :=
  ∀ run param, .action run param ∈ t.placeholders → z.Lets run

theorem Action.Quiet.lets {z : Zone H} {run : Action H} (h : Action.Quiet run) : z.Lets run := fun x value =>
  ⟨z.quiet fun w => (h x value w).1, fun w _ destroy hd => z.quiet ((h x value w).2.destroy destroy hd)⟩

theorem Zone.Lets.narrow {run : Action H} (h : Zone.everywhere.Lets run) (z : Zone H) : z.Lets run := fun x value =>
  ⟨z.quiet (h x value).1, fun w _ destroy hd => z.quiet ((h x value).2 w trivial destroy hd)⟩

structure Cleanup.Dwells (z : Zone H) (cleanup : Cleanup H) : Prop where
  tame : ∀ node run, cleanup = .hook node run → z.tame node run
  node : z.node cleanup.node

/-- the component's actions may be done in the zone, and all that it holds or listens to itself is there -/
structure Core.Dwells (z : Zone H) (c : Core H) : Prop where
  lets : z.LetsAll c.template
  held : ∀ x ∈ c.handles, z.node x
  cleanups : ∀ cleanup ∈ c.cleanups, cleanup.Dwells z

section

variable [ForeignBlocks H]

/-- all that the block holds or listens to is in the zone, at any depth, and blocks of the host may be there -/
structure Block.Dwells (z : Zone H) (b : Block H) : Prop where
  held : ∀ x ∈ b.handles, z.node x
  each : b.Each (Core.Dwells z) fun _ => True
  guests : b.Guests z.guest

structure Zone.Leaves (z : Zone H) (o : Outcome H (Block H)) : Prop where
  world : z.world o.world
  self : o.self.Dwells z

structure Zone.LeavesAll (z : Zone H) (o : Outcome H (List (Nested H))) : Prop where
  world : z.world o.world
  self : ∀ n ∈ o.self, n.block.Dwells z

structure Zone.Admits (z : Zone H) : Prop where
  create : ∀ f w, (Block.foreign f).Dwells z → z.world w → z.Leaves ((Block.foreign f).create w)
  mount : ∀ target anchor f w, (Block.foreign f).Dwells z → z.world w → z.node target → (∀ a ∈ anchor, z.node a) →
    z.Leaves ((Block.foreign f).mountCreated target anchor w)
  destroy : ∀ detaching f w, (Block.foreign f).Dwells z → z.world w → z.Leaves ((Block.foreign f).destroy detaching w)

theorem mem_handlesOf_iff {row : List (Nested H)} {x : NodeId} : x ∈ handlesOf row ↔ ∃ n ∈ row, x ∈ n.block.handles := by
  induction row with
  | nil => simp [handlesOf]
  | cons n row ih =>
    obtain ⟨index, atRoot, block⟩ := n
    simp [handlesOf, ih, Nested.block]

theorem Block.dwells_text {z : Zone H} {t : TextBlock} : (Block.text t).Dwells z ↔ ∀ x ∈ t.node, z.node x :=
  ⟨fun h x hx => h.held x (Option.mem_toList.2 hx),
    fun h => ⟨fun x hx => h x (Option.mem_toList.1 hx), trivial, trivial⟩⟩

theorem Component.dwells_mk {z : Zone H} {core : Core H} {slots children : List (Nested H)} :
    (Block.component (.mk core slots children)).Dwells z ↔ core.Dwells z ∧
      (∀ n ∈ slots, n.block.Dwells z) ∧ ∀ n ∈ children, n.block.Dwells z := by
  have hhandles : ∀ x, x ∈ (Block.component (.mk core slots children)).handles ↔
      x ∈ core.handles ∨ x ∈ handlesOf slots ∨ x ∈ handlesOf children := fun x => by
    rw [Block.handles, Component.handles, List.mem_append, List.mem_append, or_assoc]
  have hrow : ∀ row : List (Nested H), (∀ n ∈ row, n.block.Dwells z) ↔
      (∀ x ∈ handlesOf row, z.node x) ∧ eachOf (Core.Dwells z) (fun _ => True) row ∧ guestsOf z.guest row := by
    intro row
    rw [eachOf_iff, guestsOf_iff]
    constructor
    · refine fun h => ⟨fun x hx => ?_, fun n hn => (h n hn).each, fun n hn => (h n hn).guests⟩
      obtain ⟨n, hn, hx⟩ := mem_handlesOf_iff.1 hx
      exact (h n hn).held x hx
    · exact fun h n hn => ⟨fun x hx => h.1 x (mem_handlesOf_iff.2 ⟨n, hn, hx⟩), h.2.1 n hn, h.2.2 n hn⟩
  rw [hrow, hrow]
  constructor
  · rintro ⟨hheld, ⟨hcore, hslots, hchildren⟩, hgs, hgc⟩
    exact ⟨hcore, ⟨fun x hx => hheld x ((hhandles x).2 (.inr (.inl hx))), hslots, hgs⟩,
      fun x hx => hheld x ((hhandles x).2 (.inr (.inr hx))), hchildren, hgc⟩
  · rintro ⟨hcore, ⟨hs, hslots, hgs⟩, hc, hchildren, hgc⟩
    refine ⟨fun x hx => ?_, ⟨hcore, hslots, hchildren⟩, hgs, hgc⟩
    rcases (hhandles x).1 hx with hx | hx | hx
    · exact hcore.held x hx
    · exact hs x hx
    · exact hc x hx

/-- what holds of texts and of blocks of the host in a zone, and of a component in it if it holds of all that is nested in
it, holds of all blocks in the zone -/
theorem Block.Dwells.induct {z : Zone H} {P : Block H → Prop} (text : ∀ t, (Block.text t : Block H).Dwells z → P (.text t))
    (foreign : ∀ f, (Block.foreign f).Dwells z → P (.foreign f))
    (component : ∀ core slots children, (Block.component (.mk core slots children)).Dwells z →
      (∀ n ∈ slots, P n.block) → (∀ n ∈ children, P n.block) → P (.component (.mk core slots children)))
    {b : Block H} (h : b.Dwells z) : P b := by
  induction b using Block.induct with
  | text t => exact text t h
  | foreign f => exact foreign f h
  | component core slots children ihs ihc =>
    obtain ⟨-, hs, hc⟩ := Component.dwells_mk.1 h
    exact component core slots children h (fun n hn => ihs n hn (hs n hn)) fun n hn => ihc n hn (hc n hn)

end

/-! ## Binding -/

section

variable {z : Zone H} {w : World H} {fragment x : NodeId} (hw : z.world w) (hf : z.node fragment)
include hw hf

/-- markers below a node of the zone are in the zone -/
theorem Zone.marker {m : Marker} (h : w.marker fragment m = .ok x) : z.node x := by
  have hbelow : ∀ test, w.document.firstBelow? fragment test = some x → z.node x := fun test hx => by
    obtain ⟨n, hn, rfl⟩ := Option.map_eq_some_iff.1 hx
    exact z.below hw hf (List.mem_map_of_mem (List.mem_of_find?_eq_some hn))
  unfold World.marker at h
  split at h
  · next y hfound =>
    cases h
    split at hfound
    · unfold World.findAttribute? at hfound
      split at hfound
      · exact hbelow _ hfound
      · cases hfound
    · unfold World.findElement? at hfound
      split at hfound
      · exact hbelow _ hfound
      · cases hfound
  · cases h

theorem Zone.spots {category : Category} {indices : List Nat} {spots : List (Nat × NodeId)}
    (h : w.spots fragment category indices = .ok spots) : ∀ spot ∈ spots, z.node spot.2 := by
  induction indices generalizing spots with
  | nil =>
    cases h
    exact List.forall_mem_nil _
  | cons index indices ih =>
    rw [World.spots] at h
    cases hmarker : w.marker fragment ⟨category, index⟩ with
    | error fault => rw [hmarker] at h; cases h
    | ok spot =>
      rw [hmarker] at h
      cases hothers : w.spots fragment category indices with
      | error fault => rw [hothers] at h; cases h
      | ok others =>
        rw [hothers] at h
        cases h
        exact List.forall_mem_cons.2 ⟨z.marker hw hf hmarker, ih hothers⟩

theorem Zone.bindTexts (cells : List TextCell) (hcells : ∀ cell ∈ cells, z.node cell.node) :
    z.world (LiveMarkup.bindTexts fragment cells w).world := by
  induction cells generalizing w with
  | nil => exact hw
  | cons cell cells ih =>
    rw [List.forall_mem_cons] at hcells
    rw [LiveMarkup.bindTexts]
    cases hmarker : w.marker fragment ⟨.text, cell.index⟩ with
    | error fault => exact hw
    | ok spot => exact ih (z.replace hw (z.marker hw hf hmarker) hcells.1) hcells.2

theorem Zone.bindAttributes (cells : List AttributeCell) (hcells : ∀ cell ∈ cells, ∀ x ∈ cell.element, z.node x) :
    z.world (LiveMarkup.bindAttributes fragment cells w).world ∧
      ∀ cell ∈ (LiveMarkup.bindAttributes fragment cells w).self, ∀ x ∈ cell.element, z.node x := by
  induction cells generalizing w with
  | nil => exact ⟨hw, List.forall_mem_nil _⟩
  | cons cell cells ih =>
    have hrest := (List.forall_mem_cons.1 hcells).2
    rw [LiveMarkup.bindAttributes]
    cases hmarker : w.marker fragment ⟨.attribute, cell.index⟩ with
    | error fault => exact ⟨hw, hcells⟩
    | ok element =>
      have helement := z.marker hw hf hmarker
      have hrenamed : z.world (w.renameAttribute element (Marker.name ⟨.attribute, cell.index⟩) cell.name cell.value) := by
        unfold World.renameAttribute
        cases w.backend.renamesInPlace with
        | true => exact z.write hw helement (.renameAttribute _ cell.name cell.value)
        | false =>
          have hremoved := z.write hw helement (.removeAttribute (Marker.name ⟨.attribute, cell.index⟩))
          exact z.write hremoved helement (.setAttribute cell.name cell.value)
      obtain ⟨hworld, hself⟩ := ih hrenamed hrest
      refine ⟨hworld, List.forall_mem_cons.2 ⟨fun x hx => ?_, hself⟩⟩
      obtain rfl : element = x := Option.some.inj hx
      exact helement

theorem Zone.attachListeners {T : Type} (channel index : Nat) (ps : List (Placeholder (Action H) T)) :
    z.world (LiveMarkup.attachListeners fragment channel index ps w).world ∧
      ∀ cleanup ∈ (LiveMarkup.attachListeners fragment channel index ps w).self, cleanup.Dwells z := by
  induction ps generalizing index w with
  | nil => exact ⟨hw, List.forall_mem_nil _⟩
  | cons p ps ih =>
    cases p with
    | event event topic =>
      rw [LiveMarkup.attachListeners]
      dsimp only
      cases hmarker : w.marker fragment ⟨.event, index⟩ with
      | error fault => exact ⟨hw, List.forall_mem_nil _⟩
      | ok element =>
        have helement := z.marker hw hf hmarker
        have hremoved := z.write hw helement (.removeAttribute (Marker.name ⟨.event, index⟩))
        obtain ⟨hworld, hself⟩ := ih (z.write hremoved helement (.listen event (.channel channel topic))) (index + 1)
        exact ⟨hworld, List.forall_mem_cons.2 ⟨⟨fun _ _ he => (by cases he), helement⟩, hself⟩⟩
    | _ => exact ih hw (index + 1)

theorem Zone.runActions {T : Type} (props : Props) (index : Nat) {ps : List (Placeholder (Action H) T)}
    (hq : ∀ run param, .action run param ∈ ps → z.Lets run) :
    z.world (LiveMarkup.runActions fragment props index ps w).world ∧
      (∀ cleanup ∈ (LiveMarkup.runActions fragment props index ps w).self.1, cleanup.Dwells z) ∧
      ∀ hook ∈ (LiveMarkup.runActions fragment props index ps w).self.2, z.node hook.node := by
  induction ps generalizing index w with
  | nil => exact ⟨hw, List.forall_mem_nil _, List.forall_mem_nil _⟩
  | cons p ps ih =>
    have hps : ∀ run param, .action run param ∈ ps → z.Lets run := fun run param h =>
      hq run param (List.mem_cons_of_mem _ h)
    cases p with
    | action run param =>
      rw [LiveMarkup.runActions]
      dsimp only
      cases hmarker : w.marker fragment ⟨.action, index⟩ with
      | error fault => exact ⟨hw, List.forall_mem_nil _, List.forall_mem_nil _⟩
      | ok element =>
        have helement := z.marker hw hf hmarker
        have hremoved := z.write hw helement (.removeAttribute (Marker.name ⟨.action, index⟩))
        obtain ⟨hrun, hdestroy⟩ := hq run param List.mem_cons_self element (param.bind props.get?)
        obtain ⟨hworld, hcleanups, hhooks⟩ := ih (z.runs hremoved helement hrun) (index + 1) hps
        refine ⟨hworld, List.forall_mem_append.2 ⟨fun cleanup hin => ?_, hcleanups⟩,
          List.forall_mem_append.2 ⟨fun hook hin => ?_, hhooks⟩⟩
        · obtain ⟨destroy, hmem, rfl⟩ := Option.map_eq_some_iff.1 (Option.mem_toList.1 hin)
          refine ⟨fun node run he => ?_, helement⟩
          obtain ⟨rfl, rfl⟩ := Cleanup.hook.inj he
          exact hdestroy _ hremoved destroy hmem
        · obtain ⟨update, hupdate, rfl⟩ := Option.map_eq_some_iff.1 (Option.mem_toList.1 hin)
          exact helement
    | _ => exact ih hw (index + 1) hps

end

/-- what a component holds itself -/
theorem Core.mem_handles {c : Core H} {x : NodeId} : x ∈ c.handles ↔ c.phase.handle? = some x ∨ x ∈ c.roots ∨
    (∃ cell ∈ c.textCells, cell.node = x) ∨ (∃ cell ∈ c.attributeCells, cell.element = some x) ∨
    (∃ cleanup ∈ c.cleanups, cleanup.handle? = some x) ∨ ∃ hook ∈ c.updateHooks, hook.node = x := by
  simp [Core.handles]

/-- what an action was run on is held -/
theorem Cleanup.node_of_handle? {cleanup : Cleanup H} {x : NodeId} (h : cleanup.handle? = some x) :
    cleanup.node = x := by
  cases cleanup with
  | listener node ticket => cases h
  | hook node run => exact Option.some.inj h

section

variable {z : Zone H} {c : Core H}

/-- a component gets other cells, and other things to undo, all in the zone -/
theorem Core.Dwells.bound (h : c.Dwells z) {cells : List AttributeCell} {cleanups : List (Cleanup H)}
    {hooks : List (UpdateHook H)} (hcells : ∀ cell ∈ cells, ∀ x ∈ cell.element, z.node x)
    (hcleanups : ∀ cleanup ∈ cleanups, cleanup.Dwells z) (hhooks : ∀ hook ∈ hooks, z.node hook.node) :
    Core.Dwells z { c with attributeCells := cells, cleanups := cleanups, updateHooks := hooks } := by
  refine ⟨h.lets, fun x hx => ?_, hcleanups⟩
  rcases Core.mem_handles.1 hx with hx | hx | hx | ⟨cell, hcell, hx⟩ | ⟨cleanup, hin, hx⟩ | ⟨hook, hin, rfl⟩
  · exact h.held x (Core.mem_handles.2 (.inl hx))
  · exact h.held x (Core.mem_handles.2 (.inr (.inl hx)))
  · exact h.held x (Core.mem_handles.2 (.inr (.inr (.inl hx))))
  · exact hcells cell hcell x hx
  · exact Cleanup.node_of_handle? hx ▸ (hcleanups cleanup hin).node
  · exact hhooks hook hin

/-- a component binds its placeholders as far as it gets -/
theorem Core.Dwells.bind (h : c.Dwells z) {w : World H} {fragment : NodeId} (hw : z.world w) (hf : z.node fragment) :
    z.world (c.bind fragment w).world ∧ (c.bind fragment w).self.Dwells z := by
  have hheld := fun x hx => h.held x (Core.mem_handles.2 hx)
  have helements : ∀ cell ∈ c.attributeCells, ∀ x ∈ cell.element, z.node x := fun cell hcell x hx =>
    hheld x (.inr (.inr (.inr (.inl ⟨cell, hcell, hx⟩))))
  have hhooks : ∀ hook ∈ c.updateHooks, z.node hook.node := fun hook hin =>
    hheld _ (.inr (.inr (.inr (.inr (.inr ⟨hook, hin, rfl⟩)))))
  have htexts := z.bindTexts hw hf c.textCells fun cell hcell =>
    hheld _ (.inr (.inr (.inl ⟨cell, hcell, rfl⟩)))
  obtain ⟨hattributes, hcells⟩ := z.bindAttributes htexts hf c.attributeCells helements
  obtain ⟨hlisteners, hcleanups⟩ := z.attachListeners hattributes hf c.channel 0 c.template.placeholders
  obtain ⟨hactions, hmore, hlater⟩ := z.runActions hlisteners hf c.props 0 h.lets
  have hattached := List.forall_mem_append.2 ⟨h.cleanups, hcleanups⟩
  unfold Core.bind
  dsimp only
  cases (LiveMarkup.bindTexts fragment c.textCells w).result with
  | error fault => exact ⟨htexts, h⟩
  | ok =>
    dsimp only
    cases (LiveMarkup.bindAttributes fragment c.attributeCells
        (LiveMarkup.bindTexts fragment c.textCells w).world).result with
    | error fault => exact ⟨hattributes, h.bound hcells h.cleanups hhooks⟩
    | ok =>
      dsimp only
      cases (LiveMarkup.attachListeners fragment c.channel 0 c.template.placeholders (LiveMarkup.bindAttributes fragment
          c.attributeCells (LiveMarkup.bindTexts fragment c.textCells w).world).world).result with
      | error fault => exact ⟨hlisteners, h.bound hcells hattached hhooks⟩
      | ok =>
        exact ⟨hactions, h.bound hcells (List.forall_mem_append.2 ⟨hattached, hmore⟩)
          (List.forall_mem_append.2 ⟨hhooks, hlater⟩)⟩

/-- a component undoes what it has to undo -/
theorem Core.Dwells.cleanUp (h : c.Dwells z) {w : World H} (hw : z.world w) : z.world (c.cleanUp w) := by
  unfold Core.cleanUp
  have hcleanups := h.cleanups
  generalize c.cleanups = cleanups at hcleanups
  induction cleanups generalizing w with
  | nil => exact hw
  | cons cleanup cleanups ih =>
    rw [List.forall_mem_cons] at hcleanups
    obtain ⟨htame, hnode⟩ := hcleanups.1
    refine ih ?_ hcleanups.2
    cases cleanup with
    | listener node ticket => exact z.write hw hnode (.unlisten ticket)
    | hook node run => exact z.runs hw hnode (htame node run rfl)

theorem Core.Dwells.detachRoots (h : c.Dwells z) {w : World H} (hw : z.world w) : z.world (c.detachRoots w) := by
  have hroots : ∀ root ∈ c.roots, z.node root := fun root hroot => h.held root (Core.mem_handles.2 (.inr (.inl hroot)))
  unfold Core.detachRoots
  generalize c.roots = roots at hroots
  induction roots generalizing w with
  | nil => exact hw
  | cons root roots ih =>
    rw [List.forall_mem_cons] at hroots
    exact ih (z.detach hw hroots.1) hroots.2

end

variable [ForeignBlocks H] {z : Zone H}

/-! ## Destroying -/

theorem Zone.destroyAll {row : List (Nested H)} (hr : ∀ n ∈ row, n.block.Dwells z)
    (h : ∀ n ∈ row, ∀ d (w : World H), z.world w → z.Leaves (n.block.destroy d w)) (detaching : Bool) {w : World H}
    (hw : z.world w) : z.LeavesAll (LiveMarkup.destroyAll detaching row w) := by
  induction row generalizing w with
  | nil => exact ⟨hw, List.forall_mem_nil _⟩
  | cons n row ih =>
    obtain ⟨index, atRoot, block⟩ := n
    rw [List.forall_mem_cons] at h hr
    have hb := h.1 (detaching && atRoot) w hw
    have hrest := ih hr.2 h.2 hb.world
    exact ⟨hrest.world, List.forall_mem_cons.2 ⟨hb.self, hrest.self⟩⟩

/-- destroying a block takes nodes out of the zone at most -/
theorem Block.Dwells.destroy (ha : z.Admits) {b : Block H} (h : b.Dwells z) (detaching : Bool) {w : World H}
    (hw : z.world w) : z.Leaves (b.destroy detaching w) := by
  revert detaching w
  refine h.induct (P := fun b => ∀ (d : Bool) {w : World H}, z.world w → z.Leaves (b.destroy d w))
    (fun t ht detaching w hw => ?_) (fun f hf detaching w hw => ha.destroy detaching f w hf hw)
    fun core slots children hc ihs ihc detaching w hw => ?_
  · refine ⟨?_, dwells_text.2 fun x hx => absurd hx (Option.not_mem_none x)⟩
    show z.world (t.destroy detaching w).2
    unfold TextBlock.destroy
    cases hnode : t.node with
    | none => exact hw
    | some node =>
      cases detaching with
      | false => exact hw
      | true => exact z.detach hw (dwells_text.1 ht node hnode)
  · obtain ⟨hcore, hslots, hchildren⟩ := Component.dwells_mk.1 hc
    have hcleared : core.cleared.Dwells z :=
      ⟨hcore.lets, fun x hx => by simp [Core.handles, Core.cleared, Phase.handle?] at hx, List.forall_mem_nil _⟩
    by_cases hp : core.phase.Active
    · have hundone : z.world (core.cleanUp (if detaching && core.phase = .mounted then core.detachRoots w else w)) := by
        refine hcore.cleanUp ?_
        split
        · exact hcore.detachRoots hw
        · exact hw
      have hcontents := z.destroyAll hslots (fun n hn d w => ihs n hn d) detaching hundone
      have hkids := z.destroyAll hchildren (fun n hn d w => ihc n hn d) detaching hcontents.world
      show z.Leaves ((Component.destroy detaching (.mk core slots children) w).map .component)
      rw [Component.destroy_eq hp]
      exact ⟨hkids.world, Component.dwells_mk.2 ⟨hcleared, hcontents.self, hkids.self⟩⟩
    · show z.Leaves ((Component.destroy detaching (.mk core slots children) w).map .component)
      rw [Component.destroy]
      cases hphase : core.phase with
      | unmounted => exact ⟨hw, hc⟩
      | destroyed => exact ⟨hw, hc⟩
      | created fragment => rw [hphase] at hp; exact absurd trivial hp
      | mounted => rw [hphase] at hp; exact absurd trivial hp

/-- ends a mount -/
theorem Component.dwells_abandon (ha : z.Admits) {c : Component H} (h : (Block.component c).Dwells z)
    (fault : LifecycleFault) {w : World H} (hw : z.world w) : z.Leaves ((c.abandon fault w).map .component) := by
  obtain ⟨hworld, hself⟩ := h.destroy ha false hw
  change z.world (c.destroy false w).world at hworld
  change (Block.component (c.destroy false w).self).Dwells z at hself
  unfold abandon
  generalize c.destroy false w = o at hworld hself
  obtain ⟨⟨core, slots, children⟩, u, result⟩ := o
  obtain ⟨hcore, hrows⟩ := dwells_mk.1 hself
  refine ⟨hworld, dwells_mk.2 ⟨⟨hcore.lets, fun x hx => ?_, hcore.cleanups⟩, hrows⟩⟩
  rcases Core.mem_handles.1 hx with hx | hx
  · cases hx
  · exact hcore.held x (Core.mem_handles.2 (.inr hx))

/-! ## Creating -/

omit [ForeignBlocks H] in
theorem Zone.textCellsFor {T : Type} (props : Props) (index : Nat) (ps : List (Placeholder (Action H) T)) {w : World H}
    (hw : z.world w) : z.world (LiveMarkup.textCellsFor props index ps w).2 ∧
      ∀ cell ∈ (LiveMarkup.textCellsFor props index ps w).1, z.node cell.node := by
  induction ps generalizing index w with
  | nil => exact ⟨hw, List.forall_mem_nil _⟩
  | cons p ps ih =>
    cases p with
    | text prop =>
      obtain ⟨hworld, hnode⟩ := z.addText hw (props.text prop)
      obtain ⟨hrest, hcells⟩ := ih (index + 1) hworld
      exact ⟨hrest, List.forall_mem_cons.2 ⟨hnode, hcells⟩⟩
    | _ => exact ih (index + 1) hw

omit [ForeignBlocks H] in
theorem attributeCellsFor_element {T : Type} (props : Props) (index : Nat) (ps : List (Placeholder (Action H) T)) :
    ∀ cell ∈ attributeCellsFor props index ps, cell.element = none := by
  induction ps generalizing index with
  | nil => exact List.forall_mem_nil _
  | cons p ps ih =>
    cases p with
    | «attribute» prop name => exact List.forall_mem_cons.2 ⟨rfl, ih (index + 1)⟩
    | _ => exact ih (index + 1)

omit [ForeignBlocks H] in
/-- a component that is neither created nor mounted gets new nodes -/
theorem Core.Dwells.prepare {c : Core H} (h : c.Dwells z) (hp : ¬ c.phase.Active) {w : World H} (hw : z.world w) :
    z.world (c.prepare w).2.2 ∧ z.node (c.prepare w).2.1 ∧ (c.prepare w).1.Dwells z ∧
      Core.Dwells z { (c.prepare w).1 with phase := .created (c.prepare w).2.1 } := by
  obtain ⟨hworld, hfragment⟩ := z.addFragment hw c.template.skeleton
  obtain ⟨hlast, hcells⟩ := z.textCellsFor c.props 0 c.template.placeholders hworld
  have hphase : c.phase.handle? = none := by
    cases hphase : c.phase with
    | created fragment => rw [hphase] at hp; exact absurd trivial hp
    | _ => rfl
  have hdwells : ∀ phase : Phase, (∀ x ∈ phase.handle?, z.node x) →
      Core.Dwells z { (c.prepare w).1 with phase } := by
    intro phase hphase
    refine ⟨h.lets, fun x hx => ?_, h.cleanups⟩
    rcases Core.mem_handles.1 hx with hx | hx | ⟨cell, hcell, rfl⟩ | ⟨cell, hcell, hx⟩ | hx
    · exact hphase x hx
    · exact h.held x (Core.mem_handles.2 (.inr (.inl hx)))
    · exact hcells cell hcell
    · rw [attributeCellsFor_element _ _ _ cell hcell] at hx
      cases hx
    · exact h.held x (Core.mem_handles.2 (.inr (.inr (.inr (.inr hx)))))
  refine ⟨hlast, hfragment, hdwells c.phase fun x hx => ?_, hdwells (.created _) fun x hx => ?_⟩
  · rw [hphase] at hx
    cases hx
  · obtain rfl := Option.some.inj hx
    exact hfragment

theorem Zone.createAll {row : List (Nested H)} (hr : ∀ n ∈ row, n.block.Dwells z)
    (h : ∀ n ∈ row, ∀ w : World H, z.world w → z.Leaves (n.block.create w)) {w : World H} (hw : z.world w) :
    z.LeavesAll (LiveMarkup.createAll row w) := by
  induction row generalizing w with
  | nil => exact ⟨hw, List.forall_mem_nil _⟩
  | cons n row ih =>
    obtain ⟨index, atRoot, block⟩ := n
    rw [List.forall_mem_cons] at h hr
    have hb := h.1 w hw
    rw [LiveMarkup.createAll]
    split
    · exact ⟨hb.world, List.forall_mem_cons.2 ⟨hb.self, hr.2⟩⟩
    · have hrest := ih hr.2 h.2 hb.world
      exact ⟨hrest.world, List.forall_mem_cons.2 ⟨hb.self, hrest.self⟩⟩

theorem TextBlock.dwells_create {t : TextBlock} (ht : (Block.text t : Block H).Dwells z) {w : World H} (hw : z.world w) :
    z.world (t.create w).2 ∧ (Block.text (t.create w).1 : Block H).Dwells z := by
  unfold TextBlock.create
  cases hnode : t.node with
  | some node => exact ⟨hw, ht⟩
  | none =>
    obtain ⟨hworld, hnew⟩ := z.addText hw t.data
    exact ⟨hworld, Block.dwells_text.2 fun x hx => Option.some.inj hx ▸ hnew⟩

/-- creating a block makes new nodes -/
theorem Block.Dwells.create (ha : z.Admits) {b : Block H} (h : b.Dwells z) {w : World H} (hw : z.world w) :
    z.Leaves (b.create w) := by
  revert w
  refine h.induct (P := fun b => ∀ {w : World H}, z.world w → z.Leaves (b.create w)) (fun t ht w hw => ?_)
    (fun f hf w hw => ha.create f w hf hw) fun core slots children hc ihs ihc w hw => ?_
  · obtain ⟨hworld, hself⟩ := TextBlock.dwells_create ht hw
    exact ⟨hworld, hself⟩
  · obtain ⟨hcore, hslots, hchildren⟩ := Component.dwells_mk.1 hc
    show z.Leaves (((Component.mk core slots children).create w).map .component)
    by_cases hp : core.phase.Active
    · rw [Component.create]
      cases hphase : core.phase with
      | created fragment => exact ⟨hw, hc⟩
      | mounted => exact ⟨hw, hc⟩
      | unmounted => rw [hphase] at hp; exact hp.elim
      | destroyed => rw [hphase] at hp; exact hp.elim
    · obtain ⟨hprepared, -, hwaiting, hcreated⟩ := hcore.prepare hp hw
      have hkids := z.createAll hchildren (fun n hn w => ihc n hn) hprepared
      have hcontents := z.createAll hslots (fun n hn w => ihs n hn) hkids.world
      rw [Component.create_eq hp]
      dsimp only
      cases (LiveMarkup.createAll children (core.prepare w).2.2).result with
      | error fault => exact ⟨hkids.world, Component.dwells_mk.2 ⟨hwaiting, hslots, hkids.self⟩⟩
      | ok =>
        dsimp only
        cases (LiveMarkup.createAll slots (LiveMarkup.createAll children (core.prepare w).2.2).world).result with
        | error fault => exact ⟨hcontents.world, Component.dwells_mk.2 ⟨hwaiting, hcontents.self, hkids.self⟩⟩
        | ok => exact ⟨hcontents.world, Component.dwells_mk.2 ⟨hcreated, hcontents.self, hkids.self⟩⟩

/-! ## Mounting -/

omit [ForeignBlocks H] in
theorem Zone.discardAll {spots : List (Nat × NodeId)} (hs : ∀ spot ∈ spots, z.node spot.2) (held : List NodeId)
    {w : World H} (hw : z.world w) : z.world (w.discardAll held spots) := by
  induction spots generalizing w with
  | nil => exact hw
  | cons spot spots ih =>
    rw [List.forall_mem_cons] at hs
    exact ih hs.2 (z.discard hw hs.1 _)

/-- a row is mounted block by block, each before its marker -/
theorem Zone.mountRow {row : List (Nested H)} (hr : ∀ n ∈ row, n.block.Dwells z)
    (h : ∀ n ∈ row, ∀ (target : NodeId) (anchor : Option NodeId) (w : World H), z.node target →
      (∀ a ∈ anchor, z.node a) → z.world w → z.Leaves (n.block.mountCreated target anchor w))
    (fragment : NodeId) (held later : List NodeId) {spots : List (Nat × NodeId)} (hs : ∀ spot ∈ spots, z.node spot.2)
    {w : World H} (hw : z.world w) : z.LeavesAll (LiveMarkup.mountRow fragment held later row spots w) := by
  induction row generalizing held spots w with
  | nil => exact ⟨z.discardAll hs _ hw, List.forall_mem_nil _⟩
  | cons n row ih =>
    obtain ⟨index, atRoot, block⟩ := n
    rw [List.forall_mem_cons] at h hr
    have hsplit : ∀ spot ∈ spots.takeWhile (·.1 ≠ index) ++ spots.dropWhile (·.1 ≠ index), z.node spot.2 := by
      rw [List.takeWhile_append_dropWhile]
      exact hs
    obtain ⟨hempty, hahead⟩ := List.forall_mem_append.1 hsplit
    have hcleared := z.discardAll hempty (held ++ (spots.dropWhile (·.1 ≠ index)).map (·.2) ++ later) hw
    rw [LiveMarkup.mountRow]
    dsimp only
    generalize w.discardAll (held ++ (spots.dropWhile (·.1 ≠ index)).map (·.2) ++ later)
      (spots.takeWhile (·.1 ≠ index)) = w₁ at hcleared ⊢
    cases hspots : spots.dropWhile (·.1 ≠ index) with
    | nil =>
      have hrest := ih hr.2 h.2 held (List.forall_mem_nil _) hcleared
      exact ⟨hrest.world, List.forall_mem_cons.2 ⟨hr.1, hrest.self⟩⟩
    | cons spot after =>
      obtain ⟨place, spot⟩ := spot
      rw [hspots, List.forall_mem_cons] at hahead
      dsimp only
      cases hparent : w₁.document.parent? spot with
      | none =>
        have hrest := ih hr.2 h.2 held hahead.2 (z.discard hcleared hahead.1 (held ++ (after.map (·.2) ++ later)))
        exact ⟨hrest.world, List.forall_mem_cons.2 ⟨hr.1, hrest.self⟩⟩
      | some parent =>
        have hb := h.1 parent (some spot) w₁ (z.parent hcleared hahead.1 hparent)
          (fun a ha => Option.some.inj ha ▸ hahead.1) hcleared
        dsimp only
        cases (block.mountCreated parent (some spot) w₁).result with
        | error fault => exact ⟨hb.world, List.forall_mem_cons.2 ⟨hb.self, hr.2⟩⟩
        | ok =>
          have hrest := ih hr.2 h.2 (held ++ (block.mountCreated parent (some spot) w₁).self.handles) hahead.2
            (z.discard hb.world hahead.1
              (held ++ (block.mountCreated parent (some spot) w₁).self.handles ++ (after.map (·.2) ++ later)))
          exact ⟨hrest.world, List.forall_mem_cons.2 ⟨hb.self, hrest.self⟩⟩

/-- mounting a block below a node of the zone stays in the zone, whatever it results in -/
theorem Block.Dwells.mountCreated (ha : z.Admits) {b : Block H} (h : b.Dwells z) {target : NodeId}
    {anchor : Option NodeId} (ht : z.node target) (hanchor : ∀ a ∈ anchor, z.node a) {w : World H} (hw : z.world w) :
    z.Leaves (b.mountCreated target anchor w) := by
  revert target anchor w
  refine h.induct (P := fun b => ∀ {target : NodeId} {anchor : Option NodeId}, z.node target →
      (∀ a ∈ anchor, z.node a) → ∀ {w : World H}, z.world w → z.Leaves (b.mountCreated target anchor w))
    (fun t htext target anchor ht hanchor w hw => ?_)
    (fun f hf target anchor ht hanchor w hw => ha.mount target anchor f w hf hw ht hanchor)
    fun core slots children hc ihs ihc target anchor ht hanchor w hw => ?_
  · obtain ⟨hworld, hself⟩ := TextBlock.dwells_create htext hw
    refine ⟨?_, hself⟩
    show z.world (t.mount target anchor w).2
    unfold TextBlock.mount
    dsimp only
    cases hnode : (t.create w).1.node with
    | none => exact hworld
    | some node => exact z.insert hworld ht (dwells_text.1 hself node hnode) anchor
  · obtain ⟨hcore, hslots, hchildren⟩ := Component.dwells_mk.1 hc
    show z.Leaves (((Component.mk core slots children).mountCreated target anchor w).map .component)
    rw [Component.mountCreated]
    cases hp : core.phase with
    | mounted | unmounted | destroyed => exact ⟨hw, hc⟩
    | created fragment =>
      have hf : z.node fragment := hcore.held fragment (Core.mem_handles.2 (.inl (by rw [hp]; rfl)))
      obtain ⟨hbound, hself⟩ := hcore.bind hw hf
      have hgiven := Component.dwells_mk.2 ⟨hself, hslots, hchildren⟩
      dsimp only
      cases (core.bind fragment w).result with
      | error fault => exact Component.dwells_abandon ha hgiven fault hbound
      | ok =>
        dsimp only
        cases hslotSpots : (core.bind fragment w).world.spots fragment .slot
            (indicesOf core.template.placeholders .slot) with
        | error fault => exact Component.dwells_abandon ha hgiven fault hbound
        | ok slotSpots =>
          cases hchildSpots : (core.bind fragment w).world.spots fragment .child
              (indicesOf core.template.placeholders .child) with
          | error fault => exact Component.dwells_abandon ha hgiven fault hbound
          | ok childSpots =>
            dsimp only
            have hroots : ∀ root ∈ ((core.bind fragment w).world.document.children fragment).filter
                (!((slotSpots ++ childSpots).map (·.2)).contains ·), z.node root := fun root hroot =>
              z.below hbound hf (List.map_subset _ (Forest.roots_subset_labels _) (List.mem_of_mem_filter hroot))
            generalize ((core.bind fragment w).world.document.children fragment).filter
              (!((slotSpots ++ childSpots).map (·.2)).contains ·) = roots at hroots ⊢
            have hrooted : ∀ phase : Phase, (∀ x ∈ phase.handle?, z.node x) →
                Core.Dwells z { (core.bind fragment w).self with roots, phase } := by
              intro phase hphase
              refine ⟨hself.lets, fun x hx => ?_, hself.cleanups⟩
              rcases Core.mem_handles.1 hx with hx | hx | hx
              · exact hphase x hx
              · exact hroots x hx
              · exact hself.held x (Core.mem_handles.2 (.inr (.inr hx)))
            have hwaiting := hrooted (core.bind fragment w).self.phase fun x hx =>
              hself.held x (Core.mem_handles.2 (.inl hx))
            generalize Core.handles { (core.bind fragment w).self with roots } = held
            have hcontents := z.mountRow hslots (fun n hn target anchor w ht hanchor => ihs n hn ht hanchor) fragment held
              (childSpots.map (·.2)) (z.spots hbound hf hslotSpots) hbound
            generalize LiveMarkup.mountRow fragment held (childSpots.map (·.2)) slots slotSpots
              (core.bind fragment w).world = contents at hcontents ⊢
            cases contents.result with
            | error fault =>
              exact Component.dwells_abandon ha (Component.dwells_mk.2 ⟨hwaiting, hcontents.self, hchildren⟩) fault
                hcontents.world
            | ok =>
              dsimp only
              have hkids := z.mountRow hchildren (fun n hn target anchor w ht hanchor => ihc n hn ht hanchor) fragment
                (held ++ handlesOf contents.self) [] (z.spots hbound hf hchildSpots) hcontents.world
              generalize LiveMarkup.mountRow fragment (held ++ handlesOf contents.self) [] children childSpots
                contents.world = kids at hkids ⊢
              cases kids.result with
              | error fault =>
                exact Component.dwells_abandon ha (Component.dwells_mk.2 ⟨hwaiting, hcontents.self, hkids.self⟩) fault
                  hkids.world
              | ok =>
                exact ⟨z.insert hkids.world ht hf anchor, Component.dwells_mk.2
                  ⟨hrooted .mounted fun x hx => absurd hx (Option.not_mem_none x), hcontents.self, hkids.self⟩⟩

/-- where there are no blocks of the host -/
theorem Zone.besides_admits (T : Node (Listener H.Handler) × Forest (Node (Listener H.Handler))) :
    (Zone.besides T : Zone H).Admits :=
  ⟨fun _ _ hf _ => hf.guests.elim, fun _ _ _ _ hf _ _ _ => hf.guests.elim, fun _ _ _ hf _ => hf.guests.elim⟩

/-! ## Starting and dropping -/

omit [ForeignBlocks H] in
/-- a component that has not been created yet holds nothing -/
theorem Core.dwells_new {c : Core H} (h : z.LetsAll c.template) (hidle : c.Idle) (hp : c.phase = .unmounted) :
    c.Dwells z := by
  refine ⟨h, fun x hx => ?_, hidle.cleanups ▸ List.forall_mem_nil _⟩
  simp [Core.handles, hp, Phase.handle?, hidle.roots, hidle.textCells, hidle.attributeCells, hidle.cleanups,
    hidle.updateHooks] at hx

/-- a new instance is in every zone in which its actions may be run -/
theorem Component.InstanceOf.dwells {t : Template (Action H)} {props : Props} {c : Component H}
    (h : c.InstanceOf t props) (ht : t.Everywhere z.LetsAll) : (Block.component c).Dwells z := by
  induction h with
  | mk channel indices flags placed kids ih =>
    refine dwells_mk.2 ⟨Core.dwells_new ht.self ⟨id, rfl, rfl, rfl, rfl, rfl⟩ rfl, List.forall_mem_nil _, fun n hn => ?_⟩
    obtain ⟨u, bindings, child, hp, hblock⟩ := placed n hn
    rw [hblock]
    exact ih n hn u bindings child hp hblock (ht.child hp)

/-- the same with what is in its slots -/
theorem Component.furnished_dwells {t : Template (Action H)} {options : Options H} (ht : t.Everywhere z.LetsAll)
    (hslots : ∀ e ∈ options.slots, e.2.Dwells z) (w : World H) : (Block.component (furnished t options w)).Dwells z := by
  have hmade := (ofTemplate_instance t options.props w).dwells ht
  unfold furnished
  generalize (ofTemplate t options.props w).1 = c at hmade
  obtain ⟨core, slots, children⟩ := c
  obtain ⟨hcore, -, hchildren⟩ := dwells_mk.1 hmade
  refine dwells_mk.2 ⟨⟨hcore.lets, hcore.held, hcore.cleanups⟩, fun n hn => ?_, hchildren⟩
  obtain ⟨e, he, hb⟩ := mem_fillSlots hn
  exact hb ▸ hslots e he

omit [ForeignBlocks H] in
theorem Zone.dropAll {row : List (Nested H)} (h : ∀ n ∈ row, ∀ w : World H, z.world w → z.world (n.block.drop w))
    {w : World H} (hw : z.world w) : z.world (LiveMarkup.dropAll row w) := by
  induction row generalizing w with
  | nil => exact hw
  | cons n row ih =>
    obtain ⟨index, atRoot, block⟩ := n
    rw [List.forall_mem_cons] at h
    exact ih h.2 (h.1 w hw)

/-- a block that is dropped undoes what it has to undo -/
theorem Block.Dwells.drop {b : Block H} (h : b.Dwells z) {w : World H} (hw : z.world w) : z.world (b.drop w) := by
  revert w
  refine h.induct (P := fun b => ∀ {w : World H}, z.world w → z.world (b.drop w)) (fun _ _ _ hw => hw)
    (fun _ _ _ hw => hw) fun core slots children hc ihs ihc w hw => ?_
  obtain ⟨hcore, -, -⟩ := Component.dwells_mk.1 hc
  have hclosed : z.world ((core.cleanUp w).updateChannel core.channel .close) := z.alike (hcore.cleanUp hw) ⟨rfl, rfl⟩
  exact z.dropAll (fun n hn _ => ihc n hn) (z.dropAll (fun n hn _ => ihs n hn) hclosed)

/-- blocks that are dropped one after another -/
theorem Zone.dropEntries {blocks : Entries (Block H)} (h : ∀ e ∈ blocks, e.2.Dwells z) {w : World H} (hw : z.world w) :
    z.world (LiveMarkup.dropEntries blocks w) := by
  unfold LiveMarkup.dropEntries
  induction blocks generalizing w with
  | nil => exact hw
  | cons e blocks ih =>
    rw [List.forall_mem_cons] at h
    exact ih h.2 (h.1.drop hw)

/-! ## Modest components -/

/-- the actions of a block leave the document alone, and so does what they have left behind, at any depth -/
def Block.Modest (b : Block H) : Prop := b.Dwells Zone.everywhere

def Component.Modest (c : Component H) : Prop := (Block.component c).Modest

/-- blocks of the host are somewhere -/
theorem Zone.everywhere_admits : (Zone.everywhere : Zone H).Admits := by
  have hforeign : ∀ f, (Block.foreign f : Block H).Dwells Zone.everywhere := fun f => ⟨fun _ _ => trivial, trivial, trivial⟩
  exact ⟨fun f w _ _ => ⟨trivial, hforeign _⟩, fun target anchor f w _ _ _ _ => ⟨trivial, hforeign _⟩,
    fun detaching f w _ _ => ⟨trivial, hforeign _⟩⟩

theorem Component.Like.modest {c c' : Component H} (h : c.Like footing c') (hc : c.Modest) : c'.Modest := by
  refine ⟨fun _ _ => trivial, h.each (fun a b hab ha => ⟨?_, fun _ _ => trivial, ?_⟩) (fun _ _ _ => id) hc.each,
    Block.guests_of_all (fun _ => trivial) _⟩
  · rw [hab.template]
    exact ha.lets
  · rw [hab.cleanups]
    exact ha.cleanups

/-- a component stays modest whatever is done with it -/
theorem Component.Modest.call {c : Component H} (h : c.Modest) (call : Call NodeId) (w : World H) :
    (c.call w call).self.Modest := by
  have ha : (Zone.everywhere : Zone H).Admits := Zone.everywhere_admits
  have hcreate : (c.create w).self.Modest := (Block.Dwells.create ha h (w := w) trivial).self
  have hmount : ∀ {c : Component H}, c.Modest → ∀ target anchor u, (c.mountCreated target anchor u).self.Modest := by
    intro c hc target anchor u
    have hleaves : (Zone.everywhere : Zone H).Leaves ((Block.component c).mountCreated target anchor u) :=
      Block.Dwells.mountCreated ha hc trivial (fun _ _ => trivial) trivial
    exact hleaves.self
  cases call with
  | create => exact hcreate
  | destroy detaching => exact (Block.Dwells.destroy ha h detaching (w := w) trivial).self
  | update changed => exact (c.update_footing changed w).modest h
  | set incoming => exact (c.tick_footing incoming none w).modest h
  | tick incoming context => exact (c.tick_footing incoming context w).modest h
  | transition t isLocal => exact (c.transition_footing t isLocal w).modest h
  | mount target anchor =>
    show (c.mount target anchor w).self.Modest
    by_cases hp : c.core.phase.Active
    · rw [mount]
      cases hphase : c.core.phase with
      | mounted => exact h
      | created fragment => exact hmount h target anchor w
      | unmounted => rw [hphase] at hp; exact hp.elim
      | destroyed => rw [hphase] at hp; exact hp.elim
    · cases hr : (c.create w).result with
      | error fault =>
        rw [mount_of_error hp target anchor hr]
        exact hcreate
      | ok =>
        rw [mount_of_ok hp target anchor hr]
        exact hmount hcreate target anchor _

theorem Component.Modest.over {c : Component H} (h : c.Modest) (calls : List (Call NodeId × World H)) :
    (c.over calls).Modest := by
  induction calls generalizing c with
  | nil => exact h
  | cons e calls ih => exact ih (h.call e.1 e.2)

/-- an instance is modest if all its templates are quiet, and all that is in its slots is modest -/
theorem Component.furnished_modest {t : Template (Action H)} {options : Options H} (ht : t.Everywhere Template.Quiet)
    (hslots : ∀ e ∈ options.slots, e.2.Modest) (w : World H) : (furnished t options w).Modest :=
  furnished_dwells (Template.Everywhere.imp (fun _ hq _ run param hin => (hq run param hin).lets) t ht ht) hslots w

/-- a modest block dwells where all nodes are that it holds or listens to -/
theorem Block.Modest.dwells {b : Block H} (h : b.Modest) (hguest : ∀ f, z.guest f) (hheld : ∀ x ∈ b.handles, z.node x)
    (hheard : b.Each (fun core => ∀ cleanup ∈ core.cleanups, z.node cleanup.node) fun _ => True) : b.Dwells z := by
  revert hheld hheard
  refine Block.Dwells.induct (P := fun b => (∀ x ∈ b.handles, z.node x) →
      b.Each (fun core => ∀ cleanup ∈ core.cleanups, z.node cleanup.node) (fun _ => True) → b.Dwells z)
    (fun t _ hheld _ => ⟨hheld, trivial, trivial⟩) (fun f _ hheld _ => ⟨hheld, trivial, hguest f⟩)
    (fun core slots children hc ihs ihc hheld hheard => ?_) h
  obtain ⟨hcore, -, -⟩ := Component.dwells_mk.1 hc
  have hin : ∀ x, x ∈ core.handles ∨ x ∈ handlesOf slots ∨ x ∈ handlesOf children → z.node x := fun x hx => by
    refine hheld x ?_
    rw [Block.handles, Component.handles, List.mem_append, List.mem_append, or_assoc]
    exact hx
  refine Component.dwells_mk.2 ⟨⟨fun run param hp => (hcore.lets run param hp).narrow z, fun x hx => hin x (.inl hx),
    fun cleanup hcleanup => ⟨fun node run he => z.quiet ((hcore.cleanups cleanup hcleanup).tame node run he),
      hheard.1 cleanup hcleanup⟩⟩, fun n hn => ?_, fun n hn => ?_⟩
  · exact ihs n hn (fun x hx => hin x (.inr (.inl (mem_handlesOf_iff.2 ⟨n, hn, hx⟩)))) (eachOf_iff.1 hheard.2.1 n hn)
  · exact ihc n hn (fun x hx => hin x (.inr (.inr (mem_handlesOf_iff.2 ⟨n, hn, hx⟩)))) (eachOf_iff.1 hheard.2.2 n hn)

end LiveMarkup
