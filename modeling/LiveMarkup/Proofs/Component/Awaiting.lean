/-
Components that await being mounted.

What a component has made when it is created stands by itself: its fragment with the copy of its skeleton, and each of its
text nodes. The same goes for all that is nested in it, so the trees of different components have no node in common. As long
as these trees are left alone, the component awaits being mounted, whatever happens elsewhere in the document.

An action minds where it is if it leaves alone the trees that it was not run in, the channels, and what is heard.

- `Block.Awaits.mono`: a component goes on waiting while its trees are left alone;
- `Block.makes`: what is created awaits being mounted, in new trees;
- `Block.Awaits.dwells`: a component that waits has nothing in any other tree.
-/
import LiveMarkup.Proofs.Component.Calm
import LiveMarkup.Proofs.Component.Zone
import LiveMarkup.Proofs.Document.Heard

namespace LiveMarkup

open Markup Forest

/-! ## Trees -/

namespace Document

variable {L : Type} {d : Document L} {T T' : Node L × Forest (Node L)} {x : NodeId}

/-- a text that stands by itself -/
def Lone (d : Document L) (x : NodeId) : Prop := ∃ data, (⟨x, .text data, [], 0⟩, nil) ∈ d.forest.trees

/-- a node of a document is in one of its trees -/
theorem exists_tree_of_mem {f : Forest (Node L)} (hx : x ∈ f.ids) : ∃ T ∈ f.trees, x ∈ (tree T.1 T.2).ids := by
  induction f with
  | nil => cases hx
  | cons n cs rest _ ih =>
    rw [ids, labels, List.map_cons, List.map_append, List.mem_cons, List.mem_append] at hx
    rcases hx with rfl | hx | hx
    · exact ⟨(n, cs), List.mem_cons_self, List.mem_cons_self⟩
    · refine ⟨(n, cs), List.mem_cons_self, ?_⟩
      rw [ids_tree]
      exact List.mem_cons_of_mem _ hx
    · obtain ⟨T, hT, hx⟩ := ih hx
      exact ⟨T, List.mem_cons_of_mem _ hT, hx⟩

theorem mem_ids_of_tree (hT : T ∈ d.forest.trees) (hx : x ∈ (tree T.1 T.2).ids) : x ∈ d.forest.ids := by
  obtain ⟨g, k, hf⟩ := exists_append_of_tree hT
  rw [hf, ids_append, ids_append]
  exact List.mem_append_right _ (List.mem_append_left _ hx)

theorem root_mem (T : Node L × Forest (Node L)) : T.1.id ∈ (tree T.1 T.2).ids := by
  rw [ids_tree]
  exact List.mem_cons_self

/-- a node is in one tree only -/
theorem tree_unique (hv : d.Valid) (hT : T ∈ d.forest.trees) (hT' : T' ∈ d.forest.trees) (hx : x ∈ (tree T.1 T.2).ids)
    (hx' : x ∈ (tree T'.1 T'.2).ids) : T = T' := by
  obtain ⟨g, k, hf⟩ := exists_append_of_tree hT
  have hnodup := hv.nodup
  rw [hf, ids_append, ids_append, List.nodup_append', List.nodup_append'] at hnodup
  obtain ⟨-, ⟨-, -, hapart⟩, hbefore⟩ := hnodup
  have hother : ∀ f : Forest (Node L), T' ∈ f.trees → x ∈ f.ids := by
    intro f hin
    obtain ⟨g, k, rfl⟩ := exists_append_of_tree hin
    rw [ids_append, ids_append]
    exact List.mem_append_right _ (List.mem_append_left _ hx')
  rw [hf, trees_append, trees_append, List.mem_append, List.mem_append, trees_tree, List.mem_singleton] at hT'
  rcases hT' with hT' | rfl | hT'
  · exact absurd (List.mem_append_left _ hx) (hbefore (hother g hT'))
  · rfl
  · exact absurd (hother k hT') (hapart hx)

/-- the root of one tree is in no other -/
theorem outside_of_root (hv : d.Valid) (hT : T ∈ d.forest.trees) (hT' : T' ∈ d.forest.trees) (hne : T.1.id ≠ T'.1.id) :
    Outside T T'.1.id := fun hin => hne (congrArg (·.1.id) (tree_unique hv hT hT' hin (root_mem T')))

end Document

variable {H : Host}

/-! ## Actions that mind where they are -/

/-- the channels have been left alone, and so has what is heard, but for some -/
structure World.Retunes (K : List Nat) (w w' : World H) : Prop where
  channels : w'.channels = w.channels
  tunes : Document.Retunes K w.document w'.document

section

variable {w w₁ w₂ : World H} {K K' : List Nat}

theorem World.Retunes.refl (hd : w.document.Intact) : w.Retunes K w := ⟨rfl, .refl hd⟩

theorem World.Retunes.trans (h : w.Retunes K w₁) (h' : w₁.Retunes K w₂) : w.Retunes K w₂ :=
  ⟨h'.channels.trans h.channels, h.tunes.trans h'.tunes⟩

theorem World.Retunes.mono (h : w.Retunes K w₁) (hK : K ⊆ K') : w.Retunes K' w₁ := ⟨h.channels, h.tunes.mono hK⟩

end

/-- the trees that the node is not in have been left alone, and so have the channels, and what is heard -/
structure World.Minds (x : NodeId) (w w' : World H) : Prop extends World.Retunes [] w w' where
  spares : ∀ T, w.document.Spared T → Document.Outside T x → w'.document.Spared T

/-- what may be done at a node -/
def MindsAt (x : NodeId) (run : World H → World H) : Prop := ∀ w : World H, w.document.Intact → w.Minds x (run w)

/-- the action minds where it is, and so does what it leaves to be done at the end -/
structure Action.Minds (run : Action H) : Prop where
  now : ∀ x value, MindsAt x fun w => (run x value w).1
  later : ∀ x value (w : World H), w.document.Intact → ∀ destroy ∈ (run x value w).2.destroy, MindsAt x destroy

/-- a template that is sound, with actions that mind where they are -/
structure Template.Apt (t : Template (Action H)) : Prop where
  sound : t.Sound
  minds : ∀ run param, .action run param ∈ t.placeholders → Action.Minds run

theorem MindsAt.tame {x : NodeId} {run : World H → World H} (h : MindsAt x run)
    (T : Node (Listener H.Handler) × Forest (Node (Listener H.Handler))) : (Zone.besides T : Zone H).tame x run :=
  fun w hw hx => (h w hw.intact).spares T hw hx

theorem Template.Apt.lets {t : Template (Action H)} (h : t.Apt)
    (T : Node (Listener H.Handler) × Forest (Node (Listener H.Handler))) : (Zone.besides T : Zone H).LetsAll t :=
  fun run param hin x value => ⟨((h.minds run param hin).now x value).tame T,
    fun w hw destroy hd => ((h.minds run param hin).later x value w (Document.Spared.intact hw) destroy hd).tame T⟩

/-! ## Awaiting -/

def Template.copy {A : Type} (L : Type) (t : Template A) (fragment : NodeId) : Node L × Forest (Node L) :=
  (⟨fragment, .fragment, [], 0⟩, (Document.plant t.skeleton (fragment + 1)).1)

/-- a component that has been created: the copy and the texts are as they were made, and nothing is bound yet -/
structure Core.Awaits (d : Document (Listener H.Handler)) (c : Core H) : Prop where
  copy : ∃ fragment, c.phase = .created fragment ∧ c.template.copy _ fragment ∈ d.forest.trees
  texts : ∀ cell ∈ c.textCells, d.Lone cell.node
  attributes : ∀ cell ∈ c.attributeCells, cell.element = none ∧ Marker.ofAttribute? cell.name = none
  roots : c.roots = []
  cleanups : c.cleanups = []
  updateHooks : c.updateHooks = []

def TextBlock.Awaits (d : Document (Listener H.Handler)) (t : TextBlock) : Prop := ∃ x, t.node = some x ∧ d.Lone x

/-- a component that waits holds its fragment and its text nodes -/
theorem Core.Awaits.handles {d : Document (Listener H.Handler)} {c : Core H} (h : c.Awaits d) {fragment : NodeId}
    (hp : c.phase = .created fragment) : c.handles = fragment :: c.textCells.map (·.node) := by
  have hnone : c.attributeCells.filterMap (·.element) = [] :=
    List.filterMap_eq_nil_iff.2 fun cell hcell => (h.attributes cell hcell).1
  rw [Core.handles, hp, h.roots, h.cleanups, h.updateHooks, hnone]
  simp [Phase.handle?]

/-- all that it holds stands by itself -/
theorem Core.Awaits.root {d : Document (Listener H.Handler)} {c : Core H} (h : c.Awaits d) {x : NodeId}
    (hx : x ∈ c.handles) : ∃ T ∈ d.forest.trees, T.1.id = x := by
  obtain ⟨fragment, hp, hcopy⟩ := h.copy
  rw [h.handles hp, List.mem_cons, List.mem_map] at hx
  rcases hx with rfl | ⟨cell, hcell, rfl⟩
  · exact ⟨_, hcopy, rfl⟩
  · obtain ⟨data, hdata⟩ := h.texts cell hcell
    exact ⟨_, hdata, rfl⟩

/-- it goes on waiting while its trees are left alone -/
theorem Core.Awaits.mono {d d' : Document (Listener H.Handler)} {c : Core H} (h : c.Awaits d)
    (hkept : ∀ T ∈ d.forest.trees, T.1.id ∈ c.handles → T ∈ d'.forest.trees) : c.Awaits d' := by
  obtain ⟨fragment, hp, hcopy⟩ := h.copy
  have hown := h.handles hp
  refine ⟨⟨fragment, hp, hkept _ hcopy ?_⟩, fun cell hcell => ?_, h.attributes, h.roots, h.cleanups, h.updateHooks⟩
  · rw [hown]
    exact List.mem_cons_self
  · obtain ⟨data, hdata⟩ := h.texts cell hcell
    refine ⟨data, hkept _ hdata ?_⟩
    rw [hown]
    exact List.mem_cons_of_mem _ (List.mem_map_of_mem hcell)

variable [ForeignBlocks H]

/-- everything in a block awaits being mounted, in trees of its own -/
structure Block.Awaits (d : Document (Listener H.Handler)) (b : Block H) : Prop where
  each : b.Each (Core.Awaits d) (TextBlock.Awaits d)
  nodup : b.handles.Nodup

section

variable {d d' : Document (Listener H.Handler)}

theorem Component.awaits_mk {core : Core H} {slots children : List (Nested H)} :
    (Block.component (.mk core slots children)).Awaits d ↔ core.Awaits d ∧ (∀ n ∈ slots, n.block.Awaits d) ∧
      (∀ n ∈ children, n.block.Awaits d) ∧ (core.handles ++ handlesOf slots ++ handlesOf children).Nodup := by
  have hrow : ∀ row : List (Nested H), (handlesOf row).Nodup → ∀ n ∈ row, n.block.handles.Nodup := by
    intro row
    induction row with
    | nil => exact fun _ => List.forall_mem_nil _
    | cons n row ih =>
      obtain ⟨index, atRoot, block⟩ := n
      intro hn
      obtain ⟨hblock, hrest, -⟩ := List.nodup_append'.1 hn
      exact List.forall_mem_cons.2 ⟨hblock, ih hrest⟩
  constructor
  · rintro ⟨⟨hcore, hslots, hchildren⟩, hnodup⟩
    have hnodup : (core.handles ++ handlesOf slots ++ handlesOf children).Nodup := hnodup
    obtain ⟨hboth, hc, -⟩ := List.nodup_append'.1 hnodup
    obtain ⟨-, hs, -⟩ := List.nodup_append'.1 hboth
    exact ⟨hcore, fun n hn => ⟨eachOf_iff.1 hslots n hn, hrow slots hs n hn⟩,
      fun n hn => ⟨eachOf_iff.1 hchildren n hn, hrow children hc n hn⟩, hnodup⟩
  · rintro ⟨hcore, hslots, hchildren, hnodup⟩
    exact ⟨⟨hcore, eachOf_iff.2 fun n hn => (hslots n hn).each, eachOf_iff.2 fun n hn => (hchildren n hn).each⟩, hnodup⟩

/-- it goes on waiting while its trees are left alone -/
theorem Block.Awaits.mono {b : Block H} (hb : b.Built) (h : b.Awaits d)
    (hkept : ∀ T ∈ d.forest.trees, T.1.id ∈ b.handles → T ∈ d'.forest.trees) : b.Awaits d' := by
  refine ⟨?_, h.nodup⟩
  revert hkept
  refine Block.built_induct (P := fun b => (∀ T ∈ d.forest.trees, T.1.id ∈ b.handles → T ∈ d'.forest.trees) →
    b.Each (Core.Awaits d') (TextBlock.Awaits d')) (fun t ht hkept => ?_) (fun core slots children hc ihs ihc hkept => ?_)
    hb h.each
  · obtain ⟨x, hx, data, hdata⟩ := ht
    exact ⟨x, hx, data, hkept _ hdata (by rw [handles, hx]; exact List.mem_cons_self)⟩
  · have hin : ∀ x, x ∈ core.handles ∨ x ∈ handlesOf slots ∨ x ∈ handlesOf children →
        x ∈ (Block.component (.mk core slots children)).handles := fun x hx => by
      rw [handles, Component.handles, List.mem_append, List.mem_append, or_assoc]
      exact hx
    exact ⟨hc.mono fun T hT hx => hkept T hT (hin _ (.inl hx)),
      eachOf_iff.2 fun n hn => ihs n hn fun T hT hx => hkept T hT (hin _ (.inr (.inl (mem_handlesOf_iff.2 ⟨n, hn, hx⟩)))),
      eachOf_iff.2 fun n hn => ihc n hn fun T hT hx => hkept T hT (hin _ (.inr (.inr (mem_handlesOf_iff.2 ⟨n, hn, hx⟩))))⟩

/-- all that it holds stands by itself -/
theorem Block.Awaits.root {b : Block H} (hb : b.Built) (h : b.Awaits d) : ∀ x ∈ b.handles, ∃ T ∈ d.forest.trees, T.1.id = x := by
  refine Block.built_induct (P := fun b => ∀ x ∈ b.handles, ∃ T ∈ d.forest.trees, T.1.id = x) (fun t ht x hx => ?_)
    (fun core slots children hc ihs ihc x hx => ?_) hb h.each
  · obtain ⟨y, hy, data, hdata⟩ := ht
    rw [handles, hy] at hx
    obtain rfl := List.mem_singleton.1 hx
    exact ⟨_, hdata, rfl⟩
  · rw [handles, Component.handles, List.mem_append, List.mem_append] at hx
    rcases hx with (hx | hx) | hx
    · exact hc.root hx
    · obtain ⟨n, hn, hx⟩ := mem_handlesOf_iff.1 hx
      exact ihs n hn x hx
    · obtain ⟨n, hn, hx⟩ := mem_handlesOf_iff.1 hx
      exact ihc n hn x hx

omit [ForeignBlocks H] in
/-- what it holds is in no other tree -/
theorem Core.Awaits.outside {c : Core H} {T : Node (Listener H.Handler) × Forest (Node (Listener H.Handler))}
    (h : c.Awaits d) (hv : d.Valid) (hT : T ∈ d.forest.trees) (hother : T.1.id ∉ c.handles) {x : NodeId}
    (hx : x ∈ c.handles) : Document.Outside T x := by
  obtain ⟨T', hT', rfl⟩ := h.root hx
  exact Document.outside_of_root hv hT hT' fun he => hother (he ▸ hx)

omit [ForeignBlocks H] in
/-- it has nothing in any other tree itself -/
theorem Core.Awaits.dwells {c : Core H} {T : Node (Listener H.Handler) × Forest (Node (Listener H.Handler))}
    (h : c.Awaits d) (ha : c.template.Apt) (hv : d.Valid) (hT : T ∈ d.forest.trees) (hother : T.1.id ∉ c.handles) :
    c.Dwells (Zone.besides T) := by
  refine ⟨ha.lets T, fun x hx => h.outside hv hT hother hx, fun cleanup hcleanup => ?_⟩
  rw [h.cleanups] at hcleanup
  cases hcleanup

/-- it has nothing in any other tree -/
theorem Block.Awaits.dwells {b : Block H} (hb : b.Built) (h : b.Awaits d) (ha : b.Each (·.template.Apt) fun _ => True)
    (hv : d.Valid) {T : Node (Listener H.Handler) × Forest (Node (Listener H.Handler))} (hT : T ∈ d.forest.trees)
    (hx : T.1.id ∉ b.handles) : b.Dwells (Zone.besides T) := by
  have he : b.Each (fun core => core.Awaits d ∧ core.template.Apt) fun t => t.Awaits d ∧ True := h.each.and ha
  revert hx
  refine Block.built_induct (P := fun b => T.1.id ∉ b.handles → b.Dwells (Zone.besides T))
    (fun t ht hx => Block.dwells_text.2 fun x hin => ?_) (fun core slots children hc ihs ihc hx => ?_) hb he
  · obtain ⟨y, hy, data, hdata⟩ := ht.1
    obtain rfl := Option.some.inj (hy.symm.trans hin)
    refine Document.outside_of_root hv hT hdata fun he => hx ?_
    rw [handles, hy, he]
    exact List.mem_cons_self
  · rw [handles, Component.handles, List.mem_append, List.mem_append, not_or, not_or] at hx
    exact Component.dwells_mk.2 ⟨hc.1.dwells hc.2 hv hT hx.1.1,
      fun n hn => ihs n hn fun h => hx.1.2 (mem_handlesOf_iff.2 ⟨n, hn, h⟩),
      fun n hn => ihc n hn fun h => hx.2 (mem_handlesOf_iff.2 ⟨n, hn, h⟩)⟩

end

/-! ## Creating -/

/-- new trees have come, and nothing else has happened -/
structure World.Adds (w w' : World H) : Prop extends World.Retunes [] w w' where
  kept : ∀ T ∈ w.document.forest.trees, T ∈ w'.document.forest.trees

section

omit [ForeignBlocks H]

variable {w w₁ w₂ : World H}

theorem World.Adds.refl (hd : w.document.Intact) : w.Adds w := ⟨.refl hd, fun _ h => h⟩

theorem World.Adds.trans (h : w.Adds w₁) (h' : w₁.Adds w₂) : w.Adds w₂ :=
  ⟨h.toRetunes.trans h'.toRetunes, fun T hT => h'.kept T (h.kept T hT)⟩

theorem World.adds_addText (hd : w.document.Intact) (data : String) :
    w.Adds (w.addText data).1 ∧ (w.addText data).1.document.Lone (w.addText data).2 := by
  have htrees : (w.addText data).1.document.forest.trees =
      w.document.forest.trees ++ [(⟨w.document.fresh, .text data, [], 0⟩, nil)] := trees_append _ _
  refine ⟨⟨⟨rfl, Document.retunes_add hd (.text data)⟩, fun T hT => ?_⟩, data, ?_⟩
  · rw [htrees]
    exact List.mem_append_left _ hT
  · rw [htrees]
    exact List.mem_append_right _ (List.mem_singleton.2 rfl)

theorem World.adds_addFragment {A : Type} (hd : w.document.Intact) (t : Template A) :
    w.Adds (w.addFragment t.skeleton).1 ∧
      t.copy _ (w.addFragment t.skeleton).2 ∈ (w.addFragment t.skeleton).1.document.forest.trees := by
  have htrees : (w.addFragment t.skeleton).1.document.forest.trees =
      w.document.forest.trees ++ [t.copy _ w.document.fresh] := trees_append _ _
  refine ⟨⟨⟨rfl, Document.retunes_addFragment hd t.skeleton⟩, fun T hT => ?_⟩, ?_⟩
  · rw [htrees]
    exact List.mem_append_left _ hT
  · rw [htrees]
    exact List.mem_append_right _ (List.mem_singleton.2 rfl)

theorem Document.Lone.adds {x : NodeId} (h : w.document.Lone x) (ha : w.Adds w₁) : w₁.document.Lone x := by
  obtain ⟨data, hdata⟩ := h
  exact ⟨data, ha.kept _ hdata⟩

/-- each text placeholder gets a new node of its own -/
theorem adds_textCellsFor {T : Type} (props : Props) (index : Nat) (ps : List (Placeholder (Action H) T))
    (hd : w.document.Intact) :
    w.Adds (textCellsFor props index ps w).2 ∧
      (∀ cell ∈ (textCellsFor props index ps w).1,
        (textCellsFor props index ps w).2.document.Lone cell.node ∧ w.document.fresh ≤ cell.node) ∧
      ((textCellsFor props index ps w).1.map (·.node)).Nodup := by
  induction ps generalizing index w with
  | nil => exact ⟨.refl hd, List.forall_mem_nil _, List.nodup_nil⟩
  | cons p ps ih =>
    cases p with
    | text prop =>
      obtain ⟨hone, hlone⟩ := World.adds_addText hd (props.text prop)
      obtain ⟨hrest, hcells, hnodup⟩ := ih (index + 1) hone.tunes.intact
      refine ⟨hone.trans hrest, List.forall_mem_cons.2 ⟨⟨hlone.adds hrest, Nat.le_refl _⟩, fun cell hcell => ?_⟩,
        List.nodup_cons.2 ⟨fun hin => ?_, hnodup⟩⟩
      · exact ⟨(hcells cell hcell).1, Nat.le_of_succ_le (hcells cell hcell).2⟩
      · obtain ⟨cell, hcell, he⟩ := List.mem_map.1 hin
        exact Nat.ne_of_gt (hcells cell hcell).2 he
    | _ => exact ih (index + 1) hd

end

/-- what is created awaits being mounted, in new trees -/
structure Block.Made (w w' : World H) (b : Block H) : Prop where
  adds : w.Adds w'
  awaits : b.Awaits w'.document
  new : ∀ x ∈ b.handles, w.document.fresh ≤ x

structure MadeAll (w w' : World H) (row : List (Nested H)) : Prop where
  adds : w.Adds w'
  awaits : ∀ n ∈ row, n.block.Awaits w'.document
  new : ∀ x ∈ handlesOf row, w.document.fresh ≤ x
  nodup : (handlesOf row).Nodup

omit [ForeignBlocks H] in
/-- a component that has nothing makes its copy and its texts -/
theorem Core.Idle.made {c : Core H} (hc : c.Idle) (hs : c.template.Sound) {w : World H} (hd : w.document.Intact) :
    let made := { (c.prepare w).1 with phase := .created (c.prepare w).2.1 }
    w.Adds (c.prepare w).2.2 ∧ made.Awaits (c.prepare w).2.2.document ∧ made.handles.Nodup ∧
      ∀ x ∈ made.handles, w.document.fresh ≤ x := by
  intro made
  obtain ⟨hfragment, hcopy⟩ := World.adds_addFragment hd c.template
  obtain ⟨htexts, hcells, hnodup⟩ := adds_textCellsFor c.props 0 c.template.placeholders hfragment.tunes.intact
  have hyoung : (w.addFragment c.template.skeleton).2 < (w.addFragment c.template.skeleton).1.document.fresh :=
    hfragment.tunes.intact.valid.below (Document.mem_ids_of_tree hcopy (Document.root_mem _))
  have hawaits : made.Awaits (c.prepare w).2.2.document := by
    refine ⟨⟨_, rfl, htexts.kept _ hcopy⟩, fun cell hcell => (hcells cell hcell).1, fun cell hcell => ?_, hc.roots,
      hc.cleanups, hc.updateHooks⟩
    exact ⟨attributeCellsFor_element _ _ _ cell hcell, (hs.named _ _ (attribute_mem_of_cell hcell)).2.2⟩
  refine ⟨hfragment.trans htexts, hawaits, ?_, ?_⟩
  · rw [hawaits.handles rfl]
    refine List.nodup_cons.2 ⟨fun hin => ?_, hnodup⟩
    obtain ⟨cell, hcell, he⟩ := List.mem_map.1 hin
    exact Nat.not_lt.2 (hcells cell hcell).2 (he.trans_lt hyoung)
  · rw [hawaits.handles rfl]
    refine List.forall_mem_cons.2 ⟨Nat.le_refl _, fun x hx => ?_⟩
    obtain ⟨cell, hcell, rfl⟩ := List.mem_map.1 hx
    exact Nat.le_trans hfragment.tunes.fresh (hcells cell hcell).2

/-- what waits is still there when new trees have come -/
theorem Block.Awaits.adds {b : Block H} (hb : b.Built) {w w' : World H} (h : b.Awaits w.document) (ha : w.Adds w') :
    b.Awaits w'.document := h.mono hb fun T hT _ => ha.kept T hT

/-- what is new is apart from what was there -/
theorem disjoint_of_new {held new : List NodeId} {n : NodeId} (hh : ∀ x ∈ held, x < n) (hn : ∀ x ∈ new, n ≤ x) :
    List.Disjoint held new := fun x hx hx' => Nat.not_lt.2 (hn x hx') (hh x hx)

theorem Block.Awaits.below {b : Block H} (hb : b.Built) {d : Document (Listener H.Handler)} (h : b.Awaits d)
    (hv : d.Valid) : ∀ x ∈ b.handles, x < d.fresh := by
  intro x hx
  obtain ⟨T, hT, rfl⟩ := h.root hb x hx
  exact hv.below (Document.mem_ids_of_tree hT (Document.root_mem T))

theorem MadeAll.below {w w' : World H} {row : List (Nested H)} (h : MadeAll w w' row) (hb : ∀ n ∈ row, n.block.Built) :
    ∀ x ∈ handlesOf row, x < w'.document.fresh := by
  intro x hx
  obtain ⟨n, hn, hx⟩ := mem_handlesOf_iff.1 hx
  exact (h.awaits n hn).below (hb n hn) h.adds.tunes.intact.valid x hx

theorem Block.Built.create {b : Block H} (h : b.Built) (w : World H) : (b.create w).self.Built := by
  cases b with
  | text t => trivial
  | foreign f => exact h.elim
  | component c => exact (c.create_values w).built_of_values h

/-- a block is created, and what it has made awaits being mounted -/
def Block.Makes (b : Block H) : Prop :=
  b.Built ∧ ∀ w : World H, w.document.Intact → (b.create w).result = .ok () ∧ (b.create w).self.Made w (b.create w).world

theorem createAll_made (row : List (Nested H)) (h : ∀ n ∈ row, n.block.Makes) {w : World H} (hd : w.document.Intact) :
    (createAll row w).result = .ok () ∧ (∀ n ∈ (createAll row w).self, n.block.Built) ∧
      MadeAll w (createAll row w).world (createAll row w).self := by
  induction row generalizing w with
  | nil =>
    exact ⟨rfl, List.forall_mem_nil _, .refl hd, List.forall_mem_nil _, List.forall_mem_nil _, List.nodup_nil⟩
  | cons n row ih =>
    obtain ⟨index, atRoot, block⟩ := n
    rw [List.forall_mem_cons] at h
    obtain ⟨hok, hmade⟩ := h.1.2 w hd
    obtain ⟨hoks, hbuilts, hmades⟩ := ih h.2 hmade.adds.tunes.intact
    have hbuilt := h.1.1.create w
    rw [createAll]
    change (block.create w).result = .ok () at hok
    rw [hok]
    refine ⟨hoks, List.forall_mem_cons.2 ⟨hbuilt, hbuilts⟩, hmade.adds.trans hmades.adds,
      List.forall_mem_cons.2 ⟨hmade.awaits.adds hbuilt hmades.adds, hmades.awaits⟩,
      List.forall_mem_append.2 ⟨hmade.new, fun x hx => Nat.le_trans hmade.adds.tunes.fresh (hmades.new x hx)⟩, ?_⟩
    exact List.nodup_append'.2 ⟨hmade.awaits.nodup, hmades.nodup,
      disjoint_of_new (hmade.awaits.below hbuilt hmade.adds.tunes.intact.valid) hmades.new⟩

/-- **Creating.** A component with all that is nested in it, in which nothing has been created yet, is created; what it has
made awaits being mounted. -/
theorem Block.makes {b : Block H} (hb : b.Built) (hi : b.Idle) (hs : b.Each (·.template.Sound) fun _ => True) : b.Makes := by
  have he : b.Each (fun core => core.Idle ∧ core.template.Sound) fun t => t.node = none ∧ True := hi.and hs
  refine Block.built_induct (P := fun b => b.Built → b.Makes) (fun t ht hb => ⟨hb, fun w hd => ⟨rfl, ?_⟩⟩)
    (fun core slots children hc ihs ihc hb => ⟨hb, fun w hd => ?_⟩) hb he hb
  · obtain ⟨hadds, hlone⟩ := World.adds_addText hd t.data
    show Made w (t.create w).2 (.text (t.create w).1)
    rw [TextBlock.create, ht.1]
    exact ⟨hadds, ⟨⟨_, rfl, hlone⟩, List.nodup_singleton _⟩, List.forall_mem_singleton.2 (Nat.le_refl _)⟩
  · obtain ⟨-, -, hbs, hbc⟩ := hb
    obtain ⟨hadds, hawaits, hnodup, hnew⟩ := hc.1.made hc.2 hd
    obtain ⟨hkids, hbkids, hmkids⟩ := createAll_made children
      (fun n hn => ihc n hn (builtAll_iff.1 hbc n hn)) hadds.tunes.intact
    obtain ⟨hcontents, hbcontents, hmcontents⟩ := createAll_made slots
      (fun n hn => ihs n hn (builtAll_iff.1 hbs n hn)) hmkids.adds.tunes.intact
    have hbelow : ∀ x ∈ Core.handles { (core.prepare w).1 with phase := .created (core.prepare w).2.1 },
        x < (core.prepare w).2.2.document.fresh := by
      intro x hx
      obtain ⟨T, hT, rfl⟩ := hawaits.root hx
      exact hadds.tunes.intact.valid.below (Document.mem_ids_of_tree hT (Document.root_mem T))
    have hlater := hmkids.adds.trans hmcontents.adds
    show (((Component.mk core slots children).create w).map Block.component).result = _ ∧
      Made w (((Component.mk core slots children).create w).map Block.component).world
        (((Component.mk core slots children).create w).map Block.component).self
    rw [Component.create_eq hc.1.phase]
    dsimp only
    rw [hkids]
    dsimp only
    rw [hcontents]
    refine ⟨rfl, hadds.trans hlater, Component.awaits_mk.2 ⟨hawaits.mono fun T hT _ => hlater.kept T hT,
      hmcontents.awaits, fun n hn => (hmkids.awaits n hn).adds (hbkids n hn) hmcontents.adds, ?_⟩, fun x hx => ?_⟩
    · have hkidsNew : ∀ x ∈ handlesOf (createAll children (core.prepare w).2.2).self,
          (core.prepare w).2.2.document.fresh ≤ x := hmkids.new
      have hcontentsNew := fun x hx => Nat.le_trans hmkids.adds.tunes.fresh (hmcontents.new x hx)
      refine List.nodup_append'.2 ⟨List.nodup_append'.2 ⟨hnodup, hmcontents.nodup, disjoint_of_new hbelow hcontentsNew⟩,
        hmkids.nodup, List.disjoint_append_left.2 ⟨disjoint_of_new hbelow hkidsNew, ?_⟩⟩
      exact (disjoint_of_new (hmkids.below hbkids) hmcontents.new).symm
    · rcases List.mem_append.1 hx with hx | hx
      · rcases List.mem_append.1 hx with hx | hx
        · exact hnew x hx
        · exact Nat.le_trans (hadds.trans hmkids.adds).tunes.fresh (hmcontents.new x hx)
      · exact Nat.le_trans hadds.tunes.fresh (hmkids.new x hx)

end LiveMarkup
