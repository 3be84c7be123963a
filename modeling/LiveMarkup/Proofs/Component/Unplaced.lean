/-
Components that are not mounted.

`Unplaced made c X` says that neither `c` nor anything nested in it has a place in the document yet, and that `X` is what
they have there all the same: the fragment and the text nodes of what has been created. Other components may be at work
meanwhile, so nothing is said of attributes and texts, which they may touch; only which nodes there are, and where.

- `Block.Unplaced.map`: a component that is not mounted stays so, however its nodes are touched;
- `Block.Unplaced.create`: creating it succeeds and leaves everything else alone;
- `Block.Idle.unplaced`: a component that was given up or destroyed has nothing in the document.
-/
import LiveMarkup.Component.Create
import LiveMarkup.Proofs.Component.Calm
import LiveMarkup.Proofs.Component.Create

namespace LiveMarkup

open Markup Marker Forest

variable {H : Host}

/-! ## What there is before a mount -/

/-- a text or a comment -/
structure Node.Plain (n : Bare) : Prop where
  tag : n.kind.tag? = none
  fragment : n.kind.isFragment = false

theorem Node.Plain.touch {n : Bare} (h : n.Plain) {t : Bare → Bare} (ht : Touch t) : (t n).Plain :=
  ⟨(ht.tag n).trans h.tag, (ht.fragment n).trans h.fragment⟩

/-- a component that has been created and has not been bound: its fragment, and the nodes of its texts -/
structure Core.Pends (c : Core H) (r : Bare) (h : Bare → Bare) (node : TextCell → Bare) : Prop where
  phase : c.phase = .created r.id
  fragment : r.kind.isFragment = true
  touch : Touch h
  indices : c.textCells.map (·.index) = indicesOf c.template.placeholders .text
  nodes : ∀ cell ∈ c.textCells, (node cell).id = cell.node ∧ (node cell).Plain
  roots : c.roots = []
  cleanups : c.cleanups = []
  updateHooks : c.updateHooks = []

/-- the texts of cells, each a tree of its own -/
def textNodes (node : TextCell → Bare) (cells : List TextCell) : Forest Bare :=
  join (cells.map fun cell => tree (node cell) nil)

/-- what such a component has itself -/
def Core.pending (c : Core H) (r : Bare) (h : Bare → Bare) (node : TextCell → Bare) : Forest Bare :=
  tree r ((planted c.template.skeleton (r.id + 1)).map h) ++ textNodes node c.textCells

mutual
/-- neither the component nor anything nested in it is mounted, and `X` is what they have in the document: it has been
created with all that is nested in it or, unless it is `made`, it is at rest -/
def Component.Unplaced (made : Bool) : Component H → Forest Bare → Prop
  | .mk core slots children, X =>
    (∃ r h node contents kids, core.Pends r h node ∧ unplacedAll true slots contents ∧ unplacedAll true children kids ∧
        X = core.pending r h node ++ (contents ++ kids)) ∨
      (made = false ∧ core.Dormant ∧
        ∃ contents kids, unplacedAll false slots contents ∧ unplacedAll false children kids ∧ X = contents ++ kids)
def unplacedAll (made : Bool) : List (Nested H) → Forest Bare → Prop
  | [], X => X = nil
  | .mk _ _ block :: row, X =>
    ∃ first others, block.Unplaced made first ∧ unplacedAll made row others ∧ X = first ++ others
def Block.Unplaced (made : Bool) : Block H → Forest Bare → Prop
  | .text t, X => (∃ n : Bare, t.node = some n.id ∧ n.Plain ∧ X = tree n nil) ∨ (made = false ∧ t.node = none ∧ X = nil)
  | .foreign _, _ => False
  | .component c, X => c.Unplaced made X
end

/-- the blocks of a row have forests one after another, each as `P` says -/
def alongRow (P : Block H → Forest Bare → Prop) : List (Nested H) → Forest Bare → Prop
  | [], X => X = nil
  | .mk _ _ block :: row, X => ∃ first others, P block first ∧ alongRow P row others ∧ X = first ++ others

theorem alongRow_imp {P Q : Block H → Forest Bare → Prop} {row : List (Nested H)} {X : Forest Bare}
    (hi : ∀ n ∈ row, ∀ X, P n.block X → Q n.block X) (h : alongRow P row X) : alongRow Q row X := by
  induction row generalizing X with
  | nil => exact h
  | cons n row ih =>
    obtain ⟨index, atRoot, block⟩ := n
    rw [List.forall_mem_cons] at hi
    obtain ⟨first, others, hfirst, hothers, rfl⟩ := h
    exact ⟨first, others, hi.1 _ hfirst, ih hi.2 hothers, rfl⟩

/-- what holds of each block of a row with its forest -/
theorem alongRow_forall {P : Block H → Forest Bare → Prop} {row : List (Nested H)} {X : Forest Bare}
    (h : alongRow P row X) : ∀ n ∈ row, ∃ first, P n.block first ∧ first.ids ⊆ X.ids := by
  induction row generalizing X with
  | nil => exact fun _ hn => absurd hn List.not_mem_nil
  | cons n row ih =>
    obtain ⟨index, atRoot, block⟩ := n
    obtain ⟨first, others, hfirst, hothers, rfl⟩ := h
    rw [ids_append]
    refine List.forall_mem_cons.2 ⟨⟨first, hfirst, List.subset_append_left _ _⟩, fun m hm => ?_⟩
    obtain ⟨X, hX, hsub⟩ := ih hothers m hm
    exact ⟨X, hX, List.Subset.trans hsub (List.subset_append_right _ _)⟩

theorem unplacedAll_iff {made : Bool} {row : List (Nested H)} {X : Forest Bare} :
    unplacedAll made row X ↔ alongRow (Block.Unplaced made) row X := by
  induction row generalizing X with
  | nil => exact Iff.rfl
  | cons n row ih =>
    obtain ⟨index, atRoot, block⟩ := n
    simp only [unplacedAll, alongRow, ih]

/-- a proof for blocks that are not mounted, by how they are nested -/
theorem Block.Unplaced.induction {P : Bool → Block H → Forest Bare → Prop}
    (text : ∀ made t (n : Bare), t.node = some n.id → n.Plain → P made (.text t) (tree n nil))
    (empty : ∀ t, t.node = none → P false (.text t) nil)
    (waiting : ∀ made core slots children r h node contents kids, Core.Pends core r h node →
      alongRow (P true) slots contents → alongRow (P true) children kids →
        P made (.component (.mk core slots children)) (core.pending r h node ++ (contents ++ kids)))
    (resting : ∀ core slots children contents kids, Core.Dormant core → alongRow (P false) slots contents →
      alongRow (P false) children kids → P false (.component (.mk core slots children)) (contents ++ kids))
    {made : Bool} {b : Block H} {X : Forest Bare} (h : b.Unplaced made X) : P made b X := by
  have hblock : ∀ (b : Block H), (∀ c, b = .component c → ∀ made X, c.Unplaced made X → P made (.component c) X) →
      ∀ made X, b.Unplaced made X → P made b X := by
    intro b ih made X h
    cases b with
    | text t =>
      rcases h with ⟨n, hn, hplain, rfl⟩ | ⟨rfl, hn, rfl⟩
      · exact text made t n hn hplain
      · exact empty t hn
    | foreign f => exact h.elim
    | component c => exact ih c rfl made X h
  have hrow : ∀ row : List (Nested H), (∀ n ∈ row, ∀ c, n.block = .component c →
      ∀ made X, c.Unplaced made X → P made (.component c) X) → ∀ made X, unplacedAll made row X →
        alongRow (P made) row X := fun row ih made X h =>
    alongRow_imp (fun n hn X => hblock n.block (ih n hn) made X) (unplacedAll_iff.1 h)
  have hcomponent : ∀ (c : Component H) made X, c.Unplaced made X → P made (.component c) X := by
    intro c
    induction c using Component.induct with
    | mk core slots children ihs ihc =>
      intro made X h
      rcases h with ⟨r, h, node, contents, kids, hown, hslots, hchildren, rfl⟩ |
        ⟨rfl, hown, contents, kids, hslots, hchildren, rfl⟩
      · exact waiting made core slots children r h node contents kids hown (hrow slots ihs _ _ hslots)
          (hrow children ihc _ _ hchildren)
      · exact resting core slots children contents kids hown (hrow slots ihs _ _ hslots)
          (hrow children ihc _ _ hchildren)
  exact hblock b (fun c _ => hcomponent c) made X h

variable {made : Bool} {b : Block H} {X : Forest Bare}

/-- what has been made is not mounted -/
theorem Component.Unplaced.of_made {c : Component H} (h : c.Unplaced true X) : c.Unplaced made X := by
  obtain ⟨core, slots, children⟩ := c
  rcases h with h | ⟨h, -⟩
  · exact .inl h
  · cases h

/-- what has been made has been created with all that is nested in it -/
theorem Block.Unplaced.active (h : b.Unplaced true X) : b.Active := by
  refine h.induction (P := fun made b _ => made = true → b.Active) (fun _ _ _ _ _ _ => trivial)
    (fun _ _ he => by cases he) (fun _ core slots children r _ _ contents kids hown hslots hchildren _ => ?_)
    (fun _ _ _ _ _ _ _ _ he => by cases he) rfl
  have hrow : ∀ {row : List (Nested H)} {X : Forest Bare}, alongRow (fun b _ => true = true → b.Active) row X →
      ∀ n ∈ row, n.block.Active := fun h n hn => by
    obtain ⟨-, hactive, -⟩ := alongRow_forall h n hn
    exact hactive rfl
  have hphase : core.phase.Active := by
    rw [hown.phase]
    trivial
  exact ⟨hphase, eachOf_iff.2 (hrow hslots), eachOf_iff.2 (hrow hchildren)⟩

/-- nothing is to be undone yet -/
theorem Block.Unplaced.hushed (h : b.Unplaced made X) : b.Each Core.Hushed fun _ => True := by
  have hown : ∀ core : Core H, core.cleanups = [] → core.updateHooks = [] → core.Hushed := by
    intro core hc hu
    refine ⟨fun cleanup hin => ?_, fun hook hin => ?_⟩
    · rw [hc] at hin
      cases hin
    · rw [hu] at hin
      cases hin
  have hrow : ∀ {row : List (Nested H)} {X : Forest Bare},
      alongRow (fun b _ => b.Each Core.Hushed fun _ => True) row X → eachOf Core.Hushed (fun _ => True) row := fun h =>
    eachOf_iff.2 fun n hn => by
      obtain ⟨-, hhushed, -⟩ := alongRow_forall h n hn
      exact hhushed
  exact h.induction (P := fun _ b _ => b.Each Core.Hushed fun _ => True) (fun _ _ _ _ _ => trivial) (fun _ _ => trivial)
    (fun _ core _ _ _ _ _ _ _ hp hslots hchildren =>
      ⟨hown core hp.cleanups hp.updateHooks, hrow hslots, hrow hchildren⟩)
    fun core _ _ _ _ hd hslots hchildren => ⟨hown core hd.cleanups hd.updateHooks, hrow hslots, hrow hchildren⟩

/-- destroying it would take out nothing but its own -/
theorem Block.Unplaced.detached (h : b.Unplaced made X) : b.detached ⊆ X.ids := by
  have hrow : ∀ {row : List (Nested H)} {X : Forest Bare}, alongRow (fun b X => b.detached ⊆ X.ids) row X →
      detachedOf row ⊆ X.ids := by
    intro row
    induction row with
    | nil => exact fun _ => List.nil_subset _
    | cons n row ih =>
      obtain ⟨index, atRoot, block⟩ := n
      rintro X ⟨first, others, hfirst, hothers, rfl⟩
      rw [detachedOf, ids_append]
      refine List.append_subset.2 ⟨?_, List.Subset.trans (ih hothers) (List.subset_append_right _ _)⟩
      cases atRoot
      · exact List.nil_subset _
      · exact List.Subset.trans hfirst (List.subset_append_left _ _)
  refine h.induction (P := fun _ b X => b.detached ⊆ X.ids) (fun _ t n hn _ => ?_) (fun t hn => ?_)
    (fun _ core slots children r _ _ contents kids hown hslots hchildren => ?_)
    fun core slots children contents kids hown hslots hchildren => ?_
  · rw [Block.detached, hn, ids_tree]
    exact List.Subset.refl _
  · rw [Block.detached, hn]
    exact List.Subset.refl _
  · rw [Block.detached, Component.detached, hown.phase, ids_append, ids_append]
    refine List.Subset.trans (List.append_subset.2 ⟨?_, ?_⟩) (List.subset_append_right _ _)
    · exact List.Subset.trans (hrow hslots) (List.subset_append_left _ _)
    · exact List.Subset.trans (hrow hchildren) (List.subset_append_right _ _)
  · rw [Block.detached, Component.detached]
    have hphase := hown.phase
    cases hp : core.phase with
    | unmounted => exact List.nil_subset _
    | destroyed => exact List.nil_subset _
    | created fragment => rw [hp] at hphase; exact absurd trivial hphase
    | mounted => rw [hp] at hphase; exact absurd trivial hphase

/-- a component that was given up or destroyed has nothing in the document -/
theorem Block.Idle.unplaced (hb : b.Built) (h : b.Idle) : b.Unplaced false nil := by
  have hblock : ∀ b : Block H, (∀ c, b = .component c → c.Built → c.Idle → c.Unplaced false nil) → b.Built → b.Idle →
      b.Unplaced false nil := by
    intro b ih hb h
    cases b with
    | text t => exact .inr ⟨rfl, h, rfl⟩
    | foreign f => exact hb.elim
    | component c => exact ih c rfl hb h
  have hrow : ∀ row : List (Nested H), (∀ n ∈ row, n.block.Unplaced false nil) → unplacedAll false row nil := by
    intro row
    induction row with
    | nil => exact fun _ => rfl
    | cons n row ih =>
      intro h
      obtain ⟨index, atRoot, block⟩ := n
      rw [List.forall_mem_cons] at h
      exact ⟨nil, nil, h.1, ih h.2, rfl⟩
  have hcomponent : ∀ c : Component H, c.Built → c.Idle → c.Unplaced false nil := by
    intro c
    induction c using Component.induct with
    | mk core slots children ihs ihc =>
      rintro ⟨-, -, hs, hc⟩ ⟨hown, hslots, hchildren⟩
      refine .inr ⟨rfl, hown.dormant, nil, nil, hrow slots fun n hn => ?_, hrow children fun n hn => ?_, rfl⟩
      · exact hblock _ (ihs n hn) (builtAll_iff.1 hs n hn) (eachOf_iff.1 hslots n hn)
      · exact hblock _ (ihc n hn) (builtAll_iff.1 hc n hn) (eachOf_iff.1 hchildren n hn)
  exact hblock b (fun c _ => hcomponent c) hb h

/-! ## Others at work -/

namespace Forest

theorem join_map {α β : Type} (t : α → β) (fs : List (Forest α)) : (join fs).map t = join (fs.map (map t)) := by
  induction fs with
  | nil => rfl
  | cons f fs ih => rw [join, List.foldr_cons, map_append, ← join, ih]; rfl

end Forest

theorem textNodes_map (node : TextCell → Bare) (cells : List TextCell) (t : Bare → Bare) :
    (textNodes node cells).map t = textNodes (fun cell => t (node cell)) cells := by
  rw [textNodes, join_map, List.map_map]
  rfl

theorem Core.Pends.map {c c' : Core H} {r : Bare} {h : Bare → Bare} {node : TextCell → Bare} (hp : c.Pends r h node)
    (hf : c.SameFooting c') {t : Bare → Bare} (ht : Touch t) :
    c'.Pends (t r) (fun n => t (h n)) (fun cell => t (node cell)) ∧
      (c.pending r h node).map t = c'.pending (t r) (fun n => t (h n)) fun cell => t (node cell) := by
  refine ⟨⟨?_, (ht.fragment r).trans hp.fragment, ht.comp hp.touch, ?_, fun cell hc => ?_, hf.roots.trans hp.roots,
    hf.cleanups.trans hp.cleanups, hf.updateHooks.trans hp.updateHooks⟩, ?_⟩
  · rw [hf.phase, hp.phase, ht.id]
  · rw [hf.textCells, hf.template, hp.indices]
  · rw [hf.textCells] at hc
    obtain ⟨hid, hplain⟩ := hp.nodes cell hc
    exact ⟨(ht.id _).trans hid, hplain.touch ht⟩
  · rw [pending, pending, map_append, textNodes_map, hf.textCells, hf.template, ht.id, tree, Forest.map, map_map]
    rfl

/-- **Others at work.** A component that is not mounted stays so on the same footing, however its nodes are touched. -/
theorem Block.Unplaced.map (h : b.Unplaced made X) {b' : Block H} (hl : b.Like footing b') {t : Bare → Bare}
    (ht : Touch t) : b'.Unplaced made (X.map t) := by
  have hrow : ∀ {made : Bool} {row : List (Nested H)} {X : Forest Bare},
      alongRow (fun b X => ∀ b', b.Like footing b' → b'.Unplaced made (X.map t)) row X →
        ∀ row', likeAll footing row row' → unplacedAll made row' (X.map t) := by
    intro made row
    induction row with
    | nil =>
      rintro X rfl row' hl
      cases row' with
      | nil => exact rfl
      | cons => exact hl.elim
    | cons n row ih =>
      obtain ⟨index, atRoot, block⟩ := n
      rintro X ⟨first, others, hfirst, hothers, rfl⟩ row' hl
      cases row' with
      | nil => exact hl.elim
      | cons n' row' =>
        obtain ⟨index', atRoot', block'⟩ := n'
        exact ⟨_, _, hfirst block' hl.2.1, ih hothers row' hl.2.2, map_append t first others⟩
  refine h.induction (P := fun made b X => ∀ b', b.Like footing b' → b'.Unplaced made (X.map t))
    (fun made s n hn hplain b' hl => ?_) (fun s hn b' hl => ?_)
    (fun made core slots children r h node contents kids hown hslots hchildren b' hl => ?_)
    (fun core slots children contents kids hown hslots hchildren b' hl => ?_) b' hl
  · cases b' with
    | text s' => exact .inl ⟨t n, by rw [show s'.node = s.node from hl, hn, ht.id], hplain.touch ht, rfl⟩
    | foreign => exact hl.elim
    | component => exact hl.elim
  · cases b' with
    | text s' => exact .inr ⟨rfl, (show s'.node = s.node from hl).trans hn, rfl⟩
    | foreign => exact hl.elim
    | component => exact hl.elim
  · obtain ⟨c', rfl, hl'⟩ := Block.like_component hl
    obtain ⟨core', slots', children'⟩ := c'
    obtain ⟨hown', hpending⟩ := hown.map hl'.1 ht
    refine .inl ⟨_, _, _, _, _, hown', hrow hslots slots' hl'.2.1, hrow hchildren children' hl'.2.2, ?_⟩
    rw [map_append, map_append, hpending]
  · obtain ⟨c', rfl, hl'⟩ := Block.like_component hl
    obtain ⟨core', slots', children'⟩ := c'
    exact .inr ⟨rfl, hown.of_footing hl'.1, _, _, hrow hslots slots' hl'.2.1, hrow hchildren children' hl'.2.2,
      map_append t contents kids⟩

theorem Component.Unplaced.map {c c' : Component H} (h : c.Unplaced made X) (hl : c.Like footing c') {t : Bare → Bare}
    (ht : Touch t) : c'.Unplaced made (X.map t) :=
  have hl : (Block.component c).Like footing (.component c') := hl
  Block.Unplaced.map (b := .component c) h hl ht

/-! ## Creating -/

/-- what a component that was at rest has itself once it is created -/
theorem Core.Dormant.prepare {c : Core H} (h : c.Dormant) {w : World H} {Q : Forest Bare} (hw : w.document.Holds Q) :
    ∃ h node, (c.prepared w).Pends (fragmentNode w.document.fresh) h node ∧ (c.prepare w).2.2.backend = w.backend ∧
      (c.prepare w).2.2.document.Holds (Q ++ (c.prepared w).pending (fragmentNode w.document.fresh) h node) := by
  obtain ⟨htexts, hb, hholds⟩ := textCellsFor_spec c.props c.template.placeholders 0
    (w.addFragment c.template.skeleton).1 (hw.addFragment c.template.skeleton)
  refine ⟨fun n => n, fun cell => ⟨cell.node, .text (c.props.text cell.prop), [], 0⟩, ⟨rfl, rfl, .refl, ?_,
    fun cell _ => ⟨rfl, rfl, rfl⟩, h.roots, h.cleanups, h.updateHooks⟩, hb, ?_⟩
  · have hi : (spotsOf Placeholder.text? 0 c.template.placeholders).map (·.1) =
        indicesOf c.template.placeholders .text :=
      indices_spotsOf (fun p => by cases p <;> simp [Placeholder.text?, Placeholder.category]) _
    rw [← htexts, List.map_map] at hi
    exact hi
  · rw [append_assoc] at hholds
    rw [Core.pending, map_self]
    exact hholds

variable [ForeignBlocks H]

/-- a call that succeeded, left `P` behind with what it then has in the document, and left all of `Q` alone -/
structure Makes {α : Type} (P : α → Forest Bare → Prop) (Q : Forest Bare) (w : World H) (o : Outcome H α) : Prop where
  ok : o.result = .ok ()
  backend : o.world.backend = w.backend
  holds : ∃ X, P o.self X ∧ o.world.document.Holds (Q ++ X)

theorem createAll_unplaced {row : List (Nested H)} {X : Forest Bare}
    (h : alongRow (fun b X => ∀ (w : World H) Q, w.document.Holds (Q ++ X) →
      Makes (Block.Unplaced true) Q w (b.create w)) row X) (w : World H) (Q : Forest Bare)
    (hw : w.document.Holds (Q ++ X)) : Makes (unplacedAll true) Q w (createAll row w) := by
  induction row generalizing X w Q with
  | nil =>
    obtain rfl : X = nil := h
    exact ⟨rfl, rfl, nil, rfl, hw⟩
  | cons n row ih =>
    obtain ⟨index, atRoot, block⟩ := n
    obtain ⟨first, others, hfirst, hothers, rfl⟩ := h
    rw [← append_assoc] at hw
    have hmake := hfirst w (Q ++ others) (hw.of_same (Same.right_comm Q first others))
    obtain ⟨first', hfirst', hw'⟩ := hmake.holds
    have hrest := ih hothers (block.create w).world (Q ++ first') (hw'.of_same (Same.right_comm Q others first'))
    obtain ⟨others', hothers', hw''⟩ := hrest.holds
    rw [createAll, hmake.ok]
    exact ⟨hrest.ok, hrest.backend.trans hmake.backend, first' ++ others', ⟨first', others', hfirst', hothers', rfl⟩,
      by rw [← append_assoc]; exact hw''⟩

/-- **Creating** a component that is not mounted succeeds, and leaves everything else alone. -/
theorem Block.Unplaced.create (h : b.Unplaced made X) (w : World H) (Q : Forest Bare)
    (hw : w.document.Holds (Q ++ X)) : Makes (Block.Unplaced true) Q w (b.create w) := by
  have hrow : ∀ {made : Bool} {row : List (Nested H)} {X : Forest Bare},
      alongRow (fun b X => b.Unplaced made X ∧ ∀ (w : World H) Q, w.document.Holds (Q ++ X) →
        Makes (Block.Unplaced true) Q w (b.create w)) row X → unplacedAll made row X ∧
        ∀ (w : World H) Q, w.document.Holds (Q ++ X) → Makes (unplacedAll true) Q w (createAll row w) := fun h =>
    ⟨unplacedAll_iff.2 (alongRow_imp (fun _ _ _ h => h.1) h), createAll_unplaced (alongRow_imp (fun _ _ _ h => h.2) h)⟩
  refine (h.induction (P := fun made b X => b.Unplaced made X ∧ ∀ (w : World H) Q, w.document.Holds (Q ++ X) →
    Makes (Block.Unplaced true) Q w (b.create w)) (fun made t n hn hplain => ?_) (fun t hn => ?_)
    (fun made core slots children r h node contents kids hown hslots hchildren => ?_)
    fun core slots children contents kids hown hslots hchildren => ?_).2 w Q hw
  · refine ⟨.inl ⟨n, hn, hplain, rfl⟩, fun w Q hw => ?_⟩
    have hsame : (Block.text t).create w = .ok (.text t) w := by
      rw [Block.create, TextBlock.create, hn]
    rw [hsame]
    exact ⟨rfl, rfl, _, .inl ⟨n, hn, hplain, rfl⟩, hw⟩
  · refine ⟨.inr ⟨rfl, hn, rfl⟩, fun w Q hw => ?_⟩
    rw [append_nil] at hw
    have hnew : (Block.text t).create w = .ok (.text { t with node := some w.document.fresh }) (w.addText t.data).1 := by
      rw [Block.create, TextBlock.create, hn]
      rfl
    rw [hnew]
    exact ⟨rfl, rfl, _, .inl ⟨⟨w.document.fresh, .text t.data, [], 0⟩, rfl, ⟨rfl, rfl⟩, rfl⟩, hw.add (.text t.data)⟩
  · -- it is there already
    have hself : ∀ made, Block.Unplaced made (.component (.mk core slots children))
        (core.pending r h node ++ (contents ++ kids)) := fun _ =>
      .inl ⟨r, h, node, contents, kids, hown, (hrow hslots).1, (hrow hchildren).1, rfl⟩
    refine ⟨hself made, fun w Q hw => ?_⟩
    have hsame : (Block.component (.mk core slots children)).create w = .ok (.component (.mk core slots children)) w := by
      rw [Block.create, Component.create, hown.phase]
      rfl
    rw [hsame]
    exact ⟨rfl, rfl, _, hself true, hw⟩
  · refine ⟨.inr ⟨rfl, hown, contents, kids, (hrow hslots).1, (hrow hchildren).1, rfl⟩, fun w Q hw => ?_⟩
    obtain ⟨h, node, hpends, hb, hprepared⟩ := hown.prepare hw
    -- first the children, then the contents of the slots
    have hkids := (hrow hchildren).2 (core.prepare w).2.2
      (Q ++ (contents ++ (core.prepared w).pending (fragmentNode w.document.fresh) h node)) (hprepared.of_same (by
        simp only [Same, trees_append, ← Multiset.coe_eq_coe, ← Multiset.coe_add]
        abel))
    obtain ⟨kids', hkids', hholds⟩ := hkids.holds
    have hcontents := (hrow hslots).2 (createAll children (core.prepare w).2.2).world
      (Q ++ ((core.prepared w).pending (fragmentNode w.document.fresh) h node ++ kids')) (hholds.of_same (by
        simp only [Same, trees_append, ← Multiset.coe_eq_coe, ← Multiset.coe_add]
        abel))
    obtain ⟨contents', hcontents', hholds'⟩ := hcontents.holds
    have hstep : (Component.mk core slots children).create w = .ok (.mk (core.prepared w)
        (createAll slots (createAll children (core.prepare w).2.2).world).self
        (createAll children (core.prepare w).2.2).self)
        (createAll slots (createAll children (core.prepare w).2.2).world).world := by
      rw [Component.create_eq hown.phase]
      dsimp only
      rw [hkids.ok]
      dsimp only
      rw [hcontents.ok]
      rfl
    rw [Block.create, hstep]
    refine ⟨rfl, hcontents.backend.trans (hkids.backend.trans hb), _, .inl ⟨_, h, node, contents', kids', hpends,
      hcontents', hkids', rfl⟩, hholds'.of_same ?_⟩
    simp only [Same, trees_append, ← Multiset.coe_eq_coe, ← Multiset.coe_add]
    abel

end LiveMarkup
