/-
What updating and destroying do to the document.

A component is calm if it is built of texts and components and what its actions have left behind leaves the document
alone. Then an update touches nodes where they are, and destroying takes out the nodes that the component and its nested
blocks have at their top levels: `Component.detached` says which, and nothing else is moved.

- `Component.Calm.call_touched`: updates, ticks and transitions move nothing;
- `Component.Calm.destroy_frees`: destroying takes out what was put in, if it is detaching.
-/
import LiveMarkup.Proofs.Component.Values
import LiveMarkup.Proofs.Component.Built
import LiveMarkup.Proofs.Document.Children

namespace LiveMarkup

open Markup Marker Forest

variable {H : Host}

/-! ## Worlds that are touched -/

/-- the same nodes in the same places; text, data and attributes may be others -/
structure World.Touched (w w' : World H) : Prop where
  backend : w'.backend = w.backend
  holds : ∃ h, Touch h ∧ ∀ F, w.document.Holds F → w'.document.Holds (F.map h)

theorem World.Alike.touched {w w' : World H} (h : w.Alike w') : w.Touched w' := by
  refine ⟨h.backend, _, Touch.refl, fun F hF => ?_⟩
  rw [map_self, h.document]
  exact hF

theorem World.Touched.refl (w : World H) : w.Touched w := (World.Alike.refl w).touched

theorem World.Touched.trans {u v w : World H} (h : u.Touched v) (h' : v.Touched w) : u.Touched w := by
  obtain ⟨g, hg, hu⟩ := h.holds
  obtain ⟨g', hg', hv⟩ := h'.holds
  refine ⟨h'.backend.trans h.backend, _, hg'.comp hg, fun F hF => ?_⟩
  rw [← map_map]
  exact hv _ (hu F hF)

/-- nothing is moved -/
theorem World.Touched.children {w w' : World H} (h : w.Touched w') (hv : w.document.Valid) (id : NodeId) :
    w'.document.children id = w.document.children id := by
  obtain ⟨g, hg, hw⟩ := h.holds
  exact Document.Holds.children_map hv hg (hw _ hv) id

theorem Edit.run_eq_map {e : Edit} (hf : ∀ k, (e.change k).isFragment = k.isFragment) :
    ∃ h, Touch h ∧ ∀ f, e.run f = f.map h :=
  ⟨_, Touch.of_kind e.tag hf _, fun f => update_eq_map _ _ f⟩

theorem World.Edited.touched {w w' : World H} {es : List Edit} (h : w.Edited w' es)
    (hf : ∀ e ∈ es, ∀ k, (e.change k).isFragment = k.isFragment) : w.Touched w' := by
  have hmap : ∀ es : List Edit, (∀ e ∈ es, ∀ k, (e.change k).isFragment = k.isFragment) →
      ∃ h, Touch h ∧ ∀ f : Forest Bare, f.editAll es = f.map h := by
    intro es
    induction es with
    | nil => exact fun _ => ⟨_, Touch.refl, fun f => (map_self f).symm⟩
    | cons e es ih =>
      intro hf
      rw [List.forall_mem_cons] at hf
      obtain ⟨g, hg, hrun⟩ := Edit.run_eq_map hf.1
      obtain ⟨g', hg', hall⟩ := ih hf.2
      exact ⟨_, hg'.comp hg, fun f => by rw [editAll_cons, hrun, hall, map_map]⟩
  obtain ⟨g, hg, hall⟩ := hmap es hf
  exact ⟨h.backend, g, hg, fun F hF => hall F ▸ h.holds F hF⟩

/-! ## Calm components -/

/-- what actions have left behind leaves the document alone -/
structure Core.Hushed (c : Core H) : Prop where
  cleanups : ∀ cleanup ∈ c.cleanups, cleanup.Quiet
  updateHooks : ∀ hook ∈ c.updateHooks, hook.Quiet

/-- built of texts and components, and what actions have left behind leaves the document alone -/
def Component.Calm (c : Component H) : Prop := c.Built ∧ c.Each Core.Hushed fun _ => True

def Block.Calm (b : Block H) : Prop := b.Built ∧ b.Each Core.Hushed fun _ => True

theorem Component.calm_iff {core : Core H} {slots children : List (Nested H)} :
    (Component.mk core slots children).Calm ↔
      ((slots.map Nested.index).Sublist (indicesOf core.template.placeholders .slot) ∧
        children.map Nested.index = indicesOf core.template.placeholders .child) ∧
      core.Hushed ∧ (∀ n ∈ slots, n.block.Calm) ∧ ∀ n ∈ children, n.block.Calm := by
  have hrow : ∀ row : List (Nested H), (∀ n ∈ row, n.block.Calm) ↔
      builtAll row ∧ eachOf Core.Hushed (fun _ => True) row := fun row => by
    rw [builtAll_iff, eachOf_iff, ← forall₂_and]
    rfl
  rw [hrow, hrow, Calm, Built, Each]
  tauto

/-- what holds of texts, and of a component if it holds of all that is nested in it, holds of blocks that are built -/
theorem Block.built_induct {own : Core H → Prop} {text : TextBlock → Prop} {P : Block H → Prop}
    (leaf : ∀ t, text t → P (.text t))
    (component : ∀ core slots children, own core → (∀ n ∈ slots, P n.block) → (∀ n ∈ children, P n.block) →
      P (.component (.mk core slots children))) {b : Block H} (h : b.Built) (he : b.Each own text) : P b :=
  Block.guests_induct leaf (fun _ (h : False) => h.elim) component h.guests he

/-- the same of calm blocks -/
theorem Block.Calm.induct {P : Block H → Prop} (text : ∀ t, P (.text t))
    (component : ∀ core slots children, core.Hushed → (∀ n ∈ slots, P n.block) → (∀ n ∈ children, P n.block) →
      P (.component (.mk core slots children))) {b : Block H} (h : b.Calm) : P b :=
  Block.built_induct (fun t _ => text t) component h.1 h.2

/-- on the same footing, a component is as calm as before -/
theorem Component.Like.calm {c c' : Component H} (h : c.Like footing c') (hc : c.Calm) : c'.Calm := by
  refine ⟨h.built_of_footing hc.1, h.each (fun a b hab ha => ⟨?_, ?_⟩) (fun _ _ _ => id) hc.2⟩
  · rw [hab.cleanups]
    exact ha.cleanups
  · rw [hab.updateHooks]
    exact ha.updateHooks

/-! ## Updates -/

/-- new values touch a component's own nodes -/
theorem Core.Hushed.applyEntries {c : Core H} (h : c.Hushed) (w : World H) (changed : Props) :
    w.Touched (c.applyEntries w changed).2 := by
  unfold Core.applyEntries
  generalize changed.entries = es
  induction es generalizing c w with
  | nil => exact .refl w
  | cons e es ih =>
    obtain ⟨hself, hedited⟩ := Core.applyEntry_spec h.updateHooks w e.1 e.2
    have hstep : w.Touched (c.applyEntry w e.1 e.2).2 := by
      refine hedited.touched fun x hx k => ?_
      rcases List.mem_append.1 hx with hx | hx
      · obtain ⟨cell, -, rfl⟩ := List.mem_map.1 hx
        exact Kind.isFragment_withData _ k
      · obtain ⟨cell, -, hcell⟩ := List.mem_filterMap.1 hx
        split at hcell
        · obtain ⟨element, -, rfl⟩ := Option.map_eq_some_iff.1 hcell
          exact Kind.isFragment_mapAttributes _ k
        · cases hcell
    refine hstep.trans (ih (c := (c.applyEntry w e.1 e.2).1) ?_ _)
    rw [hself]
    exact ⟨h.cleanups, h.updateHooks⟩

/-! ## Destroying -/

mutual
/-- the nodes that a component, when it is destroyed, takes out of their places, with those of nested blocks -/
def Component.detached : Component H → List NodeId
  | .mk core slots children =>
    match core.phase with
    | .mounted => core.roots ++ (detachedOf slots ++ detachedOf children)
    | .created _ => detachedOf slots ++ detachedOf children
    | .unmounted | .destroyed => []
def detachedOf : List (Nested H) → List NodeId
  | [] => []
  | .mk _ atRoot block :: row => (if atRoot then block.detached else []) ++ detachedOf row
def Block.detached : Block H → List NodeId
  | .text t => t.node.toList
  | .foreign _ => []
  | .component c => c.detached
end

/-- these nodes have been taken from their parents, and nothing else has been moved -/
structure World.Frees (ids : List NodeId) (w w' : World H) : Prop where
  backend : w'.backend = w.backend
  document : Document.Frees ids w.document w'.document

theorem World.Frees.refl (w : World H) : World.Frees [] w w := ⟨rfl, .refl _⟩

theorem World.Frees.trans {x y : List NodeId} {u v w : World H} (h : World.Frees x u v) (h' : World.Frees y v w) :
    World.Frees (x ++ y) u w :=
  ⟨h'.backend.trans h.backend, h.document.trans h'.document⟩

namespace Core

variable {c : Core H}

theorem detachRoots_frees (c : Core H) (w : World H) : World.Frees c.roots w (c.detachRoots w) := by
  unfold detachRoots
  generalize c.roots = roots
  induction roots generalizing w with
  | nil => exact .refl w
  | cons root roots ih =>
    exact World.Frees.trans (x := [root]) (v := w.edit (·.detach root)) ⟨rfl, Document.frees_detach w.document root⟩ (ih _)

theorem Hushed.cleanUp_frees (h : c.Hushed) (w : World H) : World.Frees [] w (c.cleanUp w) := by
  unfold cleanUp
  have hquiet := h.cleanups
  generalize c.cleanups = cleanups at hquiet
  have hsame : ∀ w w' : World H, w'.backend = w.backend →
      (∀ F, w.document.Holds F → w'.document.Holds F) → World.Frees [] w w' := fun w w' hb hd =>
    ⟨hb, fun F K hF _ => ⟨F, .refl _, hd _ hF⟩, fun hv id => by
      rw [Document.Holds.children_map hv Touch.refl (by rw [map_self]; exact hd _ hv)]
      exact (List.filter_eq_self.2 fun _ _ => by simp).symm⟩
  induction cleanups generalizing w with
  | nil => exact .refl w
  | cons cleanup cleanups ih =>
    rw [List.forall_mem_cons] at hquiet
    refine World.Frees.trans (x := []) ?_ (ih _ hquiet.2)
    cases cleanup with
    | listener node ticket => exact hsame _ _ rfl fun F hF => hF.unlisten node ticket
    | hook node run =>
      have halike : w.Alike (run w) := hquiet.1 w
      exact hsame _ _ halike.backend fun F hF => by
        show (run w).document.Holds F
        rw [halike.document]
        exact hF

end Core

variable [ForeignBlocks H]

/-! ## What updates leave to be taken out -/

theorem updateRow_detached {row : List (Nested H)}
    (h : ∀ n ∈ row, ∀ changed (w : World H), (n.block.update changed w).self.detached = n.block.detached)
    (deliver : Nat → Option Props) (w : World H) : detachedOf (updateRow deliver row w).self = detachedOf row := by
  induction row generalizing w with
  | nil => rfl
  | cons n row ih =>
    obtain ⟨index, atRoot, block⟩ := n
    rw [List.forall_mem_cons] at h
    have hcons : ∀ (b : Block H) (others : List (Nested H)), b.detached = block.detached →
        detachedOf others = detachedOf row →
          detachedOf (.mk index atRoot b :: others) = detachedOf (.mk index atRoot block :: row) := by
      intro b others hb hothers
      rw [detachedOf, detachedOf, hb, hothers]
    rw [updateRow_cons]
    split
    · exact hcons _ _ rfl (ih h.2 w)
    · dsimp only
      split
      · exact hcons _ _ (h.1 _ w) rfl
      · exact hcons _ _ (h.1 _ w) (ih h.2 _)

theorem Component.update_detached (changed : Props) (c : Component H) (w : World H) :
    (c.update changed w).self.detached = c.detached := by
  induction c using Component.induct generalizing changed w with
  | mk core slots children _ ihc =>
    have hfooting := core.applyEntries_footing w changed
    rw [update_mk]
    split
    · rfl
    · show Component.detached (.mk (core.applyEntries w changed).1 slots _) = _
      rw [detached, detached, hfooting.phase, hfooting.roots, updateRow_detached fun n hn changed w => ?_]
      cases hb : n.block with
      | text t => exact congrArg Option.toList (Block.update_footing changed (.text t) w)
      | foreign f => rfl
      | component c => exact ihc n hn c hb changed w

theorem Block.update_detached (changed : Props) (b : Block H) (w : World H) :
    (b.update changed w).self.detached = b.detached := by
  cases b with
  | text t => exact congrArg Option.toList (Block.update_footing changed (.text t) w)
  | foreign f => rfl
  | component c => exact c.update_detached changed w

theorem Component.tick_detached (incoming : Props) (context : Option Props) (c : Component H) (w : World H) :
    (c.tick incoming context w).self.detached = c.detached := by
  obtain ⟨core, slots, children⟩ := c
  have hrow : ∀ deliver (row : List (Nested H)) (w : World H), detachedOf (updateRow deliver row w).self = detachedOf row :=
    fun deliver row w => updateRow_detached (fun n _ changed w => n.block.update_detached changed w) deliver w
  have hslots : ∀ (core' : Core H) u, ((Component.mk core' slots children).updateSlots context u).self.detached =
      (Component.mk core' slots children).detached := by
    intro core' u
    cases context with
    | none => rfl
    | some given =>
      rw [updateSlots_mk]
      dsimp only
      split
      · rfl
      · show Component.detached (.mk _ _ children) = _
        rw [detached, detached, hrow]
  have happly : (Component.mk (core.applyEntries w (core.props.changes incoming)).1 slots children).detached =
      (Component.mk core slots children).detached := by
    have hfooting := core.applyEntries_footing w (core.props.changes incoming)
    rw [detached, detached, hfooting.phase, hfooting.roots]
  rw [tick_mk]
  split
  · rfl
  · dsimp only
    split
    · exact (hslots _ _).trans happly
    · refine Eq.trans ?_ ((hslots _ (core.applyEntries w (core.props.changes incoming)).2).trans happly)
      generalize (Component.mk _ slots children).updateSlots context _ = o
      obtain ⟨⟨core', slots', children'⟩, u, r⟩ := o
      show Component.detached (.mk core' slots' _) = Component.detached (.mk core' slots' children')
      rw [detached, detached, hrow]
      rfl

theorem Component.transition_detached (t : Transition) (isLocal : Bool) (c : Component H) (w : World H) :
    (c.transition t isLocal w).1.detached = c.detached := by
  induction c using Component.induct generalizing w with
  | mk core slots children ihs ihc =>
    have hrow : ∀ row : List (Nested H), (∀ n ∈ row, ∀ c, n.block = .component c → ∀ w,
        (c.transition t isLocal w).1.detached = c.detached) →
        ∀ w, detachedOf (transitionAll t isLocal row w).1 = detachedOf row := by
      intro row h
      induction row with
      | nil => exact fun _ => rfl
      | cons n row ih =>
        intro w
        obtain ⟨index, atRoot, block⟩ := n
        rw [List.forall_mem_cons] at h
        have hblock : (block.transition t isLocal w).1.detached = block.detached := by
          cases block with
          | text x => rfl
          | foreign f => rfl
          | component c => exact h.1 c rfl w
        rw [transitionAll, detachedOf, detachedOf, hblock, ih h.2]
    rw [transition, detached, detached, hrow slots ihs, hrow children ihc]

/-- what a component would take out is the same after calls that neither create nor mount nor destroy -/
theorem Component.call_detached {call : Call NodeId} (h : call.Gives) (c : Component H) (w : World H) :
    (c.call w call).self.detached = c.detached := by
  cases call with
  | update changed => exact c.update_detached changed w
  | set incoming => exact c.tick_detached incoming none w
  | tick incoming context => exact c.tick_detached incoming context w
  | transition t isLocal => exact c.transition_detached t isLocal w
  | create => exact h.elim
  | mount => exact h.elim
  | destroy => exact h.elim

/-! ## Calls -/

/-- a row is updated block by block -/
theorem updateRow_touched {row : List (Nested H)}
    (h : ∀ n ∈ row, ∀ changed (w : World H), w.Touched (n.block.update changed w).world)
    (deliver : Nat → Option Props) (w : World H) : w.Touched (updateRow deliver row w).world := by
  induction row generalizing w with
  | nil => exact .refl w
  | cons n row ih =>
    obtain ⟨index, atRoot, block⟩ := n
    rw [List.forall_mem_cons] at h
    rw [updateRow_cons]
    split
    · exact ih h.2 w
    · dsimp only
      split
      · exact h.1 _ w
      · exact (h.1 _ w).trans (ih h.2 _)

theorem Block.Calm.update_touched {b : Block H} (h : b.Calm) (changed : Props) (w : World H) :
    w.Touched (b.update changed w).world := by
  revert changed w
  refine h.induct (P := fun b => ∀ changed (w : World H), w.Touched (b.update changed w).world) (fun t changed w => ?_)
    fun core slots children hown _ hchildren changed w => ?_
  · show w.Touched (t.update changed w).2
    rw [TextBlock.update]
    split
    · dsimp only
      split
      · exact (w.edited_data _ _).touched fun e he k => by
          rw [List.mem_singleton.1 he]
          exact Kind.isFragment_withData _ k
      · exact .refl w
    · exact .refl w
  · rw [Block.update_component, Component.update_mk]
    split
    · exact .refl w
    · exact (hown.applyEntries w changed).trans (updateRow_touched hchildren _ _)

/-- a transition tells texts and components nothing -/
theorem Block.Calm.transition_world {b : Block H} (h : b.Calm) (t : Transition) (isLocal : Bool) (w : World H) :
    (b.transition t isLocal w).2 = w := by
  have hall : ∀ row : List (Nested H), (∀ n ∈ row, ∀ w, (n.block.transition t isLocal w).2 = w) →
      ∀ w, (transitionAll t isLocal row w).2 = w := by
    intro row
    induction row with
    | nil => exact fun _ _ => rfl
    | cons n row ih =>
      intro h w
      obtain ⟨index, atRoot, block⟩ := n
      rw [List.forall_mem_cons] at h
      exact (ih h.2 _).trans (h.1 w)
  revert w
  refine h.induct (P := fun b => ∀ w, (b.transition t isLocal w).2 = w) (fun _ _ => rfl)
    fun core slots children _ hslots hchildren w => ?_
  exact (hall children hchildren _).trans (hall slots hslots w)

theorem Component.Calm.tick_touched {c : Component H} (h : c.Calm) (incoming : Props) (context : Option Props)
    (w : World H) : w.Touched (c.tick incoming context w).world := by
  obtain ⟨core, slots, children⟩ := c
  obtain ⟨-, hown, hslots, hchildren⟩ := calm_iff.1 h
  have hslotsTouched : ∀ core' : Core H, ∀ u : World H,
      u.Touched ((Component.mk core' slots children).updateSlots context u).world ∧
        ((Component.mk core' slots children).updateSlots context u).self.children = children := by
    intro core' u
    cases context with
    | none => exact ⟨.refl u, rfl⟩
    | some given =>
      rw [updateSlots_mk]
      dsimp only
      split
      · exact ⟨.refl u, rfl⟩
      · exact ⟨updateRow_touched (fun n hn changed w => (hslots n hn).update_touched changed w) _ u, rfl⟩
  rw [tick_mk]
  split
  · exact .refl w
  · dsimp only
    have happly := hown.applyEntries w (core.props.changes incoming)
    obtain ⟨htouched, hsame⟩ := hslotsTouched (core.applyEntries w (core.props.changes incoming)).1
      (core.applyEntries w (core.props.changes incoming)).2
    split
    · exact happly.trans htouched
    · refine (happly.trans htouched).trans ?_
      rw [hsame]
      exact updateRow_touched (fun n hn changed w => (hchildren n hn).update_touched changed w) _ _

/-- **Updates move nothing.** -/
theorem Component.Calm.call_touched {c : Component H} (h : c.Calm) {call : Call NodeId} (hg : call.Gives) (w : World H) :
    w.Touched (c.call w call).world := by
  cases call with
  | update changed => exact Block.Calm.update_touched (b := .component c) h changed w
  | set incoming => exact h.tick_touched incoming none w
  | tick incoming context => exact h.tick_touched incoming context w
  | transition t isLocal =>
    have hw : (c.transition t isLocal w).2 = w := Block.Calm.transition_world (b := .component c) h t isLocal w
    show w.Touched (c.transition t isLocal w).2
    rw [hw]
    exact .refl w
  | create => exact hg.elim
  | mount => exact hg.elim
  | destroy => exact hg.elim

/-- a row is destroyed block by block -/
theorem destroyAll_frees {row : List (Nested H)}
    (h : ∀ n ∈ row, ∀ d w, World.Frees (if d then n.block.detached else []) w (n.block.destroy d w).world)
    (detaching : Bool) (w : World H) :
    World.Frees (if detaching then detachedOf row else []) w (destroyAll detaching row w).world := by
  induction row generalizing w with
  | nil =>
    have hnil : (if detaching then detachedOf ([] : List (Nested H)) else []) = [] := by cases detaching <;> rfl
    rw [hnil]
    exact .refl w
  | cons n row ih =>
    obtain ⟨index, atRoot, block⟩ := n
    rw [List.forall_mem_cons] at h
    have hsplit : (if detaching then detachedOf (.mk index atRoot block :: row) else []) =
        (if detaching && atRoot then block.detached else []) ++ (if detaching then detachedOf row else []) := by
      cases detaching <;> cases atRoot <;> rfl
    rw [hsplit]
    exact (h.1 _ w).trans (ih h.2 _)

theorem Block.Calm.destroy_frees {b : Block H} (h : b.Calm) (detaching : Bool) (w : World H) :
    World.Frees (if detaching then b.detached else []) w (b.destroy detaching w).world := by
  revert detaching w
  refine h.induct (P := fun b => ∀ d w, World.Frees (if d then b.detached else []) w (b.destroy d w).world)
    (fun t detaching w => ?_) fun core slots children hown hslots hchildren detaching w => ?_
  · show World.Frees (if detaching then t.node.toList else []) w (t.destroy detaching w).2
    rw [TextBlock.destroy]
    dsimp only
    cases t.node with
    | none =>
      cases detaching
      · exact .refl w
      · exact .refl w
    | some node =>
      cases detaching
      · exact .refl w
      · exact ⟨rfl, Document.frees_detach w.document node⟩
  · -- with the roots gone and everything undone, the nested blocks are next
    have hrows : ∀ xs : List NodeId, ∀ u : World H, World.Frees (if detaching then xs else []) w u →
        World.Frees (if detaching then xs ++ (detachedOf slots ++ detachedOf children) else []) w
          (destroyAll detaching children (destroyAll detaching slots (core.cleanUp u)).world).world := by
      intro xs u hu
      have := ((hu.trans (hown.cleanUp_frees u)).trans (destroyAll_frees hslots detaching _)).trans
        (destroyAll_frees hchildren detaching _)
      cases detaching
      · exact this
      · rwa [List.append_nil, List.append_assoc] at this
    rw [Block.destroy, Block.detached, Component.destroy, Component.detached]
    cases hp : core.phase with
    | unmounted =>
      cases detaching
      · exact .refl w
      · exact .refl w
    | destroyed =>
      cases detaching
      · exact .refl w
      · exact .refl w
    | created fragment =>
      have hphase : (detaching && decide (Phase.created fragment = .mounted)) = false := by cases detaching <;> rfl
      dsimp only
      rw [hphase]
      refine hrows [] w ?_
      cases detaching
      · exact .refl w
      · exact .refl w
    | mounted =>
      refine hrows core.roots _ ?_
      cases detaching
      · exact .refl w
      · exact core.detachRoots_frees w

/-- **Destroying takes out a component's own nodes,** if it is detaching, and moves nothing else. -/
theorem Component.Calm.destroy_frees {c : Component H} (h : c.Calm) (detaching : Bool) (w : World H) :
    World.Frees (if detaching then c.detached else []) w (c.destroy detaching w).world :=
  Block.Calm.destroy_frees (b := .component c) h detaching w

end LiveMarkup
