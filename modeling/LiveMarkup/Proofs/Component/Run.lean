/-
Whole lives.

A component is created, mounted, updated and destroyed any number of times, in any order; and whenever it is given
something, the components in it may take what is forwarded to them in any orders (`Move`). `Life` is the component with
its world, and with the nodes that its last mount put into the target; `Life.Legal` says that it is mounted in nodes that
exist and are not its own. `Life.history` is what it was given and when. The invariant `Lives` ties the component with its
history to what it has in the document, and to those nodes as long as it is mounted.

- `Lives.step`: one call keeps the invariant and gives the component the values that it delivers;
- `Life.html_run`: whenever the component is mounted, its nodes are what rendering writes for its props; what was given
  to it, in whatever state, is among them.
-/
import LiveMarkup.Component.Call
import LiveMarkup.Proofs.Component.Update
import LiveMarkup.Proofs.Component.Destroy
import LiveMarkup.Proofs.Component.Start

namespace LiveMarkup

open Markup Marker Forest

variable {H : Host}

/-! ## Nodes as markup -/

namespace Document

variable {L : Type} {d : Document L} {F : Forest Bare} {m : Bare}

/-- a child of an element whose text is escaped is written on its own -/
theorem Holds.html (h : d.Holds F) {n : Bare} {cs ds : Forest Bare} (hm : (m, cs) ∈ F.subtrees)
    (hn : (n, ds) ∈ cs.trees) (hraw : m.kind.tag?.any isRawText = false) :
    d.html n.id = print (tree n ds).toMarkup := by
  have hroot : n ∈ cs.roots := by
    rw [roots_eq_trees]
    exact List.mem_map_of_mem (f := Prod.fst) hn
  have hparent := h.parent? hm (List.any_eq_true.2 ⟨n, hroot, isNode_iff.2 rfl⟩)
  obtain ⟨k, ks, hk, rfl, rfl⟩ := h.find?_some (subtrees_trans hm (trees_subset_subtrees _ hn))
  have htree : (tree k ks).bare = tree k.bare ks.bare := rfl
  rw [Document.html, hparent, Option.bind_some, h.tag? hm, treeOf, hk, ← htree, toMarkup_bare]
  exact printAll_parent hraw _

/-- children next to each other are written as the forest that they are -/
theorem Holds.html_roots (h : d.Holds F) {pre X post : Forest Bare} (hm : (m, pre ++ (X ++ post)) ∈ F.subtrees)
    (hraw : m.kind.tag?.any isRawText = false) :
    String.join (X.roots.map fun n => d.html n.id) = print X.toMarkup := by
  induction X generalizing pre with
  | nil => rfl
  | cons n ds rest _ ih =>
    have hn : (n, ds) ∈ (pre ++ (cons n ds rest ++ post)).trees := by
      rw [trees_append, trees_append]
      exact List.mem_append_right _ (List.mem_append_left _ List.mem_cons_self)
    have hrest : (m, (pre ++ tree n ds) ++ (rest ++ post)) ∈ F.subtrees := by
      rw [append_assoc]
      exact hm
    rw [roots, List.map_cons, String.join_cons, h.html hm hn hraw, ih hrest, ← tree_append, toMarkup_append]
    exact (printAll_append none _ _).symm

end Document

/-! ## Where a component may be mounted -/

variable [ForeignBlocks H]

/-- an existing target and anchor outside the component's own nodes, where text is escaped -/
structure Component.Fits (c : Component H) (w : World H) (target : NodeId) (anchor : Option NodeId) : Prop where
  exists_target : w.document.find? target ≠ none
  exists_anchor : ∀ a ∈ anchor, w.document.find? a ≠ none
  apart : ∀ id ∈ c.handles, w.document.contains id target = false ∧ ∀ a ∈ anchor, w.document.contains id a = false
  escapes : (w.document.tag? target).any isRawText = false

theorem mem_handlesOf {row : List (Kid H)} {k : Kid H} (hk : k ∈ row) {id : NodeId} (hid : id ∈ k.component.handles) :
    id ∈ handlesOf (row.map Kid.nested) := by
  induction row with
  | nil => cases hk
  | cons j row ih =>
    rw [List.map_cons, Kid.nested, handlesOf, Block.handles, List.mem_append]
    rcases List.mem_cons.1 hk with rfl | hk
    · exact .inl hid
    · exact .inr (ih hk)

/-- the roots of what a waiting component has are held by it -/
theorem Stands.roots_held {g : History} {c : Component H} {X : Forest Bare} (h : Stands .created g c X) :
    ∀ n ∈ X.roots, n.id ∈ c.handles := by
  induction h with
  | @mk g core row X props embeds own kids ih =>
    obtain ⟨fragment, hw, rfl⟩ := own
    intro n hn
    have hroots : ∀ fs : List (Forest Bare), (join fs).roots = fs.flatMap roots := by
      intro fs
      induction fs with
      | nil => rfl
      | cons f fs ih => rw [join, List.foldr_cons, ← join, roots_append, ih, List.flatMap_cons]
    rw [Core.waiting, roots_append, roots_append, hroots, hroots, List.mem_append, List.mem_append, List.flatMap_map,
      List.flatMap_map, List.mem_flatMap, List.mem_flatMap] at hn
    rw [Component.handles, Core.handles, hw.phase]
    rcases hn with hn | ⟨cell, hc, hn⟩ | ⟨k, hk, hn⟩
    · obtain rfl := List.mem_singleton.1 hn
      simp [Phase.handle?]
    · obtain rfl := List.mem_singleton.1 hn
      have hnode : cell.node ∈ core.textCells.map (·.node) := List.mem_map_of_mem hc
      simp only [List.mem_append]
      exact .inl (.inl (.inl (.inl (.inl (.inr hnode)))))
    · exact List.mem_append_right _ (mem_handlesOf hk (ih k hk n hn))

/-- a node that is not in one that the component holds is none of the component's -/
theorem Stands.mem_of_apart {s : State} (hs : s ≠ .mounted) {g : History} {c : Component H} {X Q : Forest Bare}
    (h : Stands s g c X)
    {w : World H} (hw : w.document.Holds (Q ++ X)) {place : NodeId}
    (ha : ∀ id ∈ c.handles, w.document.contains id place = false) (hp : w.document.find? place ≠ none) :
    place ∈ Q.ids := by
  have hin := hw.mem_ids_of_find? hp
  rw [ids_append, List.mem_append] at hin
  refine hin.resolve_right fun hX => ?_
  cases s with
  | unmounted => rw [h.ground_eq_nil (.inl rfl)] at hX; cases hX
  | destroyed => rw [h.ground_eq_nil (.inr rfl)] at hX; cases hX
  | mounted => exact hs rfl
  | created =>
    obtain ⟨n, hn, rfl⟩ := List.mem_map.1 hX
    obtain ⟨⟨r, cs⟩, ht, hnt⟩ := exists_tree_above hn
    have hsub : (r, cs) ∈ (Q ++ X).subtrees := by
      rw [subtrees_append]
      exact List.mem_append_right _ (trees_subset_subtrees X ht)
    have hroot : r ∈ X.roots := by
      rw [roots_eq_trees]
      exact List.mem_map_of_mem (f := Prod.fst) ht
    have hcontains := hw.contains_of_mem hsub (mem_ids_of_mem hnt)
    rw [ha _ (h.roots_held r hroot)] at hcontains
    cases hcontains

/-! ## Lives -/

/-- a call, and the orders in which nested components take what it forwards to them -/
structure Move where
  call : Call NodeId
  orders : Orders

/-- a component, its world, and the nodes that its last mount put into the target -/
structure Life (H : Host) where
  component : Component H
  world : World H
  nodes : List NodeId

namespace Life

/-- the nodes after a call: those of a mount are the children that the target did not have -/
def nodesAfter (l : Life H) (o : Outcome H (Component H)) : Call NodeId → List NodeId
  | .mount target _ =>
    match o.result with
    | .ok _ => (o.world.document.children target).filter (!(l.world.document.children target).contains ·)
    | .error _ => l.nodes
  | _ => l.nodes

def step (l : Life H) (move : Move) : Life H where
  component := (l.component.callIn move.orders l.world move.call).self
  world := (l.component.callIn move.orders l.world move.call).world
  nodes := l.nodesAfter (l.component.callIn move.orders l.world move.call) move.call

def run (l : Life H) (moves : List Move) : Life H := moves.foldl step l

/-- a component is mounted where it fits; if it is mounted already, the call is refused anyway -/
def Allows (l : Life H) : Call NodeId → Prop
  | .mount target anchor => l.component.state = .mounted ∨ l.component.Fits l.world target anchor
  | _ => True

/-- every call is allowed when its turn comes -/
def Legal (l : Life H) : List Move → Prop
  | [] => True
  | move :: moves => l.Allows move.call ∧ (l.step move).Legal moves

/-- the values that a call gives to the component; a destroyed one takes none -/
def delivers (l : Life H) (call : Call NodeId) : Props :=
  if l.component.state = .destroyed then ∅
  else match call with
    | .update changed => changed
    | .set incoming | .tick incoming _ => l.component.props.changes incoming
    | _ => ∅

/-- the history after a call: mounting begins a new chapter unless it is refused, and any other call tells what it
delivers -/
def noted (l : Life H) (g : History) (move : Move) : History :=
  match move.call with
  | .mount _ _ => if l.component.state = .mounted then g else g.mounted
  | call => g.told ⟨l.delivers call, move.orders⟩

/-- the history after one call after another -/
def history (l : Life H) (g : History) : List Move → History
  | [] => g
  | move :: moves => (l.step move).history (l.noted g move) moves

/-- the markup of the nodes of the last mount -/
def html (l : Life H) : String := String.join (l.nodes.map l.world.document.html)

/-- an instance of a template that nothing has happened to -/
def start (t : Template (Action H)) (options : Options H) (w : World H) : Life H :=
  ⟨Component.fresh t options w, (Component.ofTemplate t options.props w).2, []⟩

theorem run_cons (l : Life H) (move : Move) (moves : List Move) : l.run (move :: moves) = (l.step move).run moves := rfl

end Life

/-- what was inserted is what is new -/
theorem filter_new {before new after : List NodeId} (h : (before ++ (new ++ after)).Nodup) :
    (before ++ (new ++ after)).filter (!(before ++ after).contains ·) = new := by
  obtain ⟨-, hrest, hbefore⟩ := List.nodup_append.1 h
  obtain ⟨-, -, hafter⟩ := List.nodup_append.1 hrest
  have hnone : ∀ l : List NodeId, (∀ id ∈ l, id ∈ before ++ after) → l.filter (!(before ++ after).contains ·) = [] := by
    intro l hl
    refine List.filter_eq_nil_iff.2 fun id hid => ?_
    rw [List.contains_iff_mem.2 (hl id hid)]
    exact Bool.false_ne_true
  have hall : new.filter (!(before ++ after).contains ·) = new := by
    refine List.filter_eq_self.2 fun id hid => ?_
    have hb : id ∉ before := fun hin => hbefore id hin id (List.mem_append_left _ hid) rfl
    have ha : id ∉ after := fun hin => hafter id hid id hin rfl
    simp [hb, ha]
  rw [List.filter_append, List.filter_append, hnone before fun id hid => List.mem_append_left _ hid, hall,
    hnone after fun id hid => List.mem_append_right _ hid, List.nil_append, List.append_nil]

/-- where the nodes of a component in this state are: among the children of an element whose text is escaped once it is
mounted, apart from all others before -/
def InPlace : State → Forest Bare → List NodeId → Forest Bare → Prop
  | .mounted, X, nodes, F => nodes = X.roots.map Node.id ∧
      ∃ m pre post, (m, pre ++ (X ++ post)) ∈ F.subtrees ∧ m.kind.tag?.any isRawText = false
  | _, X, _, F => ∃ Q, F = Q ++ X

theorem InPlace.editAll {s : State} {X F : Forest Bare} {nodes : List NodeId} (h : InPlace s X nodes F) (es : List Edit) :
    InPlace s (X.editAll es) nodes (F.editAll es) := by
  have happart : (∃ Q, F = Q ++ X) → ∃ Q, F.editAll es = Q ++ X.editAll es := by
    rintro ⟨Q, rfl⟩
    exact ⟨Q.editAll es, editAll_append es Q X⟩
  cases s with
  | mounted =>
    obtain ⟨hnodes, m, pre, post, hm, hraw⟩ := h
    obtain ⟨m', -, htag, hm'⟩ := subtree_editAll hm es
    rw [editAll_append, editAll_append] at hm'
    exact ⟨hnodes.trans (roots_editAll es X).symm, m', _, _, hm', by rw [htag]; exact hraw⟩
  | _ => exact happart h

/-- **The invariant.** A component with all its children is in one state, and so is what it has in the document -/
structure Lives (t : Template (Action H)) (g : History) (l : Life H) : Prop where
  backend : l.world.backend = .faithful
  template : l.component.core.template = t
  stands : ∃ X F, Stands l.component.state g l.component X ∧ l.world.document.Holds F ∧
    InPlace l.component.state X l.nodes F

/-- a call keeps the invariant and gives the component what it delivers -/
structure Steps (t : Template (Action H)) (g : History) (l : Life H) (move : Move) : Prop where
  lives : Lives t (l.noted g move) (l.step move)
  props : (l.step move).component.props = l.component.props.extend (l.delivers move.call).entries

namespace Lives

variable {t : Template (Action H)} {g : History} {l : Life H} {call : Call NodeId} {move : Move}

/-- a call that leaves everything as it is -/
theorem unchanged (h : Lives t g l) (hstep : l.step move = l)
    (hn : l.noted g move = g.told ⟨l.delivers move.call, move.orders⟩) (hd : l.delivers move.call = ∅) :
    Steps t g l move := by
  obtain ⟨X, F, hX, hF, hplace⟩ := h.stands
  refine ⟨?_, ?_⟩
  · rw [hstep, hn, hd]
    exact ⟨h.backend, h.template, X, F, hX.told_empty _, hF, hplace⟩
  · rw [hstep, hd]
    rfl

theorem step_of_fail {fault : LifecycleFault}
    (h : l.component.callIn move.orders l.world move.call = .fail fault l.component l.world) : l.step move = l := by
  rw [Life.step, h]
  cases move.call <;> rfl

theorem step_of_ok (h : l.component.callIn move.orders l.world move.call = .ok l.component l.world)
    (hc : ∀ target anchor, move.call ≠ .mount target anchor) : l.step move = l := by
  rw [Life.step, h]
  cases hmove : move.call with
  | mount target anchor => exact absurd hmove (hc target anchor)
  | _ => rfl

omit [ForeignBlocks H] in
theorem delivers_of_destroyed (h : l.component.state = .destroyed) : l.delivers call = ∅ := if_pos h

omit [ForeignBlocks H] in
/-- an update keeps the invariant -/
theorem of_updated (h : Lives t g l) {orders : Orders} {changed : Props} {o : Outcome H (Component H)}
    (hu : ∀ X, Stands l.component.state g l.component X →
      Updated g l.component.state l.component X orders changed l.world o) :
    Lives t (g.told ⟨changed, orders⟩) ⟨o.self, o.world, l.nodes⟩ ∧
      o.self.props = l.component.props.extend changed.entries := by
  obtain ⟨X, F, hX, hF, hplace⟩ := h.stands
  have hupdated := hu X hX
  obtain ⟨es, hedited, -, hstands⟩ := hupdated.stands
  refine ⟨⟨hedited.backend.trans h.backend, hupdated.template.trans h.template, X.editAll es, F.editAll es, ?_,
    hedited.holds F hF, ?_⟩, hupdated.props⟩
  · rw [hstands.state]
    exact hstands
  · rw [hstands.state]
    exact hplace.editAll es

theorem step_update (ht : t.Everywhere Template.Sound) (h : Lives t g l) (orders : Orders) (changed : Props) :
    Steps t g l ⟨.update changed, orders⟩ := by
  by_cases hs : l.component.state = .destroyed
  · obtain ⟨X, F, hX, -⟩ := h.stands
    rw [hs] at hX
    exact h.unchanged (step_of_fail (hX.update_destroyed orders changed l.world)) rfl (delivers_of_destroyed hs)
  · obtain ⟨hlives, hprops⟩ := h.of_updated (o := l.component.updateIn orders changed l.world) fun X hX =>
      hX.update hs (h.template ▸ ht) orders changed l.world
    have hd : l.delivers (.update changed) = changed := if_neg hs
    refine ⟨?_, ?_⟩
    · show Lives t (g.told ⟨l.delivers (.update changed), orders⟩) _
      rw [hd]
      exact hlives
    · rw [hd]
      exact hprops

theorem step_tick (ht : t.Everywhere Template.Sound) (h : Lives t g l) (orders : Orders) (incoming : Props)
    (context : Option Props) : Steps t g l ⟨.tick incoming context, orders⟩ := by
  by_cases hs : l.component.state = .destroyed
  · obtain ⟨X, F, hX, -⟩ := h.stands
    rw [hs] at hX
    exact h.unchanged (step_of_fail (hX.tick_destroyed orders incoming context l.world)) rfl (delivers_of_destroyed hs)
  · obtain ⟨hlives, hprops⟩ := h.of_updated (o := l.component.tickIn orders incoming context l.world) fun X hX =>
      hX.tick hs (h.template ▸ ht) orders incoming context l.world
    have hd : l.delivers (.tick incoming context) = l.component.props.changes incoming := if_neg hs
    refine ⟨?_, ?_⟩
    · show Lives t (g.told ⟨l.delivers (.tick incoming context), orders⟩) _
      rw [hd]
      exact hlives
    · rw [hd]
      exact hprops

theorem step_create (h : Lives t g l) (orders : Orders) : Steps t g l ⟨.create, orders⟩ := by
  obtain ⟨X, F, hX, hF, hplace⟩ := h.stands
  have hd : l.delivers .create = ∅ := ite_self ∅
  have hcreate : l.component.state = .unmounted ∨ l.component.state = .destroyed → Steps t g l ⟨.create, orders⟩ := by
    intro hs
    have hc := hX.create hs l.world F hF
    obtain ⟨Y, hY, hholds⟩ := hc.stands
    refine ⟨⟨hc.backend.trans h.backend, hc.template.trans h.template, Y, F ++ Y, ?_, hholds, ?_⟩, ?_⟩
    · rw [show (l.step ⟨.create, orders⟩).component.state = .created from hY.state,
        show l.noted g ⟨.create, orders⟩ = g.told ⟨l.delivers .create, orders⟩ from rfl, hd]
      exact hY.told_empty orders
    · rw [show (l.step ⟨.create, orders⟩).component.state = .created from hY.state]
      exact ⟨F, rfl⟩
    · rw [hd]
      exact hc.props
  cases hs : l.component.state with
  | unmounted => exact hcreate (.inl hs)
  | destroyed => exact hcreate (.inr hs)
  | created =>
    rw [hs] at hX
    exact h.unchanged (step_of_ok (hX.create_created l.world) fun _ _ => nofun) rfl hd
  | mounted =>
    rw [hs] at hX
    exact h.unchanged (step_of_fail (hX.create_mounted l.world)) rfl hd

theorem step_destroy (h : Lives t g l) (orders : Orders) (detaching : Bool) :
    Steps t g l ⟨.destroy detaching, orders⟩ := by
  obtain ⟨X, F, hX, hF, hplace⟩ := h.stands
  have hd : l.delivers (.destroy detaching) = ∅ := ite_self ∅
  have hdestroy : l.component.state = .created ∨ l.component.state = .mounted →
      Steps t g l ⟨.destroy detaching, orders⟩ := by
    intro hs
    have hdestroyed := hX.destroy hs detaching l.world
    refine ⟨⟨hdestroyed.keeps.backend.trans h.backend, hdestroyed.template.trans h.template, nil, _, ?_,
      hdestroyed.keeps.valid hF.valid, ?_⟩, ?_⟩
    · rw [show (l.step ⟨.destroy detaching, orders⟩).component.state = .destroyed from hdestroyed.stands.state,
        show l.noted g ⟨.destroy detaching, orders⟩ = g.told ⟨l.delivers (.destroy detaching), orders⟩ from rfl, hd]
      exact hdestroyed.stands.told_empty orders
    · rw [show (l.step ⟨.destroy detaching, orders⟩).component.state = .destroyed from hdestroyed.stands.state]
      exact ⟨_, (append_nil _).symm⟩
    · rw [hd]
      exact hdestroyed.props
  cases hs : l.component.state with
  | created => exact hdestroy (.inl hs)
  | mounted => exact hdestroy (.inr hs)
  | unmounted =>
    rw [hs] at hX
    exact h.unchanged (step_of_ok (hX.destroy_unmounted detaching l.world) fun _ _ => nofun) rfl hd
  | destroyed =>
    rw [hs] at hX
    exact h.unchanged (step_of_fail (hX.destroy_destroyed detaching l.world)) rfl hd

theorem step_transition (h : Lives t g l) (orders : Orders) (transition : Transition) (isLocal : Bool) :
    Steps t g l ⟨.transition transition isLocal, orders⟩ := by
  obtain ⟨X, F, hX, -⟩ := h.stands
  refine h.unchanged (step_of_ok ?_ fun _ _ => nofun) rfl (ite_self ∅)
  show l.component.call l.world (.transition transition isLocal) = _
  rw [Component.call, Component.callIn, hX.transition]

theorem step_mount (ht : t.Everywhere Template.Sound) (hq : t.Everywhere Template.Quiet) (h : Lives t g l)
    (orders : Orders) {target : NodeId} {anchor : Option NodeId} (ha : l.Allows (.mount target anchor)) :
    Steps t g l ⟨.mount target anchor, orders⟩ ∧ (l.step ⟨.mount target anchor, orders⟩).component.state = .mounted ∧
      (l.component.state ≠ .mounted → (l.component.mount target anchor l.world).result = .ok ()) := by
  obtain ⟨X, F, hX, hF, hplace⟩ := h.stands
  have hd : l.delivers (.mount target anchor) = ∅ := ite_self ∅
  by_cases hs : l.component.state = .mounted
  · rw [hs] at hX
    have hstep : l.step ⟨.mount target anchor, orders⟩ = l := step_of_fail (hX.mount_mounted target anchor l.world)
    refine ⟨⟨?_, ?_⟩, by rw [hstep]; exact hs, absurd hs⟩
    · rw [hstep, Life.noted, if_pos hs]
      exact h
    · rw [hstep, hd]
      rfl
  · have hfits := ha.resolve_left hs
    obtain ⟨Q, rfl⟩ : ∃ Q, F = Q ++ X := by
      cases hstate : l.component.state with
      | mounted => exact absurd hstate hs
      | _ => rw [hstate] at hplace; exact hplace
    have htarget := hX.mem_of_apart hs hF (fun id hid => (hfits.apart id hid).1) hfits.exists_target
    have hanchor : ∀ a ∈ anchor, a ∈ Q.ids := fun a haa =>
      hX.mem_of_apart hs hF (fun id hid => (hfits.apart id hid).2 a haa) (hfits.exists_anchor a haa)
    have hmarked : l.component.core.template.Everywhere Template.Marked :=
      h.template ▸ Template.Everywhere.imp (fun _ h _ => h.marked) t ht ht
    have hfindable : l.component.core.template.Everywhere Template.Findable :=
      h.template ▸ Template.Everywhere.imp (fun _ h _ => h.findable) t ht ht
    rcases hX.mount hs hmarked (h.template ▸ hq) h.backend hF htarget hanchor with ⟨Y, hmounted⟩ | ⟨-, hno⟩
    · obtain ⟨M, G, hM, -, hstands⟩ := hmounted.stands
      have hshows := hstands (h.template ▸ ht)
      -- the target before and after
      obtain ⟨m, hm, rfl⟩ := List.mem_map.1 htarget
      obtain ⟨cs, hcs⟩ := exists_subtree hm
      have hcsF : (m, cs) ∈ (Q ++ X).subtrees := by
        rw [subtrees_append]
        exact List.mem_append_left _ hcs
      have hnodup : Q.ids.Nodup := (List.nodup_append.1 (ids_append Q X ▸ hF.nodup)).1
      have hone := Document.count_isNode_of_mem hnodup htarget
      have hafter : (m, Forest.insertBefore (isAnchor anchor) M cs) ∈
          (Q.graft (Document.isNode m.id) (Forest.insertBefore (isAnchor anchor) M) ++ G).subtrees := by
        rw [subtrees_append]
        exact List.mem_append_left _ (subtree_graft_of_pick hone hcs (Document.isNode_iff.2 rfl))
      obtain ⟨pre, post, hinsert, rfl⟩ := insertBefore_split (isAnchor anchor) M cs
      rw [hinsert] at hafter
      have hnodes : (l.step ⟨.mount m.id anchor, orders⟩).nodes = M.roots.map Node.id := by
        have hdistinct : ((pre ++ (M ++ post)).roots.map Node.id).Nodup := by
          have hids := (((List.sublist_cons_self _ _).trans (subtree_sublist hafter)).map Node.id).nodup hM.nodup
          exact ((roots_sublist_labels _).map Node.id).nodup hids
        have hnew := hM.children hafter
        have hold := hF.children hcsF
        rw [roots_append, roots_append, List.map_append, List.map_append] at hnew hdistinct
        rw [roots_append, List.map_append] at hold
        show l.nodesAfter (l.component.mount m.id anchor l.world) (.mount m.id anchor) = _
        rw [Life.nodesAfter, hmounted.ok]
        dsimp only
        rw [hnew, hold, filter_new hdistinct]
      refine ⟨⟨⟨hmounted.backend.trans h.backend, hmounted.template.trans h.template, M, _, ?_, hM, ?_⟩, ?_⟩,
        hshows.state, fun _ => hmounted.ok⟩
      · rw [show (l.step ⟨.mount m.id anchor, orders⟩).component.state = .mounted from hshows.state, Life.noted, if_neg hs]
        exact hshows
      · rw [show (l.step ⟨.mount m.id anchor, orders⟩).component.state = .mounted from hshows.state]
        refine ⟨hnodes, m, pre, post, hafter, ?_⟩
        rw [← hF.tag? hcsF]
        exact hfits.escapes
      · rw [hd]
        exact hmounted.props
    · exact absurd hfindable hno

/-- **One call.** Every allowed call keeps the invariant and gives the component what it delivers. -/
theorem step (ht : t.Everywhere Template.Sound) (hq : t.Everywhere Template.Quiet) (h : Lives t g l)
    (move : Move) (ha : l.Allows move.call) : Steps t g l move := by
  obtain ⟨call, orders⟩ := move
  cases call with
  | create => exact h.step_create orders
  | mount target anchor => exact (h.step_mount ht hq orders ha).1
  | update changed => exact h.step_update ht orders changed
  | set incoming =>
    have hset := h.step_tick ht orders incoming none
    exact ⟨hset.lives, hset.props⟩
  | tick incoming context => exact h.step_tick ht orders incoming context
  | transition transition isLocal => exact h.step_transition orders transition isLocal
  | destroy detaching => exact h.step_destroy orders detaching

/-- any number of allowed calls keep the invariant -/
theorem run (ht : t.Everywhere Template.Sound) (hq : t.Everywhere Template.Quiet) (moves : List Move)
    (h : Lives t g l) (hl : l.Legal moves) : Lives t (l.history g moves) (l.run moves) := by
  induction moves generalizing l g with
  | nil => exact h
  | cons move moves ih => exact ih (h.step ht hq move hl.1).lives hl.2

end Lives

/-- whether a call gives this prop a value -/
def Call.Names {N : Type} (name : String) : Call N → Prop
  | .update given | .set given | .tick given _ => given.get? name ≠ none
  | _ => False

namespace Life

variable {t : Template (Action H)} {g : History} {l : Life H} {call : Call NodeId} {move : Move} {moves post : List Move}

theorem legal_append : l.Legal (moves ++ post) ↔ l.Legal moves ∧ (l.run moves).Legal post := by
  induction moves generalizing l with
  | nil => exact (and_iff_right trivial).symm
  | cons move moves ih => rw [List.cons_append, Legal, Legal, ih, run_cons, and_assoc]

theorem run_append (l : Life H) (moves post : List Move) : l.run (moves ++ post) = (l.run moves).run post :=
  List.foldl_append

omit [ForeignBlocks H] in
theorem get?_changes_of_none {p incoming : Props} {name : String} (h : incoming.get? name = none) :
    (p.changes incoming).get? name = none := by
  rw [Props.get?, Entries.get?_eq_none_iff] at h ⊢
  exact fun hin => h ((List.filter_sublist.map Prod.fst).subset hin)

omit [ForeignBlocks H] in
/-- what a call does not name it does not deliver -/
theorem delivers_of_not_names {name : String} (h : ¬ call.Names name) : (l.delivers call).get? name = none := by
  unfold delivers
  split
  · rfl
  · cases call with
    | update given => exact not_not.1 h
    | set given => exact get?_changes_of_none (not_not.1 h)
    | tick given context => exact get?_changes_of_none (not_not.1 h)
    | _ => rfl

/-- a value stays until a call names its prop again -/
theorem get?_run (ht : t.Everywhere Template.Sound) (hq : t.Everywhere Template.Quiet) (h : Lives t g l)
    (hl : l.Legal moves) {name : String} (hn : ∀ move ∈ moves, ¬ move.call.Names name) :
    (l.run moves).component.props.get? name = l.component.props.get? name := by
  induction moves generalizing l g with
  | nil => rfl
  | cons move moves ih =>
    rw [List.forall_mem_cons] at hn
    have hstep := h.step ht hq move hl.1
    rw [run_cons, ih hstep.lives hl.2 hn.2, hstep.props, Props.get?_extend, delivers_of_not_names hn.1, Option.none_or]

/-- a value that a call delivers is there until a call names its prop again -/
theorem get?_run_of_delivers (ht : t.Everywhere Template.Sound) (hq : t.Everywhere Template.Quiet) (h : Lives t g l)
    (hl : l.Legal (moves ++ move :: post)) {name : String}
    {value : Value} (hd : ((l.run moves).delivers move.call).get? name = some value)
    (hn : ∀ move ∈ post, ¬ move.call.Names name) :
    (l.run (moves ++ move :: post)).component.props.get? name = some value := by
  obtain ⟨hmoves, hmove, hpost⟩ := legal_append.1 hl
  have hstep := (h.run ht hq moves hmoves).step ht hq move hmove
  rw [run_append, run_cons, get?_run ht hq hstep.lives hpost hn, hstep.props, Props.get?_extend, hd, Option.some_or]

omit [ForeignBlocks H] in
/-- an instance that nothing has happened to lives -/
theorem lives_start (t : Template (Action H)) (options : Options H) {w : World H} (hb : w.backend = .faithful)
    (hw : w.document.Valid) : Lives t (.start options.props) (start t options w) := by
  obtain ⟨hstands, htemplate, -, halike⟩ := ofTemplate_stands t options.props w
  have hfresh : Stands .unmounted (.start options.props) (Component.fresh t options w) nil := hstands.withContext options.slotContext
  have hvalid : (start t options w).world.document.Valid := halike.document.symm ▸ hw
  refine ⟨halike.backend.trans hb, htemplate, nil, _, ?_, hvalid, ?_⟩
  · rw [show (start t options w).component.state = .unmounted from hfresh.state]
    exact hfresh
  · rw [show (start t options w).component.state = .unmounted from hfresh.state]
    exact ⟨_, (append_nil _).symm⟩

omit [ForeignBlocks H] in
/-- what is mounted is written as the tree of its history -/
theorem html_of_lives (ht : t.Everywhere Template.Sound) (h : Lives t g l) (hm : l.component.state = .mounted) :
    l.html = print (t.latest g) := by
  obtain ⟨X, F, hX, hF, hplace⟩ := h.stands
  rw [hm] at hX hplace
  obtain ⟨hnodes, m, pre, post, hsub, hraw⟩ := hplace
  have hmarkup := hX.toMarkup (h.template.symm ▸ ht)
  rw [html, hnodes, List.map_map]
  refine (hF.html_roots hsub hraw).trans ?_
  rw [hmarkup, h.template]

omit [ForeignBlocks H] in
/-- where no change was disputed, it is written as the template is rendered for the current props -/
theorem html_of_undisputed (ht : t.Everywhere Template.Sound) (h : Lives t g l) (hu : t.Undisputed g)
    (hm : l.component.state = .mounted) : l.html = t.render l.component.props SlotMarkup.none := by
  obtain ⟨X, F, hX, -⟩ := h.stands
  rw [html_of_lives ht h hm, Template.latest_eq_tree t g hu, hX.props_eq,
    Template.render_eq_print t (Template.Everywhere.imp (fun _ h _ => h.wellFormed) t ht ht)]

/-- **Updates agree with rendering, over whole lives.** Whatever calls are made, in whatever order, and in whatever
orders the components in it take what is forwarded to them: as long as the component is mounted, its nodes are written as
its template is rendered for its current props. A value that was given to it in any state but the last is among these,
until its prop is given another; and mounting it always succeeds. -/
theorem html_run (ha : t.Everywhere Template.Accepted) (hf : t.Everywhere Template.MarkerFree)
    (ho : t.Everywhere Template.BindsOnce) (hq : t.Everywhere Template.Quiet) {w : World H}
    (hb : w.backend = .faithful) (hw : w.document.Valid) (options : Options H)
    (hl : (start t options w).Legal moves) :
    (((start t options w).run moves).component.state = .mounted →
      ((start t options w).run moves).html =
        t.render ((start t options w).run moves).component.props SlotMarkup.none) ∧
    (∀ before move after, moves = before ++ move :: after → ∀ name value,
      (((start t options w).run before).delivers move.call).get? name = some value →
      (∀ move ∈ after, ¬ move.call.Names name) →
        ((start t options w).run moves).component.props.get? name = some value) ∧
    ∀ target anchor orders, ((start t options w).run moves).Allows (.mount target anchor) →
      (((start t options w).run moves).step ⟨.mount target anchor, orders⟩).component.state = .mounted := by
  have ht : t.Everywhere Template.Sound := ha.sound hf
  have hstart := lives_start t options hb hw
  have hrun := hstart.run ht hq moves hl
  have hw : t.Everywhere fun t => WellFormed t.skeleton := Template.Everywhere.imp (fun _ h _ => h.wellFormed) t ht ht
  refine ⟨html_of_undisputed ht hrun (t.undisputed_of_bindsOnce ho hw _), ?_, fun target anchor orders hallows =>
    (hrun.step_mount ht hq orders hallows).2.1⟩
  rintro before move after rfl name value hd hn
  exact get?_run_of_delivers ht hq hstart hl hd hn

/-- updated before it is mounted, then destroyed and mounted again -/
def remounted : List Move :=
  [⟨.update (Props.ofList [("name", .str "a<b")]), .kept⟩, ⟨.mount 0 none, .kept⟩, ⟨.destroy true, .kept⟩,
    ⟨.mount 0 none, .kept⟩]

theorem html_run_framed : ((start Template.framed Options.default World.blank).run remounted).html =
    "<div><p title=\"a&lt;b\">a&lt;b</p></div>" := by
  have hfits : ∀ before : List Move,
      (((start Template.framed Options.default World.blank).run before).world.document.find? 0).isSome = true →
      ((start Template.framed Options.default World.blank).run before).component.handles = [] →
      (((start Template.framed Options.default World.blank).run before).world.document.tag? 0).any isRawText = false →
      ((start Template.framed Options.default World.blank).run before).Allows (.mount 0 none) :=
    fun before hfind hhandles htag =>
      .inr ⟨Option.ne_none_iff_isSome.2 hfind, fun _ h => (Option.not_mem_none _ h).elim,
        fun id hid => absurd (hhandles ▸ hid) List.not_mem_nil, htag⟩
  have hl : (start Template.framed Options.default World.blank).Legal remounted :=
    ⟨trivial, hfits (remounted.take 1) (by decide +kernel) (by decide +kernel) (by decide +kernel), trivial,
      hfits (remounted.take 3) (by decide +kernel) (by decide +kernel) (by decide +kernel), trivial⟩
  obtain ⟨hhtml, -⟩ := html_run Template.framed_accepted Template.framed_markerFree Template.framed_bindsOnce
    Template.framed_quiet rfl World.blank_valid Options.default hl
  exact (hhtml (by decide +kernel)).trans (by decide +kernel)

end Life

end LiveMarkup
