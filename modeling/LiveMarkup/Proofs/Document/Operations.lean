/-
Every operation on nodes, in any order and with any arguments.

`Operation` is what can be done to nodes that are kept. Each is performed on the document and, link by link, on a heap.
`run_forest` is about both after any operations:

- the heap holds the records and links of the document, and walks along its links end (`Heap.Agrees`);
- the links are those of a forest (`Document.IsForest`): children and parents belong together, a node is in one list and
  once, the way up never returns and ends, fragments are nobody's children, and the nodes are those that were made;
- the next operation does what it is to do and nothing else (`Operation.Effect`): new nodes come as one new tree, moved
  nodes take their trees along, and all other links and nodes stay.
-/
import LiveMarkup.Proofs.Document.Grow
import LiveMarkup.Proofs.Document.Heap

namespace LiveMarkup

open Forest

variable {L : Type}

/-! ## Operations -/

/-- what is written into a node -/
inductive Writing (L : Type) where
  | setAttribute (name value : String)
  | removeAttribute (name : String)
  | renameAttribute (source target value : String)
  | setData (data : String)
  | listen (event : String) (listener : L)
  | unlisten (ticket : Nat)

/-- what can be done to nodes; `insert` without an anchor appends -/
inductive Operation (L : Type) where
  | create (kind : Kind)
  | copy (node : Markup.Node)
  | instantiate (nodes : List Markup.Node)
  | insert (parent child : NodeId) (anchor : Option NodeId)
  | remove (id : NodeId)
  | replace (old new : NodeId)
  | write (id : NodeId) (writing : Writing L)

namespace Writing

/-- the document after something is written into one of its nodes -/
def perform (id : NodeId) : Writing L → Document L → Document L
  | .setAttribute name value, d => d.setAttribute id name value
  | .removeAttribute name, d => d.removeAttribute id name
  | .renameAttribute source target value, d => d.renameAttribute id source target value
  | .setData data, d => d.setData id data
  | .listen event listener, d => (d.listen id event listener).1
  | .unlisten ticket, d => d.unlisten id ticket

def mapAttributes (g : Attributes → Attributes) (n : Node L) : Node L := { n with kind := n.kind.mapAttributes g }

def apply : Writing L → Node L → Node L
  | .setAttribute name value, n => mapAttributes (Entries.set name value) n
  | .removeAttribute name, n => mapAttributes (Entries.erase name) n
  | .renameAttribute source target value, n => mapAttributes (Entries.rename source target value) n
  | .setData data, n => { n with kind := n.kind.withData data }
  | .listen event listener, n =>
    { n with listeners := n.listeners ++ [⟨n.nextTicket, event, listener⟩], nextTicket := n.nextTicket + 1 }
  | .unlisten ticket, n => { n with listeners := n.listeners.filter (·.ticket != ticket) }

theorem updateAttributes_eq (d : Document L) (id : NodeId) (g : Attributes → Attributes) :
    d.updateAttributes id g = d.update id (mapAttributes g) := by
  refine congrArg (d.update id) (funext fun n => ?_)
  rw [mapAttributes]
  cases n.kind <;> rfl

/-- what is written changes one node -/
theorem perform_eq (w : Writing L) (id : NodeId) (d : Document L) : w.perform id d = d.update id w.apply := by
  cases w with
  | setAttribute name value => exact updateAttributes_eq d id _
  | removeAttribute name => exact updateAttributes_eq d id _
  | renameAttribute source target value => exact updateAttributes_eq d id _
  | setData data =>
    refine congrArg (d.update id) (funext fun n => ?_)
    rw [apply]
    cases n.kind <;> rfl
  | listen event listener => rfl
  | unlisten ticket => rfl

/-- a node that is written into is the same node: an element of the same tag, or of the same other kind -/
theorem touch (w : Writing L) : ∃ t : Bare → Bare, Touch t ∧ ∀ n, (w.apply n).bare = t n.bare := by
  have hattributes : ∀ g, Touch (Node.mapKind (Kind.mapAttributes g)) := fun g =>
    ⟨fun _ => rfl, fun n => Kind.tag?_mapAttributes g n.kind, fun n => Kind.isFragment_mapAttributes g n.kind⟩
  cases w with
  | setAttribute name value => exact ⟨_, hattributes _, fun _ => rfl⟩
  | removeAttribute name => exact ⟨_, hattributes _, fun _ => rfl⟩
  | renameAttribute source target value => exact ⟨_, hattributes _, fun _ => rfl⟩
  | setData data =>
    exact ⟨Node.mapKind (Kind.withData data), ⟨fun _ => rfl, fun n => Kind.tag?_withData data n.kind,
      fun n => Kind.isFragment_withData data n.kind⟩, fun _ => rfl⟩
  | listen event listener => exact ⟨_, .refl, fun _ => rfl⟩
  | unlisten ticket => exact ⟨_, .refl, fun _ => rfl⟩

theorem tag?_apply (w : Writing L) (n : Node L) : (w.apply n).kind.tag? = n.kind.tag? := by
  obtain ⟨t, ht, hbare⟩ := w.touch
  exact (congrArg (fun b : Bare => b.kind.tag?) (hbare n)).trans (ht.tag n.bare)

end Writing

namespace Operation

def perform : Operation L → Document L → Document L
  | .create kind, d => (d.add kind).1
  | .copy node, d => (d.copy node).1
  | .instantiate nodes, d => (d.addFragment nodes).1
  | .insert parent child anchor, d => d.insertBefore parent child anchor
  | .remove id, d => d.detach id
  | .replace old new, d => d.replaceWith old new
  | .write id writing, d => writing.perform id d

def run (ops : List (Operation L)) (d : Document L) : Document L := ops.foldl (fun d op => op.perform d) d

/-- the heap after an operation, which may not come to an end -/
def performLinked : Operation L → Heap L → Option (Heap L)
  | .create kind, h => some (h.create kind).1
  | .copy node, h => (h.copy node).map (·.1)
  | .instantiate nodes, h => Heap.copyAll nodes (h.create .fragment).2 (h.create .fragment).1
  | .insert parent child anchor, h => h.insert parent child anchor
  | .remove id, h => some (h.remove id)
  | .replace old new, h => h.replaceWith old new
  | .write id writing, h => some (h.rewrite id writing.apply)

def runLinked (ops : List (Operation L)) (h : Heap L) : Option (Heap L) := ops.foldlM (fun h op => op.performLinked h) h

end Operation

/-! ## What the links are -/

/-- the links of the document are those of a forest of all nodes that were made -/
structure Document.IsForest (d : Document L) : Prop where
  nodes : d.forest.ids.Perm (List.range d.fresh)
  linked : ∀ p c, c ∈ d.children p ↔ d.parent? c = some p
  nodup : ∀ p, (d.children p).Nodup
  onward : ∀ id n, d.ancestor? (n + 1) id ≠ some id
  ends : ∀ id, d.ancestor? (d.fresh + 1) id = none
  top : ∀ p, ∀ c ∈ d.children p, d.isFragment c = false

/-- the heap has the records and the links of the document, and every walk along its links finds what the document has
there within as many steps as there are nodes -/
structure Heap.Agrees (h : Heap L) (d : Document L) : Prop where
  size : h.size = d.fresh
  cell : ∀ id, h.cell? id = (d.node? id).map fun n => ⟨n, d.parent? id, d.children id⟩
  contains : ∀ outer inner, h.contains outer (h.size + 1) inner = some (d.contains outer inner)
  below : ∀ id, h.below h.size (d.children id) = some (d.childForest id)

/-! ## What operations do -/

namespace Document

/-- one node has been written into; nothing else is different -/
structure Rewrites (id : NodeId) (g : Node L → Node L) (d d' : Document L) : Prop where
  node : ∀ x, d'.node? x = (d.node? x).map fun n => if x = id then g n else n
  fragment : ∀ x, d'.isFragment x = d.isFragment x
  parent : ∀ x, d'.parent? x = d.parent? x
  children : ∀ x, d'.children x = d.children x

theorem grows_add {d : Document L} (hv : d.Valid) (kind : Kind) :
    d.Grows (d.add kind).1 ∧ (d.add kind).1.treeOf d.fresh = tree ⟨d.fresh, kind, [], 0⟩ nil := by
  refine grows_of_tree (n := ⟨d.fresh, kind, [], 0⟩) hv (valid_add hv kind) ?_ rfl (Nat.le_succ _)
  rw [Nat.add_sub_cancel_left]
  rfl

theorem grows_addFragment {d : Document L} (hv : d.Valid) (nodes : List Markup.Node) :
    d.Grows (d.addFragment nodes).1 ∧ (d.addFragment nodes).1.find? d.fresh =
      some (⟨d.fresh, .fragment, [], 0⟩, (plant nodes (d.fresh + 1)).1) := by
  have hv' : (d.addFragment nodes).1.Valid := (Holds.addFragment hv nodes).valid
  obtain ⟨hle, hids⟩ := plant_ids (L := L) nodes (d.fresh + 1)
  have hrange : (tree (⟨d.fresh, .fragment, [], 0⟩ : Node L) (plant nodes (d.fresh + 1)).1).ids =
      List.range' d.fresh ((plant (L := L) nodes (d.fresh + 1)).2 - d.fresh) := by
    rw [ids_tree, hids]
    exact range'_cons hle
  refine ⟨(grows_of_tree hv hv' hrange rfl (Nat.le_of_succ_le hle)).1, ?_⟩
  refine find?_of_subtree (n := ⟨d.fresh, .fragment, [], 0⟩) hv' ?_
  rw [addFragment, subtrees_append]
  exact List.mem_append_right _ List.mem_cons_self

theorem rewrites_perform {d : Document L} (hd : d.Intact) (w : Writing L) (id : NodeId) :
    (w.perform id d).Intact ∧ d.Rewrites id w.apply (w.perform id d) := by
  obtain ⟨t, ht, hbare⟩ := w.touch
  rw [Writing.perform_eq]
  refine ⟨hd.update hbare ht id, node?_update hbare ht id, fun x => ?_, parent?_update hbare ht hd.valid id,
    children_update hbare ht hd.valid id⟩
  have hsame : ∀ n, (w.apply n).kind.isFragment = n.kind.isFragment := fun n =>
    (congrArg (fun b : Bare => b.kind.isFragment) (hbare n)).trans (ht.fragment n.bare)
  rw [isFragment_eq_node?, isFragment_eq_node?, node?_update hbare ht]
  cases d.node? x with
  | none => rfl
  | some n =>
    rw [Option.map_some, Option.any_some, Option.any_some]
    split
    · exact hsame n
    · rfl

end Document

/-- what an operation may do to a document, and all that it may do -/
def Operation.Effect : Operation L → Document L → Document L → Prop
  | .create kind, d, d' => d.Grows d' ∧ d'.treeOf d.fresh = tree ⟨d.fresh, kind, [], 0⟩ nil
  | .copy node, d, d' => d.Grows d' ∧ (d'.treeOf d.fresh).toMarkup = [node]
  | .instantiate nodes, d, d' =>
    d.Grows d' ∧ d'.isFragment d.fresh = true ∧ (d'.childForest d.fresh).toMarkup = nodes
  | .insert parent child _, d, d' => Document.Relinks (d.pieces parent child) (some parent) d d'
  | .remove id, d, d' => Document.Relinks [id] none d d'
  | .replace old new, d, d' =>
    match d.parent? old with
    | some parent =>
      ∃ e, Document.Relinks (d.pieces parent new) (some parent) d e ∧ Document.Relinks [old] none e d'
    | none => d' = d
  | .write id writing, d, d' => d.Rewrites id writing.apply d'

namespace Operation

open Document

/-- one operation: the heap follows, the document stays intact, and nothing happens but what is to happen -/
theorem step (op : Operation L) {d : Document L} {h : Heap L} (hd : d.Intact) (hm : h.Mirrors [] d) :
    (∃ h', op.performLinked h = some h' ∧ h'.Mirrors [] (op.perform d)) ∧ (op.perform d).Intact ∧
      op.Effect d (op.perform d) := by
  have hv := hd.valid
  cases op with
  | create kind =>
    exact ⟨⟨_, rfl, (hm.create hv kind).1⟩, hd.add kind, grows_add hv kind⟩
  | copy node =>
    obtain ⟨h', hrun, hm', hd'⟩ := Heap.Mirrors.build node hm hd
    rw [build_eq node d hv] at hrun hm' hd'
    refine ⟨⟨h', ?_, hm'⟩, hd', ?_⟩
    · rw [performLinked, hrun]
      rfl
    · obtain ⟨m, cs, hplant, hid, -⟩ := plantNode_tree (L := L) node d.fresh
      obtain ⟨hle, hids⟩ := plantNode_ids (L := L) node d.fresh
      have hv' := valid_copy hv node
      rw [Effect, perform]
      rw [Document.copy] at hv' ⊢
      dsimp only at hv' ⊢
      rw [hplant] at hids hv' ⊢
      obtain ⟨hgrows, htree⟩ := grows_of_tree hv hv' hids hid hle
      refine ⟨hgrows, ?_⟩
      rw [htree, ← hplant, toMarkup_plantNode]
  | instantiate nodes =>
    obtain ⟨hmade, hid⟩ := hm.create hv .fragment
    obtain ⟨h', hrun, hm', hd'⟩ := Heap.Mirrors.buildAll nodes (d.add .fragment).2 hmade (hd.add _)
    have heq := congrArg Prod.fst (buildAll_fragment hv nodes)
    dsimp only at heq
    rw [heq] at hm' hd'
    refine ⟨⟨h', ?_, hm'⟩, hd', ?_⟩
    · rw [performLinked, hid, hrun]
    · obtain ⟨hgrows, hfind⟩ := grows_addFragment hv nodes
      refine ⟨hgrows, ?_, ?_⟩
      · rw [perform, Document.isFragment, Document.kind?, hfind]
        rfl
      · rw [perform, Document.childForest, hfind]
        exact toMarkup_plant nodes _
  | insert parent child anchor =>
    exact ⟨hm.insert hd parent child anchor, hd.insertBefore parent child anchor,
      relinks_insertBefore hd parent child anchor⟩
  | remove id => exact ⟨⟨_, rfl, hm.remove_detach hv id⟩, hd.detach id, relinks_detach hv id⟩
  | replace old new =>
    refine ⟨hm.replaceWith hd old new, hd.replaceWith old new, ?_⟩
    rw [Effect, perform, Document.replaceWith]
    cases d.parent? old with
    | none => rfl
    | some p =>
      exact ⟨_, relinks_insertBefore hd p new _, relinks_detach (hd.insertBefore p new _).valid old⟩
  | write id writing =>
    obtain ⟨t, ht, hbare⟩ := writing.touch
    refine ⟨⟨_, rfl, ?_⟩, rewrites_perform hd writing id⟩
    rw [perform, Writing.perform_eq]
    exact hm.rewrite hv hbare ht id

/-- operations after one another -/
theorem steps (ops : List (Operation L)) {d : Document L} {h : Heap L} (hd : d.Intact) (hm : h.Mirrors [] d) :
    ∃ h', runLinked ops h = some h' ∧ h'.Mirrors [] (run ops d) ∧ (run ops d).Intact := by
  induction ops generalizing d h with
  | nil => exact ⟨h, rfl, hm, hd⟩
  | cons op ops ih =>
    obtain ⟨⟨h₁, hstep, hm₁⟩, hd₁, -⟩ := op.step hd hm
    obtain ⟨h₂, hrun, hm₂, hd₂⟩ := ih hd₁ hm₁
    refine ⟨h₂, ?_, hm₂, hd₂⟩
    rw [runLinked, List.foldlM_cons, hstep]
    exact hrun

theorem agrees {d : Document L} {h : Heap L} (hv : d.Valid) (hm : h.Mirrors [] d) : h.Agrees d := by
  refine ⟨hm.size, fun id => ?_, fun outer inner => ?_, fun id => ?_⟩
  · rw [hm.cell]
    refine congrArg (Option.map · _) (funext fun n => ?_)
    rw [if_neg List.not_mem_nil, filter_not_mem_nil]
  · refine hm.contains hv outer inner _ ?_ fun _ hl => absurd hl List.not_mem_nil
    rw [hm.size]
    exact Nat.lt_of_lt_of_le (Nat.lt_succ_self _) (Nat.le_add_left _ _)
  · rw [Document.children, Document.childForest]
    cases hf : d.find? id with
    | none => cases h.size <;> rfl
    | some t =>
      obtain ⟨n, cs⟩ := t
      obtain ⟨-, hs, -⟩ := find?_subtree hv hf
      refine hm.below hv cs (fun s => subtrees_trans hs) _ ?_
      rw [hm.size]
      exact ((List.sublist_cons_self n _).trans (subtree_sublist hs)).length_le.trans (length_labels_le hv)

theorem isForest {d : Document L} {h : Heap L} (hd : d.Intact) (hm : h.Mirrors [] d) : d.IsForest := by
  have hv := hd.valid
  refine ⟨?_, fun p c => mem_children_iff hv, Holds.nodup_children hv, fun id n hn => ?_, fun id => ?_, hd.top⟩
  · refine (List.perm_ext_iff_of_nodup hv.nodup List.nodup_range).2 fun id => ?_
    rw [List.mem_range]
    refine ⟨hv.below, fun hlt => mem_ids_of_node? hv fun hnone => ?_⟩
    -- every number in use is that of a node in the heap
    have hcell := hm.cell id
    rw [hnone, Heap.cell?, Option.map_none, List.getElem?_eq_none_iff] at hcell
    exact Nat.not_lt.2 hcell (Nat.lt_of_lt_of_eq hlt hm.size.symm)
  · have := ancestor_weight hv hn
    omega
  · refine Option.eq_none_iff_forall_not_mem.2 fun a ha => ?_
    have h1 := ancestor_weight hv ha
    have h2 := weight_le hv a
    exact Nat.not_succ_le_self _ ((Nat.le_add_left _ _).trans (h1.trans h2))

/-- after any operations from nothing the heap and the document agree, their links are those of a forest, and the next
operation changes nothing but what it is to change -/
theorem run_forest (ops : List (Operation L)) :
    (∃ h, runLinked ops Heap.empty = some h ∧ h.Agrees (run ops ∅)) ∧ (run ops (∅ : Document L)).IsForest ∧
      ∀ op : Operation L, op.Effect (run ops ∅) (op.perform (run ops ∅)) := by
  have hempty : (∅ : Document L).Intact :=
    ⟨⟨.refl _, List.nodup_nil, fun _ hid => absurd hid List.not_mem_nil⟩, fun _ _ hc => absurd hc List.not_mem_nil⟩
  obtain ⟨h, hrun, hm, hd⟩ := steps ops hempty .empty
  exact ⟨⟨h, hrun, agrees hd.valid hm⟩, isForest hd hm, fun op => (op.step hd hm).2.2⟩

end Operation

end LiveMarkup
