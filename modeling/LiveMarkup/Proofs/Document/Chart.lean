/-
Two documents with a part in common.

A chart names nodes of one document and says what they are called in another. `Relates` says that both documents have the
same there: the same nodes under other names, with the same children and parents. Some of these nodes are somebody's own,
and only these are changed: `Advance` says that both documents have gone on, that the chart has followed with the nodes
that have come, and that in the first document everything is left alone that is not the owner's. One node, the target, is
not the owner's but may have the owner's nodes among its children.

- `Relates.childForest`: what is below a node of the chart is the same in both documents, up to names;
- `Relates.perform`, `Relates.detach`, `Relates.insertBefore`, `Relates.replaceWith`, `Relates.discard`, `Relates.add`,
  `Relates.addFragment`: every change that is made on both sides advances the chart.

With the same document on both sides, and all its nodes in the chart, what is left of this is what the owner leaves alone.
-/
import LiveMarkup.Proofs.Document.Part
import LiveMarkup.Proofs.Document.Operations

namespace LiveMarkup

open Forest

variable {L : Type}

/-- nodes of a document and their names in another; some of them are an owner's, who has a place at the target -/
structure Chart where
  mem : NodeId → Prop
  own : NodeId → Prop
  target : NodeId
  rename : NodeId → NodeId

def Chart.add (χ : Chart) (ids : List NodeId) (ρ : NodeId → NodeId) : Chart :=
  { mem := fun x => χ.mem x ∨ x ∈ ids, own := fun x => χ.own x ∨ x ∈ ids, target := χ.target, rename := ρ }

namespace Chart

open Document

/-- two documents have the same where the chart is -/
structure Relates (χ : Chart) (d d' : Document L) : Prop where
  intact : d.Intact
  intact' : d'.Intact
  injective : Function.Injective χ.rename
  below : ∀ x, χ.mem x → x < d.fresh ∧ χ.rename x < d'.fresh
  own_mem : ∀ x, χ.own x → χ.mem x
  target_mem : χ.mem χ.target
  target_own : ¬ χ.own χ.target
  closed : ∀ x, χ.mem x → ∀ c ∈ d.children x, χ.mem c
  own_closed : ∀ x, χ.own x → ∀ c ∈ d.children x, χ.own c
  up : ∀ x, χ.mem x → x ≠ χ.target → ∀ p, d.parent? x = some p → χ.mem p
  own_up : ∀ x, χ.own x → ∀ p, d.parent? x = some p → χ.own p ∨ p = χ.target
  node : ∀ x, χ.mem x → d'.node? (χ.rename x) = (d.node? x).map (Node.rename χ.rename)
  children : ∀ x, χ.mem x → d'.children (χ.rename x) = (d.children x).map χ.rename
  parent : ∀ x, χ.mem x → x ≠ χ.target → d'.parent? (χ.rename x) = (d.parent? x).map χ.rename

/-- a chart that has followed: it names what it named, and new nodes that are the owner's -/
structure Extends (χ χ₁ : Chart) (fresh : NodeId) : Prop where
  target : χ₁.target = χ.target
  mem : ∀ x, χ.mem x → χ₁.mem x
  own : ∀ x, χ.own x → χ₁.own x
  new_mem : ∀ x, χ₁.mem x → χ.mem x ∨ χ₁.own x
  new_own : ∀ x, χ₁.own x → χ.own x ∨ fresh ≤ x
  rename : ∀ x, χ.mem x → χ₁.rename x = χ.rename x

/-- nothing is different but where the owner's nodes are -/
structure Spares (χ : Chart) (d d₁ : Document L) : Prop where
  fresh : d.fresh ≤ d₁.fresh
  node : ∀ x, ¬ χ.own x → d₁.node? x = d.node? x
  parent : ∀ x, ¬ χ.own x → d₁.parent? x = d.parent? x
  children : ∀ x, ¬ χ.own x → x ≠ χ.target → d₁.children x = d.children x

/-- nothing in the chart is another owner's, nor the place where that owner's nodes are put -/
def Apart (χ ψ : Chart) : Prop := ∀ x, χ.mem x → ¬ ψ.own x ∧ x ≠ ψ.target

/-- every node of the chart goes by the same name in both documents -/
def Fixed (χ : Chart) : Prop := ∀ x, χ.mem x → χ.rename x = x

/-- both documents have gone on, and the chart has followed -/
structure Advance (χ χ₁ : Chart) (d d' d₁ d₁' : Document L) : Prop where
  relates : χ₁.Relates d₁ d₁'
  extend : χ.Extends χ₁ d.fresh
  spares : χ₁.Spares d d₁
  fixed : d'.fresh = d.fresh → χ.Fixed → d₁'.fresh = d₁.fresh ∧ χ₁.Fixed

variable {χ χ₁ χ₂ : Chart} {d d' d₁ d₁' d₂ d₂' : Document L} {x p c : NodeId}

theorem Extends.refl (χ : Chart) (fresh : NodeId) : χ.Extends χ fresh :=
  ⟨rfl, fun _ h => h, fun _ h => h, fun _ h => .inl h, fun _ h => .inl h, fun _ _ => rfl⟩

theorem Extends.trans {m n : NodeId} (h : χ.Extends χ₁ m) (h' : χ₁.Extends χ₂ n) (hmn : m ≤ n) : χ.Extends χ₂ m where
  target := h'.target.trans h.target
  mem x hx := h'.mem x (h.mem x hx)
  own x hx := h'.own x (h.own x hx)
  new_mem x hx := (h'.new_mem x hx).elim (fun h1 => (h.new_mem x h1).imp_right (h'.own x)) .inr
  new_own x hx := (h'.new_own x hx).elim (h.new_own x) fun h1 => .inr (Nat.le_trans hmn h1)
  rename x hx := (h'.rename x (h.mem x hx)).trans (h.rename x hx)

theorem Spares.refl (χ : Chart) (d : Document L) : χ.Spares d d :=
  ⟨Nat.le_refl _, fun _ _ => rfl, fun _ _ => rfl, fun _ _ _ => rfl⟩

theorem Advance.refl (h : χ.Relates d d') : Advance χ χ d d' d d' := ⟨h, .refl χ d.fresh, .refl χ d, .intro⟩

theorem Advance.trans (h : Advance χ χ₁ d d' d₁ d₁') (h' : Advance χ₁ χ₂ d₁ d₁' d₂ d₂') :
    Advance χ χ₂ d d' d₂ d₂' where
  relates := h'.relates
  extend := h.extend.trans h'.extend h.spares.fresh
  spares :=
    { fresh := Nat.le_trans h.spares.fresh h'.spares.fresh
      node := fun x hx => (h'.spares.node x hx).trans (h.spares.node x fun hn => hx (h'.extend.own x hn))
      parent := fun x hx => (h'.spares.parent x hx).trans (h.spares.parent x fun hn => hx (h'.extend.own x hn))
      children := fun x hx ht => (h'.spares.children x hx ht).trans
        (h.spares.children x (fun hn => hx (h'.extend.own x hn)) (by rwa [← h'.extend.target])) }
  fixed he hf := (h.fixed he hf).elim h'.fixed

/-- both documents go on, and no node comes: who has become a child of another is the owner's, and so is the other, or it
is the target -/
theorem Relates.onward (h : χ.Relates d d') (hi : d₁.Intact) (hi' : d₁'.Intact) (hfresh : d₁.fresh = d.fresh)
    (hfresh' : d₁'.fresh = d'.fresh)
    (hkids : ∀ x, ∀ c ∈ d₁.children x, c ∈ d.children x ∨ χ.own c ∧ (χ.own x ∨ x = χ.target))
    (node : ∀ x, χ.mem x → d₁'.node? (χ.rename x) = (d₁.node? x).map (Node.rename χ.rename))
    (children : ∀ x, χ.mem x → d₁'.children (χ.rename x) = (d₁.children x).map χ.rename)
    (parent : ∀ x, χ.mem x → x ≠ χ.target → d₁'.parent? (χ.rename x) = (d₁.parent? x).map χ.rename)
    (node_rest : ∀ x, ¬ χ.own x → d₁.node? x = d.node? x) (parent_rest : ∀ x, ¬ χ.own x → d₁.parent? x = d.parent? x)
    (children_rest : ∀ x, ¬ χ.own x → x ≠ χ.target → d₁.children x = d.children x) : Advance χ χ d d' d₁ d₁' := by
  have hparent : ∀ x p, d₁.parent? x = some p → d.parent? x = some p ∨ χ.own x ∧ (χ.own p ∨ p = χ.target) :=
    fun x p hp => (hkids p x ((mem_children_iff hi.valid).2 hp)).imp_left (mem_children_iff h.intact.valid).1
  refine ⟨?_, .refl χ _, ⟨Nat.le_of_eq hfresh.symm, node_rest, parent_rest, children_rest⟩, fun he hf => ?_⟩
  · exact
      { intact := hi
        intact' := hi'
        injective := h.injective
        below := fun x hx => by rw [hfresh, hfresh']; exact h.below x hx
        own_mem := h.own_mem
        target_mem := h.target_mem
        target_own := h.target_own
        closed := fun x hx c hc => (hkids x c hc).elim (h.closed x hx c) fun ho => h.own_mem c ho.1
        own_closed := fun x hx c hc => (hkids x c hc).elim (h.own_closed x hx c) And.left
        up := fun x hx ht p hp => (hparent x p hp).elim (h.up x hx ht p) fun ho =>
          ho.2.elim (h.own_mem p) fun e => e ▸ h.target_mem
        own_up := fun x hx p hp => (hparent x p hp).elim (h.own_up x hx p) And.right
        node, children, parent }
  · exact ⟨by rw [hfresh, hfresh', he], hf⟩

/-! ## What is below a node of the chart -/

/-- what holds of a node and of the children of all of which it holds, holds of all that is below the node -/
theorem forall_below {P : NodeId → Prop} (hv : d.Valid) (hP : ∀ x, P x → ∀ c ∈ d.children x, P c) :
    ∀ f : Forest (Node L), f.subtrees ⊆ d.forest.subtrees → (∀ n ∈ f.roots, P n.id) → ∀ n ∈ f.labels, P n.id := by
  intro f
  induction f with
  | nil =>
    intro _ _ n hn
    cases hn
  | cons a cs rest ihc ihr =>
    intro hf hroots n hn
    have ha : P a.id := hroots a List.mem_cons_self
    rcases List.mem_cons.1 hn with rfl | hn
    · exact ha
    rcases List.mem_append.1 hn with hn | hn
    · refine ihc (fun t ht => hf (List.mem_cons_of_mem _ (List.mem_append_left _ ht))) (fun m hm => ?_) n hn
      refine hP a.id ha m.id ?_
      rw [children_of_subtree hv (hf List.mem_cons_self)]
      exact List.mem_map_of_mem hm
    · exact ihr (fun t ht => hf (List.mem_cons_of_mem _ (List.mem_append_right _ ht)))
        (fun m hm => hroots m (List.mem_cons_of_mem _ hm)) n hn

namespace Relates

variable (h : χ.Relates d d')
include h

/-- forests whose roots are the same are the same -/
theorem forest : ∀ f g : Forest (Node L), f.subtrees ⊆ d.forest.subtrees → g.subtrees ⊆ d'.forest.subtrees →
    (∀ n ∈ f.labels, χ.mem n.id) → g.roots.map (·.id) = (f.roots.map (·.id)).map χ.rename →
      g = f.map (Node.rename χ.rename) := by
  intro f
  induction f with
  | nil =>
    rintro (_ | ⟨b, bs, rest⟩) - - - hroots
    · rfl
    · cases hroots
  | cons a as rest iha ihr =>
    rintro (_ | ⟨b, bs, rest'⟩) hf hg hmem hroots
    · cases hroots
    obtain ⟨hid, hrest⟩ := List.cons.inj hroots
    have hid : b.id = χ.rename a.id := hid
    have ha := hf List.mem_cons_self
    have hb := hg List.mem_cons_self
    have hmem' : χ.mem a.id := hmem a List.mem_cons_self
    have hnode := h.node a.id hmem'
    rw [← hid, node?, find?_of_subtree h.intact'.valid hb, node?, find?_of_subtree h.intact.valid ha] at hnode
    obtain rfl : b = a.rename χ.rename := Option.some.inj hnode
    have hchildren := h.children a.id hmem'
    rw [← hid, children_of_subtree h.intact'.valid hb, children_of_subtree h.intact.valid ha] at hchildren
    rw [map, iha bs (fun t ht => hf (List.mem_cons_of_mem _ (List.mem_append_left _ ht)))
        (fun t ht => hg (List.mem_cons_of_mem _ (List.mem_append_left _ ht)))
        (fun n hn => hmem n (List.mem_cons_of_mem _ (List.mem_append_left _ hn))) hchildren,
      ihr rest' (fun t ht => hf (List.mem_cons_of_mem _ (List.mem_append_right _ ht)))
        (fun t ht => hg (List.mem_cons_of_mem _ (List.mem_append_right _ ht)))
        (fun n hn => hmem n (List.mem_cons_of_mem _ (List.mem_append_right _ hn))) hrest]

/-- what is below a node of the chart is in the chart -/
theorem mem_below (hx : χ.mem x) {n : Node L} {cs : Forest (Node L)} (hf : d.find? x = some (n, cs)) :
    ∀ m ∈ (tree n cs).labels, χ.mem m.id := by
  obtain ⟨rfl, hs, -⟩ := find?_subtree h.intact.valid hf
  refine forall_below h.intact.valid h.closed (tree n cs) (fun t ht => ?_) (fun m hm => ?_)
  · rcases List.mem_cons.1 ht with rfl | ht
    · exact hs
    · rw [show (nil : Forest (Node L)).subtrees = [] from rfl, List.append_nil] at ht
      exact subtrees_trans hs ht
  · rw [List.mem_singleton.1 hm]
    exact hx

/-- what is below a node of the owner is the owner's -/
theorem own_below (hx : χ.own x) {n : Node L} {cs : Forest (Node L)} (hf : d.find? x = some (n, cs)) :
    ∀ m ∈ (tree n cs).labels, χ.own m.id := by
  obtain ⟨rfl, hs, -⟩ := find?_subtree h.intact.valid hf
  refine forall_below h.intact.valid h.own_closed (tree n cs) (fun t ht => ?_) (fun m hm => ?_)
  · rcases List.mem_cons.1 ht with rfl | ht
    · exact hs
    · rw [show (nil : Forest (Node L)).subtrees = [] from rfl, List.append_nil] at ht
      exact subtrees_trans hs ht
  · rw [List.mem_singleton.1 hm]
    exact hx

/-- a node is found with what is below it -/
theorem find? (hx : χ.mem x) : d'.find? (χ.rename x) =
    (d.find? x).map fun t => (t.1.rename χ.rename, t.2.map (Node.rename χ.rename)) := by
  have hnode := h.node x hx
  cases hf : d.find? x with
  | none =>
    rw [Document.node?, Document.node?, hf] at hnode
    exact Option.map_eq_none_iff.1 hnode
  | some t =>
    obtain ⟨n, cs⟩ := t
    have hn : d.node? x = some n := by rw [Document.node?, hf]; rfl
    rw [hn] at hnode
    have hf' : d'.find? (χ.rename x) = some (n.rename χ.rename, d'.childForest (χ.rename x)) := by
      rw [find?_eq_node?, hnode]
      rfl
    obtain ⟨hid, hs, -⟩ := find?_subtree h.intact.valid hf
    obtain ⟨-, hs', -⟩ := find?_subtree h.intact'.valid hf'
    have hforest : d'.childForest (χ.rename x) = cs.map (Node.rename χ.rename) := by
      refine h.forest cs _ (fun t ht => subtrees_trans hs ht) (fun t ht => subtrees_trans hs' ht) (fun m hm => ?_) ?_
      · exact h.mem_below hx hf m (by rw [labels_tree]; exact List.mem_cons_of_mem _ hm)
      · have hchildren := h.children x hx
        rw [← hid, children_of_subtree h.intact.valid hs, hid] at hchildren
        exact hchildren
    rw [hf', hforest]
    rfl

/-- **What is below a node** of the chart is the same in both documents, up to names. -/
theorem childForest (hx : χ.mem x) :
    d'.childForest (χ.rename x) = (d.childForest x).map (Node.rename χ.rename) := by
  rw [Document.childForest, Document.childForest, h.find? hx]
  cases d.find? x with
  | none => rfl
  | some t => rfl

theorem treeOf (hx : χ.mem x) : d'.treeOf (χ.rename x) = (d.treeOf x).map (Node.rename χ.rename) := by
  rw [Document.treeOf, Document.treeOf, h.find? hx]
  cases d.find? x with
  | none => rfl
  | some t => rfl

theorem innerHtml (hx : χ.mem x) : d'.innerHtml (χ.rename x) = d.innerHtml x := by
  have htag : d'.tag? (χ.rename x) = d.tag? x := by
    rw [Document.tag?, Document.tag?, kind?, kind?, h.find? hx]
    cases d.find? x with
    | none => rfl
    | some t => rfl
  rw [Document.innerHtml, Document.innerHtml, htag, h.childForest hx, toMarkup_rename]

theorem listenerCountBelow (hx : χ.mem x) : d'.listenerCountBelow (χ.rename x) = d.listenerCountBelow x := by
  have hcount : d'.listenerCount (χ.rename x) = d.listenerCount x := by
    rw [Document.listenerCount, Document.listenerCount, h.find? hx]
    cases d.find? x with
    | none => rfl
    | some t => rfl
  rw [Document.listenerCountBelow, Document.listenerCountBelow, hcount, h.childForest hx, labels_map,
    List.flatMap_map]
  rfl

theorem isFragment (hx : χ.mem x) : d'.isFragment (χ.rename x) = d.isFragment x := by
  rw [isFragment_eq_node?, isFragment_eq_node?, h.node x hx, Option.any_map]
  rfl

theorem contains (hx : χ.mem x) (c : NodeId) :
    d'.contains (χ.rename x) (χ.rename c) = d.contains x c := by
  rw [Document.contains, Document.contains, h.childForest hx, labels_map, List.any_map]
  congr 1
  · rw [Bool.eq_iff_iff, beq_iff_eq, beq_iff_eq]
    exact h.injective.eq_iff
  · exact List.any_congr rfl fun n => isNode_rename h.injective c n

theorem firstBelow? (hx : χ.mem x) {test : Node L → Bool} (ht : ∀ n, test (n.rename χ.rename) = test n) :
    d'.firstBelow? (χ.rename x) test = (d.firstBelow? x test).map χ.rename := by
  rw [Document.firstBelow?, Document.firstBelow?, h.childForest hx, labels_map, List.find?_map, Option.map_map,
    Option.map_map]
  exact congrArg (fun o : Option (Node L) => o.map fun n => χ.rename n.id)
    (congrArg (fun q => List.find? q (d.childForest x).labels) (funext ht))

/-- what is found below a node of the owner is the owner's -/
theorem own_of_firstBelow? (hx : χ.own x) {test : Node L → Bool} (hf : d.firstBelow? x test = some c) : χ.own c := by
  obtain ⟨n, hn, rfl⟩ := Option.map_eq_some_iff.1 hf
  have hmem := List.mem_of_find?_eq_some hn
  rw [Document.childForest] at hmem
  cases hfind : d.find? x with
  | none =>
    rw [hfind] at hmem
    cases hmem
  | some t =>
    rw [hfind] at hmem
    exact h.own_below hx hfind n (by rw [labels_tree]; exact List.mem_cons_of_mem _ hmem)

/-! ## Changes of nodes -/

omit h in
theorem apply_rename (ρ : NodeId → NodeId) (w : Writing L) (n : Node L) :
    w.apply (n.rename ρ) = (w.apply n).rename ρ := by
  cases w <;> rfl

/-- what is written into a node of the owner, on both sides -/
theorem perform (hx : χ.own x) (w : Writing L) :
    Advance χ χ d d' (w.perform x d) (w.perform (χ.rename x) d') := by
  obtain ⟨hi, hr⟩ := rewrites_perform h.intact w x
  obtain ⟨hi', hr'⟩ := rewrites_perform h.intact' w (χ.rename x)
  have hfresh : (w.perform x d).fresh = d.fresh := by rw [w.perform_eq]; rfl
  have hfresh' : (w.perform (χ.rename x) d').fresh = d'.fresh := by rw [w.perform_eq]; rfl
  refine h.onward hi hi' hfresh hfresh' (fun y c hc => .inl (hr.children y ▸ hc)) (fun y hy => ?_)
    (fun y hy => by rw [hr'.children, hr.children]; exact h.children y hy)
    (fun y hy ht => by rw [hr'.parent, hr.parent]; exact h.parent y hy ht) (fun y hy => ?_) (fun y _ => hr.parent y)
    fun y _ _ => hr.children y
  · rw [hr'.node, hr.node, h.node y hy, Option.map_map, Option.map_map]
    refine congrArg (fun f => Option.map f (d.node? y)) (funext fun n => ?_)
    simp only [Function.comp_apply, h.injective.eq_iff]
    split
    · exact apply_rename χ.rename w n
    · rfl
  · have hne : y ≠ x := fun e => hy (e ▸ hx)
    simp only [hr.node, if_neg hne, Option.map_id']

/-! ## Moves -/

omit h in
theorem filter_map_ne {ρ : NodeId → NodeId} (hρ : Function.Injective ρ) (c : NodeId) (row : List NodeId) :
    (row.map ρ).filter (· ≠ ρ c) = (row.filter (· ≠ c)).map ρ := by
  rw [List.filter_map]
  refine congrArg (List.map ρ) (List.filter_congr fun y _ => ?_)
  simp only [Function.comp_apply, ne_eq, hρ.eq_iff]

omit h in
theorem seat_map {ρ : NodeId → NodeId} (hρ : Function.Injective ρ) (anchor : Option NodeId) (c : NodeId)
    (row : List NodeId) : seat (anchor.map ρ) (ρ c) (row.map ρ) = (seat anchor c row).map ρ := by
  induction row with
  | nil => rw [List.map_nil, seat_nil, seat_nil]; rfl
  | cons y row ih =>
    have hiff : anchor.map ρ = some (ρ y) ↔ anchor = some y := by
      rw [← Option.map_some, (Option.map_injective hρ).eq_iff]
    rw [List.map_cons, seat_cons, seat_cons, ih]
    by_cases hy : anchor = some y
    · rw [if_pos (hiff.2 hy), if_pos hy]
      rfl
    · rw [if_neg fun e => hy (hiff.1 e), if_neg hy]
      rfl

omit h in
/-- a node of the owner is nobody's child but the owner's and the target's -/
theorem not_mem_children (h : χ.Relates d d') (hc : χ.own c) (hx : ¬ χ.own x) (ht : x ≠ χ.target) :
    c ∉ d.children x := fun hin =>
  (h.own_up c hc x ((mem_children_iff h.intact.valid).1 hin)).elim hx ht

/-- a node of the owner becomes a root, on both sides -/
theorem detach (hc : χ.own c) : Advance χ χ d d' (d.detach c) (d'.detach (χ.rename c)) := by
  have hv := h.intact.valid
  have hv' := h.intact'.valid
  have hchildren : ∀ y, (d.detach c).children y = (d.children y).filter (· ≠ c) := fun y => by
    rw [children_detach hv]
    exact List.filter_congr fun z _ => by simp
  have hchildren' : ∀ y, (d'.detach (χ.rename c)).children y = (d'.children y).filter (· ≠ χ.rename c) := fun y => by
    rw [children_detach hv']
    exact List.filter_congr fun z _ => by simp
  have hfresh : ∀ (e : Document L) z, (e.detach z).fresh = e.fresh := fun e z => by
    rw [Document.detach]
    split <;> rfl
  refine h.onward (h.intact.detach c) (h.intact'.detach _) (hfresh d c) (hfresh d' _)
    (fun y z hz => .inl (List.mem_of_mem_filter (hchildren y ▸ hz)))
    (fun y hy => by rw [node?_detach hv, node?_detach hv']; exact h.node y hy) (fun y hy => ?_) (fun y hy ht => ?_)
    (fun y _ => node?_detach hv c y) (fun y hy => parent?_detach hv fun e => hy (e ▸ hc)) (fun y hy ht => ?_)
  · rw [hchildren, hchildren', h.children y hy]
    exact filter_map_ne h.injective c _
  · by_cases hyc : y = c
    · rw [hyc, parent?_detach_self hv, parent?_detach_self hv']
      rfl
    · rw [parent?_detach hv hyc, parent?_detach hv' (fun e => hyc (h.injective e))]
      exact h.parent y hy ht
  · rw [hchildren, filter_ne_of_not_mem (not_mem_children h hc hy ht)]

/-- a node of the owner goes below another, or below the target, on both sides -/
theorem place (hp : χ.own p ∨ p = χ.target) (hc : χ.own c) {row row' : List NodeId} (hm : Movable d p (c :: row))
    (hm' : Movable d' (χ.rename p) (χ.rename c :: row')) (anchor : Option NodeId) :
    Advance χ χ d d' (d.place p c anchor) (d'.place (χ.rename p) (χ.rename c) (anchor.map χ.rename)) := by
  have hv := h.intact.valid
  have hv' := h.intact'.valid
  obtain ⟨hcd, hpd⟩ := hm.mem c List.mem_cons_self
  obtain ⟨hcd', hpd'⟩ := hm'.mem _ List.mem_cons_self
  have hnot := hm.apart c List.mem_cons_self
  have hnot' := hm'.apart _ List.mem_cons_self
  have hpm : χ.mem p := hp.elim (h.own_mem p) fun e => e ▸ h.target_mem
  have hnode : ∀ y, (d.place p c anchor).node? y = d.node? y :=
    node?_of_perm hv (labels_place hv hpd hcd hnot anchor)
  have hnode' : ∀ y, (d'.place (χ.rename p) (χ.rename c) (anchor.map χ.rename)).node? y = d'.node? y :=
    node?_of_perm hv' (labels_place hv' hpd' hcd' hnot' _)
  have hfresh : ∀ (e : Document L) a b z, (e.place a b z).fresh = e.fresh := fun e a b z => by
    rw [Document.place]
    split <;> rfl
  have hself := parent?_place_self hv hpd hcd hnot anchor
  have hother : ∀ {y}, y ≠ c → (d.place p c anchor).parent? y = d.parent? y := parent?_place hv hpd hcd hnot anchor
  refine h.onward (hm.place_intact anchor) (hm'.place_intact _) (hfresh d p c anchor) (hfresh d' _ _ _)
    (fun y z hz => ?_) (fun y hy => by rw [hnode, hnode']; exact h.node y hy) (fun y hy => ?_) (fun y hy ht => ?_)
    (fun y _ => hnode y) (fun y hy => hother fun e => hy (e ▸ hc)) (fun y hy ht => ?_)
  · rw [children_place hv hpd hcd hnot anchor] at hz
    split at hz
    · next e =>
      rw [mem_seat] at hz
      exact hz.elim (fun ez => .inr ⟨ez ▸ hc, e ▸ hp⟩) fun hz => .inl (e ▸ List.mem_of_mem_filter hz)
    · exact .inl (List.mem_of_mem_filter hz)
  · rw [children_place hv hpd hcd hnot, children_place hv' hpd' hcd' hnot', h.children y hy, h.children p hpm,
      filter_map_ne h.injective, filter_map_ne h.injective, seat_map h.injective]
    by_cases hyp : y = p
    · rw [if_pos hyp, if_pos (congrArg χ.rename hyp)]
    · rw [if_neg hyp, if_neg fun e => hyp (h.injective e)]
  · by_cases hyc : y = c
    · rw [hyc, hself, parent?_place_self hv' hpd' hcd' hnot']
      rfl
    · rw [hother hyc, parent?_place hv' hpd' hcd' hnot' _ fun e => hyc (h.injective e)]
      exact h.parent y hy ht
  · have hyp : y ≠ p := fun e => hp.elim (fun ho => hy (e ▸ ho)) fun et => ht (e.trans et)
    rw [children_place hv hpd hcd hnot, if_neg hyp, filter_ne_of_not_mem (not_mem_children h hc hy ht)]

/-- nodes of the owner go below another one after another, on both sides -/
theorem placeAll (hp : χ.own p ∨ p = χ.target) {row : List NodeId} (hrow : ∀ c ∈ row, χ.own c) (hm : Movable d p row)
    (hm' : Movable d' (χ.rename p) (row.map χ.rename)) (anchor : Option NodeId) :
    Advance χ χ d d' (row.foldl (fun d c => d.place p c anchor) d)
      ((row.map χ.rename).foldl (fun d c => d.place (χ.rename p) c (anchor.map χ.rename)) d') := by
  induction row generalizing d d' with
  | nil => exact .refl h
  | cons c row ih =>
    have hfirst := h.place hp (hrow c List.mem_cons_self) hm hm' anchor
    exact hfirst.trans (ih hfirst.relates (fun x hx => hrow x (List.mem_cons_of_mem _ hx)) (hm.place anchor)
      (hm'.place _))

theorem pieces (hp : χ.mem p) (hc : χ.mem c) :
    d'.pieces (χ.rename p) (χ.rename c) = (d.pieces p c).map χ.rename := by
  rw [Document.pieces, Document.pieces, h.contains hc, h.node p hp, h.node c hc, h.isFragment hc, h.children c hc,
    Option.isNone_map, Option.isNone_map]
  split
  · rfl
  · split <;> rfl

theorem own_pieces (hc : χ.own c) : ∀ x ∈ d.pieces p c, χ.own x := by
  intro x hx
  rw [Document.pieces] at hx
  split at hx
  · cases hx
  · split at hx
    · exact h.own_closed c hc x hx
    · exact List.mem_singleton.1 hx ▸ hc

/-- a node of the owner, or what it holds, goes below another or below the target, on both sides -/
theorem insertBefore (hp : χ.own p ∨ p = χ.target) (hc : χ.own c) (anchor : Option NodeId) :
    Advance χ χ d d' (d.insertBefore p c anchor)
      (d'.insertBefore (χ.rename p) (χ.rename c) (anchor.map χ.rename)) := by
  have hpm : χ.mem p := hp.elim (h.own_mem p) fun e => e ▸ h.target_mem
  have hpieces := h.pieces hpm (h.own_mem c hc)
  rw [insertBefore_eq, insertBefore_eq, hpieces]
  exact h.placeAll hp (h.own_pieces hc) (h.intact.movable p c) (hpieces ▸ h.intact'.movable _ _) anchor

/-- a node of the owner takes the place of another, on both sides -/
theorem replaceWith {old new : NodeId} (hold : χ.own old) (hnew : χ.own new) :
    Advance χ χ d d' (d.replaceWith old new) (d'.replaceWith (χ.rename old) (χ.rename new)) := by
  have hne : old ≠ χ.target := fun e => h.target_own (e ▸ hold)
  rw [Document.replaceWith, Document.replaceWith, h.parent old (h.own_mem old hold) hne]
  cases hp : d.parent? old with
  | none => exact .refl h
  | some p =>
    have hinsert := h.insertBefore (h.own_up old hold p hp) hnew (some old)
    exact hinsert.trans (hinsert.relates.detach hold)

/-! ## Nodes that go -/

/-- a node of the owner is taken out with what is not held below it, on both sides -/
theorem discard (hc : χ.own c) {held held' : NodeId → Bool} (hheld : ∀ x, χ.own x → held' (χ.rename x) = held x) :
    Advance χ χ d d' (d.discard held c) (d'.discard held' (χ.rename c)) := by
  have hv := h.intact.valid
  have hv' := h.intact'.valid
  have hfound := h.find? (h.own_mem c hc)
  cases hfind : d.find? c with
  | none =>
    rw [hfind] at hfound
    rw [discard_of_unknown hv hfind, discard_of_unknown hv' hfound]
    exact .refl h
  | some t =>
    obtain ⟨n, cs⟩ := t
    rw [hfind] at hfound
    have hfirst := h.detach hc
    have hr := hfirst.relates
    have hbelow : ∀ x ∈ (tree n cs).ids, χ.own x := fun x hx => by
      obtain ⟨m, hm, rfl⟩ := List.mem_map.1 hx
      exact h.own_below hc hfind m hm
    have hids : (tree (n.rename χ.rename) (cs.map (Node.rename χ.rename))).ids = (tree n cs).ids.map χ.rename :=
      ids_rename χ.rename (tree n cs)
    -- what is left of the tree is the same on both sides
    have hleft : ((tree (n.rename χ.rename) (cs.map (Node.rename χ.rename))).retain fun m => held' m.id) =
        ((tree n cs).retain fun m => held m.id).map (Node.rename χ.rename) := by
      refine (map_retain (h := Node.rename χ.rename) (p := fun m => held' (χ.rename m.id)) (fun _ => rfl)
        (tree n cs)).symm.trans ?_
      rw [retain_congr (tree n cs) fun m hm => hheld m.id (hbelow m.id (mem_ids_of_mem hm))]
    have hrest : ∀ x, x ∉ (tree n cs).ids → χ.rename x ∉ (tree (n.rename χ.rename) (cs.map (Node.rename χ.rename))).ids := by
      intro x hx hin
      rw [hids] at hin
      exact hx ((List.mem_map_of_injective h.injective).1 hin)
    have hfinds : ∀ x, χ.mem x → (d'.discard held' (χ.rename c)).find? (χ.rename x) =
        ((d.discard held c).find? x).map fun t => (t.1.rename χ.rename, t.2.map (Node.rename χ.rename)) := by
      intro x hx
      by_cases hin : x ∈ (tree n cs).ids
      · rw [(discard_tree hv hfind held hin).1,
          (discard_tree hv' hfound held' (hids ▸ List.mem_map_of_mem hin)).1]
        exact find?_renamed h.injective hleft x
      · rw [(discard_rest hv hfind held hin).1, (discard_rest hv' hfound held' (hrest x hin)).1]
        exact hr.find? hx
    have hparents : ∀ x, χ.mem x → x ≠ χ.target → (d'.discard held' (χ.rename c)).parent? (χ.rename x) =
        ((d.discard held c).parent? x).map χ.rename := by
      intro x hx ht
      by_cases hin : x ∈ (tree n cs).ids
      · rw [(discard_tree hv hfind held hin).2,
          (discard_tree hv' hfound held' (hids ▸ List.mem_map_of_mem hin)).2]
        exact parent?_renamed h.injective hleft x
      · rw [(discard_rest hv hfind held hin).2, (discard_rest hv' hfound held' (hrest x hin)).2]
        exact hr.parent x hx ht
    -- nobody has a child that was not there before
    have hchild : ∀ x, ∀ z ∈ (d.discard held c).children x, z ∈ (d.detach c).children x := by
      intro x z hz
      rcases discard_cases hv hfind held x with hnone | hsame
      · rw [Document.children, Document.childForest, hnone] at hz
        cases hz
      · rwa [children_congr hsame] at hz
    refine hfirst.trans (hr.onward (h.intact.discard held c) (h.intact'.discard held' _) rfl rfl
      (fun y z hz => .inl (hchild y z hz)) (fun y hy => ?_) (fun y hy => ?_) hparents (fun y hy => ?_) (fun y hy => ?_)
      fun y hy _ => ?_)
    · rw [Document.node?, Document.node?, hfinds y hy, Option.map_map, Option.map_map]
      rfl
    · rw [Document.children, Document.children, Document.childForest, Document.childForest, hfinds y hy]
      cases (d.discard held c).find? y with
      | none => rfl
      | some t => exact roots_rename χ.rename t.2
    · exact node?_congr (discard_rest hv hfind held fun hin => hy (hbelow y hin)).1
    · exact (discard_rest hv hfind held fun hin => hy (hbelow y hin)).2
    · exact children_congr (discard_rest hv hfind held fun hin => hy (hbelow y hin)).1

/-! ## Nodes that come -/

omit h in
theorem node?_id (hv : d.Valid) {n : Node L} (hn : d.node? x = some n) : n.id = x := by
  obtain ⟨t, ht, rfl⟩ := Option.map_eq_some_iff.1 hn
  exact (find?_subtree hv ht).1

omit h in
/-- a document with more trees, whose ids are new -/
theorem valid_grown {g : Forest (Node L)} {k : Nat} (hv : d.Valid) (hids : g.ids = List.range' d.fresh k) :
    (Document.mk (d.forest ++ g) (d.fresh + k)).Valid ∧ ∀ x, d.fresh ≤ x → x ∉ d.forest.ids := by
  have hout : ∀ x, d.fresh ≤ x → x ∉ d.forest.ids := fun x hx hin => Nat.not_lt.2 hx (hv.below hin)
  refine ⟨valid_of_forest ?_ fun x hx => ?_, hout⟩
  · show (d.forest ++ g).ids.Nodup
    rw [ids_append, hids]
    refine List.nodup_append.2 ⟨hv.nodup, List.nodup_range', fun a ha b hb hab => ?_⟩
    exact hout b (List.mem_range'_1.1 hb).1 (hab ▸ ha)
  · have hx : x ∈ (d.forest ++ g).ids := hx
    rw [ids_append, hids, List.mem_append, List.mem_range'_1] at hx
    rcases hx with hx | hx
    · exact Nat.lt_of_lt_of_le (hv.below hx) (Nat.le_add_right _ _)
    · exact hx.2

omit h in
/-- what is new does not hide what is old, nor the other way round -/
theorem looks_grown {g : Forest (Node L)} {k : Nat} (hv : d.Valid) (hids : g.ids = List.range' d.fresh k) (x : NodeId) :
    (x < d.fresh → (Document.mk (d.forest ++ g) (d.fresh + k)).find? x = d.find? x ∧
      (Document.mk (d.forest ++ g) (d.fresh + k)).parent? x = d.parent? x) ∧
    (d.fresh ≤ x → (Document.mk (d.forest ++ g) (d.fresh + k)).find? x = (Document.mk g (d.fresh + k)).find? x ∧
      (Document.mk (d.forest ++ g) (d.fresh + k)).parent? x = (Document.mk g (d.fresh + k)).parent? x) := by
  obtain ⟨hv', hout⟩ := valid_grown hv hids
  constructor
  · intro hx
    have hnot : x ∉ g.ids := by
      rw [hids, List.mem_range'_1]
      exact fun hin => Nat.not_lt.2 hin.1 hx
    have hs : (Document.mk (d.forest ++ g) (d.fresh + k)).forest.Same (g ++ d.forest) := Same.comm _ _
    rw [find?_within hv' hs hnot, parent?_within hv' hs hnot]
    exact ⟨rfl, rfl⟩
  · intro hx
    have hs : (Document.mk (d.forest ++ g) (d.fresh + k)).forest.Same (d.forest ++ g) := Same.refl _
    rw [find?_within hv' hs (hout x hx), parent?_within hv' hs (hout x hx)]
    exact ⟨rfl, rfl⟩

omit h in
theorem intact_grown {g : Forest (Node L)} {k : Nat} (hd : d.Intact) (hids : g.ids = List.range' d.fresh k)
    (hplain : ∀ t ∈ g.subtrees, ∀ m ∈ t.2.roots, m.kind.isFragment = false) :
    (Document.mk (d.forest ++ g) (d.fresh + k)).Intact := by
  obtain ⟨hv, hout⟩ := valid_grown hd.valid hids
  refine ⟨hv, fun p c hc => ?_⟩
  obtain ⟨hcp, hcn⟩ := mem_ids_of_parent? hv ((mem_children_iff hv).1 hc)
  by_cases hp : p < d.fresh
  · rw [children_congr ((looks_grown hd.valid hids p).1 hp).1] at hc
    have hcold : c < d.fresh := hd.valid.below (mem_ids_of_parent? hd.valid ((mem_children_iff hd.valid).1 hc)).2
    rw [isFragment_congr (node?_congr ((looks_grown hd.valid hids c).1 hcold).1)]
    exact hd.top p c hc
  · obtain ⟨n, hn, rfl⟩ := List.mem_map.1 (show p ∈ (d.forest ++ g).ids from hcp)
    rw [labels_append] at hn
    have hng : n ∈ g.labels := (List.mem_append.1 hn).resolve_left fun ho => hp (hd.valid.below (mem_ids_of_mem ho))
    obtain ⟨cs, hcs⟩ := exists_subtree hng
    have hsub : (n, cs) ∈ (d.forest ++ g).subtrees := by
      rw [subtrees_append]
      exact List.mem_append_right _ hcs
    rw [children_of_subtree (d := Document.mk (d.forest ++ g) (d.fresh + k)) hv hsub] at hc
    obtain ⟨m, hm, rfl⟩ := List.mem_map.1 hc
    obtain ⟨ms, hms⟩ := exists_tree hm
    have hmsub := subtrees_trans hsub (trees_subset_subtrees _ hms)
    rw [isFragment_eq_node?, node?, find?_of_subtree (d := Document.mk (d.forest ++ g) (d.fresh + k)) hv hmsub]
    exact hplain _ hcs m hm

omit h in
/-- names for what comes: a range of numbers that are not in use goes by a range that is not in use -/
theorem exists_rename {P : Nat → Prop} {ρ : Nat → Nat} {a b : Nat} (hρ : Function.Injective ρ)
    (hP : ∀ x, P x → x < a ∧ ρ x < b) (k : Nat) :
    ∃ σ, Function.Injective σ ∧ (∀ x, P x → σ x = ρ x) ∧ ∀ i < k, σ (a + i) = b + i := by
  induction k with
  | zero => exact ⟨ρ, hρ, fun _ _ => rfl, fun i hi => absurd hi (Nat.not_lt_zero i)⟩
  | succ k ih =>
    obtain ⟨σ, hσ, hold, hnew⟩ := ih
    refine ⟨fun x => Equiv.swap (σ (a + k)) (b + k) (σ x), (Equiv.injective _).comp hσ, fun x hx => ?_, fun i hi => ?_⟩
    · have hlt := hP x hx
      have hne : σ x ≠ σ (a + k) := fun e => Nat.not_lt.2 (Nat.le_add_right a k) (hσ e ▸ hlt.1)
      have hne' : σ x ≠ b + k := fun e => Nat.not_lt.2 (Nat.le_add_right b k) (e ▸ (hold x hx).symm ▸ hlt.2)
      dsimp only
      rw [Equiv.swap_apply_of_ne_of_ne hne hne', hold x hx]
    · dsimp only
      rcases Nat.lt_succ_iff_lt_or_eq.1 hi with hlt | rfl
      · have hne : σ (a + i) ≠ σ (a + k) := fun e => Nat.ne_of_lt hlt (Nat.add_left_cancel (hσ e))
        have hne' : σ (a + i) ≠ b + k := fun e => Nat.ne_of_lt hlt (Nat.add_left_cancel ((hnew i hlt).symm.trans e))
        rw [Equiv.swap_apply_of_ne_of_ne hne hne', hnew i hlt]
      · exact Equiv.swap_apply_left _ _

omit h in
mutual
/-- a copy at another place is the same under other names -/
theorem plantNode_rename : (n : Markup.Node) → (a b : NodeId) → ∃ k : Nat, (plant.plantNode (L := L) n a).2 = a + k ∧
    (plant.plantNode (L := L) n b).2 = b + k ∧ ∀ ρ : NodeId → NodeId, (∀ i < k, ρ (a + i) = b + i) →
      (plant.plantNode n b).1 = (plant.plantNode n a).1.map (Node.rename (L := L) ρ)
  | .element tag attributes children, a, b => by
    obtain ⟨k, ha, hb, hsame⟩ := plant_rename children (a + 1) (b + 1)
    rw [plant.plantNode, plant.plantNode]
    refine ⟨1 + k, ha.trans (Nat.add_assoc a 1 k), hb.trans (Nat.add_assoc b 1 k), fun ρ hρ => ?_⟩
    have hfirst : ρ a = b := hρ 0 (by omega)
    dsimp only
    rw [hsame ρ fun i hi => by
      have := hρ (1 + i) (by omega)
      rwa [← Nat.add_assoc, ← Nat.add_assoc] at this]
    rw [tree, tree, map, Node.rename, hfirst]
    rfl
  | .text _, a, b => ⟨1, rfl, rfl, fun ρ hρ => by
    have hfirst : ρ a = b := hρ 0 Nat.one_pos
    rw [plant.plantNode, plant.plantNode, tree, tree, map, Node.rename, hfirst]
    rfl⟩
  | .comment _, a, b => ⟨1, rfl, rfl, fun ρ hρ => by
    have hfirst : ρ a = b := hρ 0 Nat.one_pos
    rw [plant.plantNode, plant.plantNode, tree, tree, map, Node.rename, hfirst]
    rfl⟩
theorem plant_rename : (ns : List Markup.Node) → (a b : NodeId) → ∃ k : Nat, (plant (L := L) ns a).2 = a + k ∧
    (plant (L := L) ns b).2 = b + k ∧ ∀ ρ : NodeId → NodeId, (∀ i < k, ρ (a + i) = b + i) →
      (plant ns b).1 = (plant ns a).1.map (Node.rename (L := L) ρ)
  | [], a, b => ⟨0, rfl, rfl, fun _ _ => rfl⟩
  | n :: ns, a, b => by
    obtain ⟨k, ha, hb, hsame⟩ := plantNode_rename n a b
    obtain ⟨m, ha', hb', hsame'⟩ := plant_rename ns (a + k) (b + k)
    rw [plant, plant, ha, hb]
    refine ⟨k + m, ha'.trans (Nat.add_assoc a k m), hb'.trans (Nat.add_assoc b k m), fun ρ hρ => ?_⟩
    dsimp only
    rw [hsame ρ fun i hi => hρ i (by omega), hsame' ρ fun i hi => by
      have := hρ (k + i) (by omega)
      rwa [← Nat.add_assoc, ← Nat.add_assoc] at this]
    exact (map_append _ _ _).symm
end

omit h in
mutual
/-- a copy holds no fragment -/
theorem plantNode_plain : (n : Markup.Node) → (a : NodeId) → ∀ m ∈ (plant.plantNode (L := L) n a).1.labels,
    m.kind.isFragment = false
  | .element _ _ children, a, m, hm => by
    rw [plant.plantNode] at hm
    rcases List.mem_cons.1 hm with rfl | hm
    · rfl
    · exact plant_plain children (a + 1) m (by rwa [show (nil : Forest (Node L)).labels = [] from rfl, List.append_nil] at hm)
  | .text _, a, m, hm => by
    obtain rfl := List.mem_singleton.1 hm
    rfl
  | .comment _, a, m, hm => by
    obtain rfl := List.mem_singleton.1 hm
    rfl
theorem plant_plain : (ns : List Markup.Node) → (a : NodeId) → ∀ m ∈ (plant (L := L) ns a).1.labels,
    m.kind.isFragment = false
  | [], _, m, hm => absurd hm List.not_mem_nil
  | n :: ns, a, m, hm => by
    rw [plant, labels_append] at hm
    exact (List.mem_append.1 hm).elim (plantNode_plain n a m) (plant_plain ns _ m)
end

/-- new trees of the owner, on both sides -/
theorem grow {g : Forest (Node L)} {k : Nat} {ρ : NodeId → NodeId} (hρ : Function.Injective ρ)
    (hold : ∀ x, χ.mem x → ρ x = χ.rename x) (hids : g.ids = List.range' d.fresh k)
    (hnew : ∀ i < k, ρ (d.fresh + i) = d'.fresh + i)
    (hplain : ∀ t ∈ g.subtrees, ∀ m ∈ t.2.roots, m.kind.isFragment = false) :
    Advance χ (χ.add g.ids ρ) d d' ⟨d.forest ++ g, d.fresh + k⟩
      ⟨d'.forest ++ g.map (Node.rename ρ), d'.fresh + k⟩ := by
  have hv := h.intact.valid
  have hv' := h.intact'.valid
  have hids' : (g.map (Node.rename ρ)).ids = List.range' d'.fresh k := by
    rw [ids_rename, hids]
    refine List.ext_getElem (by simp) fun i h1 h2 => ?_
    have hi : i < k := by simpa using h2
    simp [hnew i hi]
  have hrename : ∀ x, χ.mem x → χ.rename x = ρ x := fun x hx => (hold x hx).symm
  have hlook := looks_grown hv hids
  have hlook' := looks_grown hv' hids'
  have hmemg : ∀ {x}, x ∈ g.ids → d.fresh ≤ x ∧ d'.fresh ≤ ρ x := by
    intro x hx
    have hr : ρ x ∈ (g.map (Node.rename ρ)).ids := by
      rw [ids_rename]
      exact List.mem_map_of_mem hx
    rw [hids'] at hr
    rw [hids] at hx
    exact ⟨(List.mem_range'_1.1 hx).1, (List.mem_range'_1.1 hr).1⟩
  -- what is below a new node is new, and so is what it is below
  have hvg : (Document.mk g (d.fresh + k)).Valid :=
    valid_within (d := Document.mk (d.forest ++ g) (d.fresh + k)) (valid_grown hv hids).1 (Same.refl _)
  have hbelow : ∀ {x z}, d.fresh ≤ x → z ∈ (Document.mk (d.forest ++ g) (d.fresh + k)).children x → z ∈ g.ids := by
    intro x z hx hz
    rw [children_congr ((hlook x).2 hx).1] at hz
    exact (mem_ids_of_parent? hvg ((mem_children_iff hvg).1 hz)).2
  have habove : ∀ {x p}, d.fresh ≤ x → (Document.mk (d.forest ++ g) (d.fresh + k)).parent? x = some p → p ∈ g.ids := by
    intro x p hx hp
    rw [((hlook x).2 hx).2] at hp
    exact (mem_ids_of_parent? hvg hp).1
  refine ⟨?_, ?_, ?_, ?_⟩
  · exact
      { intact := intact_grown h.intact hids hplain
        intact' := by
          refine intact_grown h.intact' hids' fun t ht m hm => ?_
          rw [subtrees_map] at ht
          obtain ⟨u, hu, rfl⟩ := List.mem_map.1 ht
          rw [roots_map] at hm
          obtain ⟨b, hb, rfl⟩ := List.mem_map.1 hm
          exact hplain u hu b hb
        injective := hρ
        below := fun x hx => by
          rcases hx with hx | hx
          · show x < d.fresh + k ∧ ρ x < d'.fresh + k
            rw [hold x hx]
            exact (h.below x hx).imp (Nat.lt_of_lt_of_le · (Nat.le_add_right _ _))
              (Nat.lt_of_lt_of_le · (Nat.le_add_right _ _))
          · have hr : ρ x ∈ (g.map (Node.rename ρ)).ids := by
              rw [ids_rename]
              exact List.mem_map_of_mem hx
            rw [hids'] at hr
            rw [hids] at hx
            exact ⟨(List.mem_range'_1.1 hx).2, (List.mem_range'_1.1 hr).2⟩
        own_mem := fun x hx => hx.imp_left (h.own_mem x)
        target_mem := .inl h.target_mem
        target_own := fun ht => ht.elim h.target_own fun hin =>
          Nat.not_lt.2 (hmemg hin).1 (h.below _ h.target_mem).1
        closed := fun x hx z hz => by
          rcases hx with hx | hx
          · rw [children_congr ((hlook x).1 (h.below x hx).1).1] at hz
            exact .inl (h.closed x hx z hz)
          · exact .inr (hbelow (hmemg hx).1 hz)
        own_closed := fun x hx z hz => by
          rcases hx with hx | hx
          · rw [children_congr ((hlook x).1 (h.below x (h.own_mem x hx)).1).1] at hz
            exact .inl (h.own_closed x hx z hz)
          · exact .inr (hbelow (hmemg hx).1 hz)
        up := fun x hx ht p hp => by
          rcases hx with hx | hx
          · rw [((hlook x).1 (h.below x hx).1).2] at hp
            exact .inl (h.up x hx ht p hp)
          · exact .inr (habove (hmemg hx).1 hp)
        own_up := fun x hx p hp => by
          rcases hx with hx | hx
          · rw [((hlook x).1 (h.below x (h.own_mem x hx)).1).2] at hp
            exact (h.own_up x hx p hp).imp_left .inl
          · exact .inl (.inr (habove (hmemg hx).1 hp))
        node := fun x hx => by
          show (Document.mk (d'.forest ++ g.map (Node.rename ρ)) (d'.fresh + k)).node? (ρ x) =
            ((Document.mk (d.forest ++ g) (d.fresh + k)).node? x).map (Node.rename ρ)
          rcases hx with hx | hx
          · have hb := h.below x hx
            rw [hrename x hx] at hb
            rw [node?_congr ((hlook x).1 hb.1).1, node?_congr ((hlook' (ρ x)).1 hb.2).1, hold x hx, h.node x hx]
            refine Option.map_congr fun n hn => ?_
            rw [Node.rename, Node.rename, node?_id hv hn, hrename x hx]
          · rw [node?_congr ((hlook x).2 (hmemg hx).1).1, node?_congr ((hlook' (ρ x)).2 (hmemg hx).2).1]
            exact node?_renamed hρ rfl x
        children := fun x hx => by
          show (Document.mk (d'.forest ++ g.map (Node.rename ρ)) (d'.fresh + k)).children (ρ x) =
            ((Document.mk (d.forest ++ g) (d.fresh + k)).children x).map ρ
          rcases hx with hx | hx
          · have hb := h.below x hx
            rw [hrename x hx] at hb
            rw [children_congr ((hlook x).1 hb.1).1, children_congr ((hlook' (ρ x)).1 hb.2).1, hold x hx,
              h.children x hx]
            exact List.map_congr_left fun z hz => hrename z (h.closed x hx z hz)
          · rw [children_congr ((hlook x).2 (hmemg hx).1).1, children_congr ((hlook' (ρ x)).2 (hmemg hx).2).1]
            exact children_renamed hρ rfl x
        parent := fun x hx ht => by
          show (Document.mk (d'.forest ++ g.map (Node.rename ρ)) (d'.fresh + k)).parent? (ρ x) =
            ((Document.mk (d.forest ++ g) (d.fresh + k)).parent? x).map ρ
          rcases hx with hx | hx
          · have hb := h.below x hx
            rw [hrename x hx] at hb
            rw [((hlook x).1 hb.1).2, ((hlook' (ρ x)).1 hb.2).2, hold x hx, h.parent x hx ht]
            exact Option.map_congr fun p hp => hrename p (h.up x hx ht p hp)
          · rw [((hlook x).2 (hmemg hx).1).2, ((hlook' (ρ x)).2 (hmemg hx).2).2]
            exact parent?_renamed hρ rfl x }
  · exact ⟨rfl, fun x hx => .inl hx, fun x hx => .inl hx, fun x hx => hx.imp_right .inr,
      fun x hx => hx.imp_right fun hin => (hmemg hin).1, hold⟩
  · have hsame : ∀ x, ¬ (χ.add g.ids ρ).own x → (Document.mk (d.forest ++ g) (d.fresh + k)).find? x = d.find? x ∧
        (Document.mk (d.forest ++ g) (d.fresh + k)).parent? x = d.parent? x := by
      intro x hx
      by_cases hlt : x < d.fresh
      · exact (hlook x).1 hlt
      · -- an id that is not given out yet
        have hge := Nat.not_lt.1 hlt
        have hout : x ∉ (d.forest ++ g).ids := by
          rw [ids_append, List.mem_append]
          exact fun hin => hin.elim ((valid_grown hv hids).2 x hge) fun hg => hx (.inr hg)
        have hunknown : (Document.mk (d.forest ++ g) (d.fresh + k)).parent? x = none ∧ d.parent? x = none := by
          constructor
          · refine Option.eq_none_iff_forall_ne_some.2 fun p hp => ?_
            exact hout (mem_ids_of_parent? (valid_grown hv hids).1 hp).2
          · refine Option.eq_none_iff_forall_ne_some.2 fun p hp => ?_
            exact (valid_grown hv hids).2 x hge (mem_ids_of_parent? hv hp).2
        rw [find?_of_not_mem (valid_grown hv hids).1 hout, find?_of_not_mem hv ((valid_grown hv hids).2 x hge),
          hunknown.1, hunknown.2]
        exact ⟨rfl, rfl⟩
    exact ⟨Nat.le_add_right _ _, fun x hx => node?_congr (hsame x hx).1, fun x hx => (hsame x hx).2,
      fun x hx _ => children_congr (hsame x hx).1⟩
  · intro he hf
    refine ⟨congrArg (· + k) he, fun x hx => ?_⟩
    rcases hx with hx | hx
    · exact (hold x hx).trans (hf x hx)
    · rw [hids] at hx
      obtain ⟨i, hi, rfl⟩ := List.mem_range'.1 hx
      have hnew' := hnew i hi
      rw [he] at hnew'
      rw [Nat.one_mul]
      exact hnew'

/-- a new node of the owner, on both sides -/
theorem add (kind : Kind) : ∃ χ₁, Advance χ χ₁ d d' (d.add kind).1 (d'.add kind).1 ∧
    χ₁.own d.fresh ∧ χ₁.rename d.fresh = d'.fresh := by
  obtain ⟨ρ, hρ, hold, hnew⟩ := exists_rename h.injective h.below 1
  have hfirst : ρ d.fresh = d'.fresh := hnew 0 Nat.one_pos
  have hg : (tree (⟨d'.fresh, kind, [], 0⟩ : Node L) nil) = (tree ⟨d.fresh, kind, [], 0⟩ nil).map (Node.rename ρ) := by
    rw [← hfirst]
    rfl
  refine ⟨χ.add [d.fresh] ρ, ?_, Or.inr List.mem_cons_self, hfirst⟩
  have hgrow := h.grow (g := tree ⟨d.fresh, kind, [], 0⟩ nil) (k := 1) hρ hold rfl hnew fun t ht m hm => by
    obtain rfl : t = (_, nil) := List.mem_singleton.1 ht
    cases hm
  rwa [← hg] at hgrow

/-- a new fragment of the owner with a copy of the same markup, on both sides -/
theorem addFragment (nodes : List Markup.Node) : ∃ χ₁, Advance χ χ₁ d d' (d.addFragment nodes).1
    (d'.addFragment nodes).1 ∧ χ₁.own d.fresh ∧ χ₁.rename d.fresh = d'.fresh := by
  obtain ⟨k, hk, hk', hplant⟩ := plant_rename (L := L) nodes (d.fresh + 1) (d'.fresh + 1)
  obtain ⟨ρ, hρ, hold, hnew⟩ := exists_rename h.injective h.below (1 + k)
  have hfirst : ρ d.fresh = d'.fresh := hnew 0 (by omega)
  have hcopy := hplant ρ fun i hi => by
    have := hnew (1 + i) (Nat.add_lt_add_left hi 1)
    rwa [← Nat.add_assoc, ← Nat.add_assoc] at this
  have hids : (tree (⟨d.fresh, .fragment, [], 0⟩ : Node L) (plant nodes (d.fresh + 1)).1).ids =
      List.range' d.fresh (1 + k) := by
    rw [ids_tree, (plant_ids nodes (d.fresh + 1)).2, hk, Nat.add_sub_cancel_left, Nat.add_comm 1 k, List.range'_succ]
  have hgrow := h.grow hρ hold hids hnew fun t ht m hm => by
    rcases List.mem_cons.1 ht with rfl | ht
    · exact plant_plain nodes _ m (roots_subset_labels _ hm)
    · rw [show (nil : Forest (Node L)).subtrees = [] from rfl, List.append_nil] at ht
      exact plant_plain nodes _ m (labels_subset_of_subtree ht (roots_subset_labels _ hm))
  have hdoc : (d.addFragment nodes).1 = ⟨d.forest ++ tree ⟨d.fresh, .fragment, [], 0⟩ (plant nodes (d.fresh + 1)).1,
      d.fresh + (1 + k)⟩ := by
    rw [Document.addFragment, hk, Nat.add_assoc]
  have hdoc' : (d'.addFragment nodes).1 = ⟨d'.forest ++ (tree (⟨d.fresh, .fragment, [], 0⟩ : Node L)
      (plant nodes (d.fresh + 1)).1).map (Node.rename ρ), d'.fresh + (1 + k)⟩ := by
    rw [Document.addFragment, hk', Nat.add_assoc, hcopy, tree, tree, map, Node.rename, hfirst]
    rfl
  rw [← hdoc, ← hdoc'] at hgrow
  refine ⟨_, hgrow, ?_, hfirst⟩
  exact Or.inr (by rw [ids_tree]; exact List.mem_cons_self)

/-! ## What another owner does -/

/-- what another owner changes in the first document -/
theorem spared {ψ : Chart} (hs : ψ.Spares d d₁) (hi : d₁.Intact) (hap : χ.Apart ψ) : χ.Relates d₁ d' where
  intact := hi
  intact' := h.intact'
  injective := h.injective
  below x hx := (h.below x hx).imp_left (Nat.lt_of_lt_of_le · hs.fresh)
  own_mem := h.own_mem
  target_mem := h.target_mem
  target_own := h.target_own
  closed x hx := hs.children x (hap x hx).1 (hap x hx).2 ▸ h.closed x hx
  own_closed x hx := hs.children x (hap x (h.own_mem x hx)).1 (hap x (h.own_mem x hx)).2 ▸ h.own_closed x hx
  up x hx ht := hs.parent x (hap x hx).1 ▸ h.up x hx ht
  own_up x hx := hs.parent x (hap x (h.own_mem x hx)).1 ▸ h.own_up x hx
  node x hx := hs.node x (hap x hx).1 ▸ h.node x hx
  children x hx := hs.children x (hap x hx).1 (hap x hx).2 ▸ h.children x hx
  parent x hx ht := hs.parent x (hap x hx).1 ▸ h.parent x hx ht

/-- what another owner changes in the second document -/
theorem spared_there {ψ : Chart} (hs : ψ.Spares d' d₁') (hi : d₁'.Intact)
    (hap : ∀ x, χ.mem x → ¬ ψ.own (χ.rename x) ∧ χ.rename x ≠ ψ.target) : χ.Relates d d₁' where
  intact := h.intact
  intact' := hi
  injective := h.injective
  below x hx := (h.below x hx).imp_right (Nat.lt_of_lt_of_le · hs.fresh)
  own_mem := h.own_mem
  target_mem := h.target_mem
  target_own := h.target_own
  closed := h.closed
  own_closed := h.own_closed
  up := h.up
  own_up := h.own_up
  node x hx := (hs.node _ (hap x hx).1).trans (h.node x hx)
  children x hx := (hs.children _ (hap x hx).1 (hap x hx).2).trans (h.children x hx)
  parent x hx ht := (hs.parent _ (hap x hx).1).trans (h.parent x hx ht)

/-- what another owner does leaves everything below a node of the chart alone -/
theorem treeOf_spared {ψ : Chart} (hs : ψ.Spares d d₁) (hi : d₁.Intact) (hap : χ.Apart ψ) (hx : χ.mem x) :
    d₁.treeOf x = d.treeOf x := by
  have hid : ∀ f : Forest (Node L), f.map (Node.rename id) = f := map_self
  -- the document and itself, every node under its own name
  have hself : Relates { χ with rename := id } d d :=
    { h with
      intact' := h.intact
      injective := Function.injective_id
      below := fun y hy => ⟨(h.below y hy).1, (h.below y hy).1⟩
      node := fun y _ => show d.node? y = (d.node? y).map id from (congrFun Option.map_id (d.node? y)).symm
      children := fun y _ => (List.map_id (d.children y)).symm
      parent := fun y _ _ => show d.parent? y = (d.parent? y).map id from (congrFun Option.map_id (d.parent? y)).symm }
  have := (hself.spared hs hi hap).treeOf hx
  rw [hid] at this
  exact this.symm

end Relates

/-! ## Charts that are apart -/

/-- nodes that come are not another owner's -/
theorem Apart.grow {ψ : Chart} (hap : χ.Apart ψ) (h : χ.Relates d d') (he : χ.Extends χ₁ d.fresh)
    (hψ : ψ.Relates d d₂) : χ₁.Apart ψ := by
  intro x hx
  rcases he.new_mem x hx with hx | hx
  · exact hap x hx
  rcases he.new_own x hx with hx | hx
  · exact hap x (h.own_mem x hx)
  have hnew : ¬ ψ.mem x := fun hm => absurd (hψ.below x hm).1 (Nat.not_lt.2 hx)
  exact ⟨fun ho => hnew (hψ.own_mem x ho), fun e => hnew (e ▸ hψ.target_mem)⟩

/-- nodes that come to another owner are not in the chart -/
theorem Apart.grow_there {ψ ψ₁ : Chart} (hap : χ.Apart ψ) (h : χ.Relates d d') (he : ψ.Extends ψ₁ d.fresh) :
    χ.Apart ψ₁ := by
  intro x hx
  refine ⟨fun ho => ?_, he.target ▸ (hap x hx).2⟩
  rcases he.new_own x ho with ho | ho
  · exact (hap x hx).1 ho
  · exact absurd (h.below x hx).1 (Nat.not_lt.2 ho)

end Chart

end LiveMarkup
