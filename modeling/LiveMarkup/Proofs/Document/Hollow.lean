/-
Markers with nothing in them.

Where a block is to come, a copy of a skeleton has an element with the tag of a marker, and nothing is in it; nor is
anything in a text. Such nodes are shut. A node is hollow if this is so in all of its tree, and if no element there with the
tag of a marker carries the marker of an attribute.

`FillsNone` says of two documents that nothing was put into a shut node, that what was hollow still is, and that nodes are of
the same sort as before. It is so wherever hollow nodes are put into anything but shut ones, whatever is taken out or
written.

- `fillsNone_shifts`: nodes are moved;
- `fillsNone_discard`, `fillsNone_perform`, `fillsNone_add`, `fillsNone_addFragment`: the other changes of a document.
-/
import LiveMarkup.Proofs.Template.Planted
import LiveMarkup.Proofs.Document.Writes

namespace LiveMarkup

open Forest Markup Marker

/-! ## Sorts of nodes -/

namespace Kind

/-- what a node is, without what is written into it -/
def sort : Kind → Kind
  | .element tag _ => .element tag []
  | .text _ => .text ""
  | .comment _ => .comment ""
  | .fragment => .fragment

/-- nothing belongs into such a node: an element with the tag of a marker, or a text -/
def Shut (k : Kind) : Prop := k.marker? ≠ none ∨ k.sort = .text ""

variable {k k₁ : Kind}

theorem tag?_sort (k : Kind) : k.sort.tag? = k.tag? := by cases k <;> rfl

theorem marker?_of_sort (h : k₁.sort = k.sort) : k₁.marker? = k.marker? :=
  Kind.marker?_of_tag? (by rw [← k₁.tag?_sort, h, k.tag?_sort])

theorem Shut.of_sort (h : k₁.sort = k.sort) (hs : k₁.Shut) : k.Shut := by
  rwa [Shut, marker?_of_sort h, h] at hs

theorem isFragment_of_sort (h : k.sort = .fragment) : k.isFragment = true := by
  cases k <;> first | rfl | cases h

theorem attributes_of_sort (h : k.sort = .text "") : k.attributes = [] := by
  cases k <;> first | rfl | cases h

theorem not_shut_fragment : ¬ Kind.fragment.Shut := fun h => h.elim (fun hm => hm rfl) fun he => nomatch he

theorem sort_mapAttributes (g : Attributes → Attributes) (k : Kind) : (k.mapAttributes g).sort = k.sort := by
  cases k <;> rfl

theorem sort_withData (data : String) (k : Kind) : (k.withData data).sort = k.sort := by cases k <;> rfl

end Kind

/-- what is written into a node leaves its sort alone -/
theorem Writing.sort_apply {L : Type} (writing : Writing L) (n : Node L) : (writing.apply n).kind.sort = n.kind.sort := by
  cases writing with
  | setAttribute | removeAttribute | renameAttribute => exact Kind.sort_mapAttributes _ n.kind
  | setData data => exact Kind.sort_withData data n.kind
  | listen | unlisten => rfl

mutual
theorem childless_plantNode : (n : Markup.Node) → (id : NodeId) →
    ∀ t ∈ (Document.plant.plantNode (L := Empty) n id).1.subtrees, t.1.kind.sort = .text "" → t.2 = nil
  | .element tag attributes children, id => by
    intro t ht htext
    rw [Document.plant.plantNode, tree, subtrees, subtrees, List.append_nil] at ht
    rcases List.mem_cons.1 ht with rfl | ht
    · cases htext
    · exact childless_planted children (id + 1) t ht htext
  | .text _, _ => fun t ht _ => by
    cases List.mem_singleton.1 ht
    rfl
  | .comment _, _ => fun t ht _ => by
    cases List.mem_singleton.1 ht
    rfl
/-- nothing is below the texts of a skeleton -/
theorem childless_planted : (ns : List Markup.Node) → (id : NodeId) →
    ∀ t ∈ (planted ns id).subtrees, t.1.kind.sort = .text "" → t.2 = nil
  | [], _ => fun _ ht => absurd ht List.not_mem_nil
  | n :: ns, id => by
    intro t ht htext
    rw [planted, Document.plant, subtrees_append] at ht
    rcases List.mem_append.1 ht with ht | ht
    · exact childless_plantNode n id t ht htext
    · exact childless_planted ns _ t ht htext
end

namespace Document

variable {L : Type} {d d₁ d₂ : Document L} {x y p : NodeId}

/-- an element with the tag of a marker -/
def Marked (d : Document L) (x : NodeId) : Prop := ∃ n, d.node? x = some n ∧ n.kind.marker? ≠ none

def Shut (d : Document L) (x : NodeId) : Prop := ∃ n, d.node? x = some n ∧ n.kind.Shut

/-- a node that has been made, and is not shut -/
structure Plain (d : Document L) (x : NodeId) : Prop where
  known : x < d.fresh
  unshut : ¬ d.Shut x

/-- a node that has been made and is of this sort, if it is there -/
structure Sorted (d : Document L) (sort : Kind) (x : NodeId) : Prop where
  known : x < d.fresh
  same : ∀ n, d.node? x = some n → n.kind.sort = sort

/-- nothing is in the shut nodes in the tree of a node, and they carry no markers -/
def Hollow (d : Document L) (y : NodeId) : Prop :=
  ∀ x n, d.contains y x = true → d.node? x = some n → n.kind.Shut →
    d.children x = [] ∧ attributeMarkers n.kind.attributes = []

/-- a hollow node of this sort -/
structure Vacant (d : Document L) (sort : Kind) (x : NodeId) : Prop extends d.Sorted sort x where
  hollow : d.Hollow x

/-- nodes are of the same sort as before, nothing was put into shut ones, and what was hollow still is -/
structure FillsNone (d d₁ : Document L) : Prop where
  sorts : ∀ x < d.fresh, ∀ n₁, d₁.node? x = some n₁ → ∃ n, d.node? x = some n ∧ n₁.kind.sort = n.kind.sort
  enters : ∀ x p, d₁.parent? x = some p → d₁.Shut p → d.parent? x = some p
  hollow : ∀ y, d.Hollow y → d₁.Hollow y

theorem FillsNone.refl (d : Document L) : d.FillsNone d :=
  ⟨fun _ _ n hn => ⟨n, hn, rfl⟩, fun _ _ h _ => h, fun _ h => h⟩

theorem FillsNone.shut (h : d.FillsNone d₁) (hx : x < d.fresh) (hs : d₁.Shut x) : d.Shut x := by
  obtain ⟨n₁, hn₁, hs⟩ := hs
  obtain ⟨n, hn, hsame⟩ := h.sorts x hx n₁ hn₁
  exact ⟨n, hn, hs.of_sort hsame⟩

theorem FillsNone.marked (h : d.FillsNone d₁) (hx : x < d.fresh) (hm : d₁.Marked x) : d.Marked x := by
  obtain ⟨n₁, hn₁, hm⟩ := hm
  obtain ⟨n, hn, hsame⟩ := h.sorts x hx n₁ hn₁
  exact ⟨n, hn, by rw [← Kind.marker?_of_sort hsame]; exact hm⟩

theorem FillsNone.trans (h : d.FillsNone d₁) (h' : d₁.FillsNone d₂) (hv : d₁.Valid) (hf : d.fresh ≤ d₁.fresh) :
    d.FillsNone d₂ := by
  refine ⟨fun x hx n₂ hn₂ => ?_, fun x p hp hs => ?_, fun y hy => h'.hollow y (h.hollow y hy)⟩
  · obtain ⟨n₁, hn₁, hsame₁⟩ := h'.sorts x (Nat.lt_of_lt_of_le hx hf) n₂ hn₂
    obtain ⟨n, hn, hsame⟩ := h.sorts x hx n₁ hn₁
    exact ⟨n, hn, hsame₁.trans hsame⟩
  · have hp₁ := h'.enters x p hp hs
    exact h.enters x p hp₁ (h'.shut (hv.below (mem_ids_of_parent? hv hp₁).1) hs)

theorem Plain.fills (h : d.Plain x) (hf : d.FillsNone d₁) (hle : d.fresh ≤ d₁.fresh) : d₁.Plain x :=
  ⟨Nat.lt_of_lt_of_le h.known hle, fun hs => h.unshut (hf.shut h.known hs)⟩

theorem Sorted.fills {sort : Kind} (h : d.Sorted sort x) (hf : d.FillsNone d₁) (hle : d.fresh ≤ d₁.fresh) :
    d₁.Sorted sort x := by
  refine ⟨Nat.lt_of_lt_of_le h.known hle, fun n₁ hn₁ => ?_⟩
  obtain ⟨n, hn, hsame⟩ := hf.sorts x h.known n₁ hn₁
  exact hsame.trans (h.same n hn)

theorem Vacant.fills {sort : Kind} (h : d.Vacant sort x) (hf : d.FillsNone d₁) (hle : d.fresh ≤ d₁.fresh) :
    d₁.Vacant sort x := ⟨h.toSorted.fills hf hle, hf.hollow x h.hollow⟩

/-! ## Hollow nodes -/

theorem Hollow.inside (h : d.Hollow y) (hv : d.Valid) (hx : d.contains y x = true) : d.Hollow x := fun z n hz =>
  h z n (contains_trans hv hx hz)

/-- a node that has something in it is not shut -/
theorem Hollow.not_shut (h : d.Hollow y) (hv : d.Valid) (hp : d.contains y p = true) (hx : d.parent? x = some p) :
    ¬ d.Shut p := by
  rintro ⟨n, hn, hm⟩
  have hchild := (mem_children_iff hv).2 hx
  rw [(h p n hp hn hm).1] at hchild
  cases hchild

/-- nothing but a node without children is in its tree -/
theorem eq_of_childless (hv : d.Valid) (hc : d.children y = []) (hx : d.contains y x = true) : x = y := by
  induction x using climb hv with
  | step x ih =>
    rcases (contains_iff hv).1 hx with rfl | ⟨q, hq, hin⟩
    · rfl
    · -- what is above `x` and below `y` would begin with a child of `y`
      have hchild := (mem_children_iff hv).2 hq
      rw [ih q hq hin, hc] at hchild
      cases hchild

/-- a node that carries no markers, with nothing in it -/
theorem hollow_of_leaf (hv : d.Valid) {n : Node L} (hn : d.node? y = some n) (hm : attributeMarkers n.kind.attributes = [])
    (hc : d.children y = []) : d.Hollow y := by
  intro x k hx hk _
  obtain rfl := eq_of_childless hv hc hx
  obtain rfl := Option.some.inj (hn.symm.trans hk)
  exact ⟨hc, hm⟩

/-- nothing but a hollow text is in its tree -/
theorem Vacant.eq_of_text (h : d.Vacant (.text "") y) (hv : d.Valid) (hx : d.contains y x = true) : x = y := by
  refine eq_of_childless hv ?_ hx
  cases hn : d.node? y with
  | some n => exact (h.hollow y n (contains_self d y) hn (.inr (h.same n hn))).1
  | none =>
    refine List.eq_nil_iff_forall_not_mem.2 fun c hc => ?_
    exact (hv.node?_eq_none.1 hn) (mem_ids_of_parent? hv ((mem_children_iff hv).1 hc)).1

/-! ## Moving -/

section

variable {moved : List NodeId} {target : Option NodeId}

/-- what is in a tree was in it, or has come with what was moved -/
theorem Shifts.contains_or (h : Shifts moved target d d₁) (hv : d.Valid) (hv₁ : d₁.Valid)
    (hin : d₁.contains y x = true) : d.contains y x = true ∨ ∃ c ∈ moved, d.contains c x = true := by
  induction x using climb hv₁ with
  | step x ih =>
    rcases (contains_iff hv₁).1 hin with rfl | ⟨p, hp, hin⟩
    · exact .inl (contains_self d x)
    · by_cases hx : x ∈ moved
      · exact .inr ⟨x, hx, contains_self d x⟩
      · have hp := (h.stays x hx).symm.trans hp
        rcases ih p (by rw [h.stays x hx, hp]) hin with hin | ⟨c, hc, hin⟩
        · exact .inl ((contains_iff hv).2 (.inr ⟨p, hp, hin⟩))
        · exact .inr ⟨c, hc, (contains_iff hv).2 (.inr ⟨p, hp, hin⟩)⟩

/-- hollow nodes are put into something that is not shut, or into nothing -/
theorem fillsNone_shifts (h : Shifts moved target d d₁) (hv : d.Valid) (hv₁ : d₁.Valid)
    (htarget : ∀ p, target = some p → ¬ d.Shut p) (hmoved : ∀ c ∈ moved, d.Hollow c) : d.FillsNone d₁ := by
  have hsame : ∀ x, d₁.Shut x → d.Shut x := by
    rintro x ⟨n, hn, hm⟩
    exact ⟨n, (h.node x).symm.trans hn, hm⟩
  refine ⟨fun x _ n hn => ⟨n, (h.node x).symm.trans hn, rfl⟩, fun x p hp hm => ?_, fun y hy x n hin hn hm => ?_⟩
  · by_cases hx : x ∈ moved
    · rw [h.goes x hx] at hp
      exact absurd (hsame p hm) (htarget p hp)
    · rw [h.stays x hx] at hp
      exact hp
  · rw [h.node] at hn
    have hempty : d.children x = [] ∧ attributeMarkers n.kind.attributes = [] := by
      rcases h.contains_or hv hv₁ hin with hin | ⟨c, hc, hin⟩
      · exact hy x n hin hn hm
      · exact hmoved c hc x n hin hn hm
    refine ⟨?_, hempty.2⟩
    rw [h.leaves x fun he => htarget x he ⟨n, hn, hm⟩, hempty.1, List.filter_nil]

end

/-- what an insertion moves is in the tree of the node that is inserted -/
theorem contains_of_pieces (hv : d.Valid) {c : NodeId} (hc : c ∈ d.pieces p x) : d.contains x c = true := by
  unfold pieces at hc
  split at hc
  · cases hc
  · split at hc
    · exact (contains_iff hv).2 (.inr ⟨x, (mem_children_iff hv).1 hc, contains_self d x⟩)
    · rw [List.mem_singleton.1 hc]
      exact contains_self d x

/-- a hollow node, or what a hollow fragment holds, is put into something that is not shut -/
theorem fillsNone_insertBefore (hd : d.Intact) (hp : ¬ d.Shut p) (hx : d.Hollow x) (anchor : Option NodeId) :
    d.FillsNone (d.insertBefore p x anchor) := by
  refine fillsNone_shifts (relinks_insertBefore hd p x anchor).toShifts hd.valid (hd.insertBefore p x anchor).valid
    (fun q hq => Option.some.inj hq ▸ hp) fun c hc => hx.inside hd.valid (contains_of_pieces hd.valid hc)

/-! ## Other changes -/

/-- where nothing gets another parent, nothing comes into a tree -/
theorem contains_of_parents (hv : d.Valid) (hv₁ : d₁.Valid)
    (hparent : ∀ x p, d₁.parent? x = some p → d.parent? x = some p) (h : d₁.contains y x = true) :
    d.contains y x = true := by
  induction x using climb hv₁ with
  | step x ih =>
    rcases (contains_iff hv₁).1 h with rfl | ⟨p, hp, hin⟩
    · exact contains_self d x
    · exact (contains_iff hv).2 (.inr ⟨p, hparent x p hp, ih p hp hin⟩)

/-- nothing gets another parent, and no marker comes to a node that had none -/
theorem fillsNone_of_parents (hv : d.Valid) (hv₁ : d₁.Valid)
    (hparent : ∀ x p, d₁.parent? x = some p → d.parent? x = some p)
    (hnode : ∀ x n₁, d₁.node? x = some n₁ → ∃ n, d.node? x = some n ∧ n₁.kind.sort = n.kind.sort ∧
      (attributeMarkers n.kind.attributes = [] → attributeMarkers n₁.kind.attributes = [])) : d.FillsNone d₁ := by
  refine ⟨fun x _ n₁ hn₁ => ?_, fun x p hp _ => hparent x p hp, fun y hy x n₁ hin hn₁ hm => ?_⟩
  · obtain ⟨n, hn, hsame, -⟩ := hnode x n₁ hn₁
    exact ⟨n, hn, hsame⟩
  · obtain ⟨n, hn, hsame, hnone⟩ := hnode x n₁ hn₁
    obtain ⟨hempty, hfree⟩ := hy x n (contains_of_parents hv hv₁ hparent hin) hn (hm.of_sort hsame)
    refine ⟨List.eq_nil_iff_forall_not_mem.2 fun c hc => ?_, hnone hfree⟩
    have hchild := (mem_children_iff hv).2 (hparent c x ((mem_children_iff hv₁).1 hc))
    rw [hempty] at hchild
    cases hchild

theorem fillsNone_detach (hd : d.Intact) (x : NodeId) : d.FillsNone (d.detach x) := by
  have h := (relinks_detach hd.valid x).toShifts
  refine fillsNone_of_parents hd.valid (hd.detach x).valid (fun y p hp => ?_) fun y n hn => ⟨n, ?_, rfl, fun h => h⟩
  · by_cases hy : y ∈ [x]
    · rw [h.goes y hy] at hp
      cases hp
    · rw [h.stays y hy] at hp
      exact hp
  · rw [h.node] at hn
    exact hn

theorem fillsNone_discard (hd : d.Intact) (held : NodeId → Bool) (x : NodeId) : d.FillsNone (d.discard held x) :=
  fillsNone_of_parents hd.valid (hd.discard held x).valid (fun _ _ hp => parent?_of_discard hd hp) fun _ n hn =>
    ⟨n, node?_of_discard hd hn, rfl, fun h => h⟩

/-- a text takes the place of a node -/
theorem fillsNone_replaceWith (hd : d.Intact) (hp : ∀ p, d.parent? x = some p → ¬ d.Shut p) (hy : d.Hollow y) :
    d.FillsNone (d.replaceWith x y) := by
  unfold replaceWith
  cases hparent : d.parent? x with
  | none => exact .refl d
  | some p =>
    have hd₁ := hd.insertBefore p y (some x)
    exact (fillsNone_insertBefore hd (hp p hparent) hy (some x)).trans (fillsNone_detach hd₁ x) hd₁.valid
      (Nat.le_of_eq (fresh_insertBefore d p y (some x)).symm)

theorem fillsNone_perform (hd : d.Intact) (x : NodeId) {writing : Writing L}
    (hw : ∀ n : Node L, attributeMarkers n.kind.attributes = [] → attributeMarkers (writing.apply n).kind.attributes = []) :
    d.FillsNone (writing.perform x d) := by
  obtain ⟨hd₁, hr⟩ := rewrites_perform hd writing x
  refine fillsNone_of_parents hd.valid hd₁.valid (fun y p hp => by rw [← hr.parent]; exact hp) fun y n₁ hn₁ => ?_
  rw [hr.node] at hn₁
  obtain ⟨n, hn, rfl⟩ := Option.map_eq_some_iff.1 hn₁
  refine ⟨n, hn, ?_⟩
  split
  · exact ⟨writing.sort_apply n, hw n⟩
  · exact ⟨rfl, fun h => h⟩

/-- nothing that was there comes into a tree where another tree has come -/
theorem contains_of_grows (hg : d.Grows d₁) (hv : d.Valid) (hv₁ : d₁.Valid) (hx : x < d.fresh)
    (h : d₁.contains y x = true) : d.contains y x = true := by
  induction x using climb hv₁ with
  | step x ih =>
    rcases (contains_iff hv₁).1 h with rfl | ⟨p, hp, hin⟩
    · exact contains_self d x
    · have hp' := (hg.parent x hx).symm.trans hp
      exact (contains_iff hv).2 (.inr ⟨p, hp', ih p hp (hv.below (mem_ids_of_parent? hv hp').1) hin⟩)

/-- a hollow tree has come -/
theorem fillsNone_grows (hg : d.Grows d₁) (hv : d.Valid) (hv₁ : d₁.Valid) (hnew : d₁.Hollow d.fresh) : d.FillsNone d₁ := by
  refine ⟨fun x hx n hn => ⟨n, (hg.node x hx).symm.trans hn, rfl⟩, fun x p hp hm => ?_, fun y hy x n hin hn hm => ?_⟩
  · obtain ⟨hpin, hxin⟩ := mem_ids_of_parent? hv₁ hp
    by_cases hpn : p < d.fresh
    · have hchild := (mem_children_iff hv₁).2 hp
      rw [hg.children p hpn] at hchild
      exact (mem_children_iff hv).1 hchild
    · have hin := hg.tree p (Nat.not_lt.1 hpn) (hv₁.below hpin)
      exact absurd hm (hnew.not_shut hv₁ hin hp)
  · by_cases hx : x < d.fresh
    · rw [hg.node x hx] at hn
      rw [hg.children x hx]
      exact hy x n (contains_of_grows hg hv hv₁ hx hin) hn hm
    · have hlt := hv₁.below (mem_ids_of_node? hv₁ (by rw [hn]; exact Option.some_ne_none n))
      exact hnew x n (hg.tree x (Nat.not_lt.1 hx) hlt) hn hm

/-- a new text is hollow -/
theorem fillsNone_add (hd : d.Intact) (data : String) :
    d.FillsNone (d.add (.text data)).1 ∧ (d.add (.text data)).1.Vacant (.text "") d.fresh := by
  have hv₁ := valid_add hd.valid (.text data)
  have hnode := node?_add hd.valid (.text data) d.fresh
  rw [if_pos rfl] at hnode
  have hnew : (d.add (.text data)).1.Hollow d.fresh := by
    refine hollow_of_leaf hv₁ hnode rfl ?_
    rw [children_add hd.valid]
    refine Holds.children_eq_nil hd.valid fun hin => ?_
    exact Nat.lt_irrefl _ (hd.valid.below (ids_bare d.forest ▸ hin))
  refine ⟨fillsNone_grows (grows_add hd.valid (.text data)).1 hd.valid hv₁ hnew, ⟨Nat.lt_succ_self _, fun n hn => ?_⟩,
    hnew⟩
  obtain rfl := Option.some.inj (hnode.symm.trans hn)
  rfl

/-- so is a copy of a clean skeleton -/
theorem fillsNone_addFragment (hd : d.Intact) {nodes : List Markup.Node} (hc : Clean nodes) :
    d.FillsNone (d.addFragment nodes).1 ∧ (d.addFragment nodes).1.Vacant .fragment d.fresh := by
  have hh := Holds.addFragment hd.valid nodes
  have hd₁ := hd.addFragment nodes
  have hroot : ((⟨d.fresh, .fragment, [], 0⟩ : Bare), planted nodes (d.fresh + 1)) ∈
      (d.forest.bare ++ tree (⟨d.fresh, .fragment, [], 0⟩ : Bare) (planted nodes (d.fresh + 1))).subtrees := by
    rw [subtrees_append]
    exact List.mem_append_right _ List.mem_cons_self
  have hnew : (d.addFragment nodes).1.Hollow d.fresh := by
    intro x n hin hn hm
    have hx : x ∈ (tree (⟨d.fresh, .fragment, [], 0⟩ : Bare) (planted nodes (d.fresh + 1))).ids := by
      by_contra hout
      rw [Holds.contains hh hroot hout] at hin
      cases hin
    obtain ⟨m, cs, hs, rfl⟩ := exists_subtree_of_id hx
    have hs' : (m, cs) ∈ (d.forest.bare ++
        tree (⟨d.fresh, .fragment, [], 0⟩ : Bare) (planted nodes (d.fresh + 1))).subtrees := by
      rw [subtrees_append]
      exact List.mem_append_right _ hs
    have hkind : n.kind = m.kind := by
      have := hh.kind? hs'
      rw [kind?_eq_node?, hn] at this
      exact Option.some.inj this
    rw [hkind] at hm ⊢
    rw [tree, subtrees, subtrees, List.append_nil, List.mem_cons] at hs
    rcases hs with hs | hs
    · rw [(Prod.mk.inj hs).1] at hm
      exact absurd hm Kind.not_shut_fragment
    · have hleaf : m.kind.attributes = [] ∧ cs = nil := by
        rcases hm with hm | htext
        · exact leaf_planted nodes (d.fresh + 1) hc (m, cs) hs hm
        · exact ⟨Kind.attributes_of_sort htext, childless_planted nodes (d.fresh + 1) (m, cs) hs htext⟩
      refine ⟨?_, by rw [hleaf.1]; rfl⟩
      rw [hh.children hs', hleaf.2]
      rfl
  have hkind := hh.kind? hroot
  rw [kind?_eq_node?] at hkind
  obtain ⟨n, hn, hfragment⟩ := Option.map_eq_some_iff.1 hkind
  have hin := mem_ids_of_node? hd₁.valid (by rw [hn]; exact Option.some_ne_none n)
  refine ⟨fillsNone_grows (grows_addFragment hd.valid nodes).1 hd.valid hd₁.valid hnew, ⟨hd₁.valid.below hin, fun k hk => ?_⟩,
    hnew⟩
  obtain rfl := Option.some.inj (hn.symm.trans hk)
  rw [hfragment]
  rfl

end Document

end LiveMarkup
