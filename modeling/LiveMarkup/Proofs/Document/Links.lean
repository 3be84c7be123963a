/-
The links between the nodes of a document.

A document keeps its nodes in a forest; what a node sees of it are its children and its parent. Both are one relation
(`mem_children_iff`), and every change of place is said through them:

- `children_place`, `parent?_place`: a node goes from where it is to a place before an anchor;
- `children_detach`, `parent?_detach`: a node is taken from its parent;
- `contains_iff`: what a node contains is found by following parents, and that way ends (`climb`, `ancestor_weight`).

Moving nodes makes none and loses none (`labels_place`, `labels_detach`), and a tree is known by its links
(`treeOf_congr`).
-/
import LiveMarkup.Proofs.Document.Children

namespace LiveMarkup

open Forest

variable {L : Type}

namespace Forest

variable {α : Type}

/-- the node that is found comes first in document order -/
theorem find?_fst (pick : α → Bool) (f : Forest α) : (f.find? pick).map (·.1) = f.labels.find? pick := by
  rw [find?_eq_subtrees, labels_eq_subtrees, List.find?_map]
  rfl

/-- what stands below a node after a forest is put in: the forest's own trees, and those that were there -/
theorem exists_of_subtree_graft {pick q : α → Bool} {x f as : Forest α} {a : α}
    (h : (a, as) ∈ (f.graft pick (insertBefore q x)).subtrees) :
    (a, as) ∈ x.subtrees ∨ ∃ cs, (a, cs) ∈ f.subtrees ∧
      as.roots = if pick a then (insertBefore q x (cs.graft pick (insertBefore q x))).roots else cs.roots := by
  induction f with
  | nil => cases h
  | cons b ds rest ihd ihr =>
    have hdown : (a, as) ∈ (ds.graft pick (insertBefore q x)).subtrees → (a, as) ∈ x.subtrees ∨
        ∃ cs, (a, cs) ∈ (cons b ds rest).subtrees ∧
          as.roots = if pick a then (insertBefore q x (cs.graft pick (insertBefore q x))).roots else cs.roots := by
      intro h
      refine (ihd h).imp_right fun ⟨cs, hcs, hr⟩ => ⟨cs, ?_, hr⟩
      exact List.mem_cons_of_mem _ (List.mem_append_left _ hcs)
    rw [graft, subtrees, List.mem_cons, List.mem_append] at h
    rcases h with h | h | h
    · obtain ⟨rfl, rfl⟩ := Prod.mk.inj h
      refine .inr ⟨ds, List.mem_cons_self, ?_⟩
      split
      · rfl
      · rw [roots_graft]
    · split at h
      · rcases List.mem_append.1 ((subtrees_insertBefore q x _).mem_iff.1 h) with h | h
        · exact hdown h
        · exact .inl h
      · exact hdown h
    · refine (ihr h).imp_right fun ⟨cs, hcs, hr⟩ => ⟨cs, ?_, hr⟩
      exact List.mem_cons_of_mem _ (List.mem_append_right _ hcs)

end Forest

/-- puts an id before the anchor, or at the end if the anchor is not there -/
def seat (anchor : Option NodeId) (id : NodeId) (row : List NodeId) : List NodeId :=
  row.insertIdx ((anchor.bind fun a => row.idxOf? a).getD row.length) id

theorem seat_nil (anchor : Option NodeId) (id : NodeId) : seat anchor id [] = [id] := by
  cases anchor <;> rfl

theorem seat_cons (anchor : Option NodeId) (id c : NodeId) (row : List NodeId) :
    seat anchor id (c :: row) = if anchor = some c then id :: c :: row else c :: seat anchor id row := by
  cases anchor with
  | none => rfl
  | some a =>
    by_cases hc : c = a
    · subst hc
      simp [seat, List.idxOf?_cons]
    · have hne : ¬a = c := fun e => hc e.symm
      cases hidx : row.idxOf? a <;> simp [seat, List.idxOf?_cons, hc, hne, hidx]

theorem mem_seat {anchor : Option NodeId} {id c : NodeId} {row : List NodeId} :
    c ∈ seat anchor id row ↔ c = id ∨ c ∈ row := by
  induction row with
  | nil => rw [seat_nil, List.mem_singleton, or_iff_left List.not_mem_nil]
  | cons r row ih =>
    rw [seat_cons]
    split
    · exact List.mem_cons
    · rw [List.mem_cons, ih, List.mem_cons, or_left_comm]

/-- taking out what is put in, and more, is taking out -/
theorem filter_seat {keep : NodeId → Bool} {anchor : Option NodeId} {id : NodeId} (h : keep id = false)
    (row : List NodeId) : (seat anchor id row).filter keep = row.filter keep := by
  induction row with
  | nil => rw [seat_nil, List.filter_cons, h]; rfl
  | cons r row ih =>
    rw [seat_cons]
    split
    · rw [List.filter_cons, h]; rfl
    · rw [List.filter_cons, ih, List.filter_cons]

theorem Forest.roots_insertBefore (anchor : Option NodeId) (n : Bare) (cs f : Forest Bare) :
    (insertBefore (isAnchor anchor) (tree n cs) f).roots.map Node.id = seat anchor n.id (f.roots.map Node.id) := by
  induction f with
  | nil => rw [roots, List.map_nil, seat_nil]; rfl
  | cons a as rest _ ih =>
    have hpick : isAnchor anchor a = true ↔ anchor = some a.id := by
      cases anchor with
      | none => simp [isAnchor]
      | some b =>
        rw [isAnchor, Option.any_some, Document.isNode_iff, Option.some_inj]
        exact eq_comm
    rw [insertBefore, roots, List.map_cons, seat_cons]
    by_cases ha : anchor = some a.id
    · rw [if_pos (hpick.2 ha), if_pos ha]
      rfl
    · rw [if_neg (mt hpick.1 ha), if_neg ha, roots, List.map_cons, ih]

namespace Document

variable {d d' : Document L} {p c id : NodeId}

/-! ## Nodes and links -/

def node? (d : Document L) (id : NodeId) : Option (Node L) := (d.find? id).map (·.1)

theorem node?_eq_labels (d : Document L) (id : NodeId) : d.node? id = d.forest.labels.find? (isNode id) :=
  find?_fst _ _

theorem kind?_eq_node? (d : Document L) (id : NodeId) : d.kind? id = (d.node? id).map (·.kind) := by
  rw [node?, Option.map_map]
  rfl

theorem isFragment_eq_node? (d : Document L) (id : NodeId) :
    d.isFragment id = (d.node? id).any fun n => n.kind.isFragment := by
  rw [Document.isFragment, kind?_eq_node?]
  cases d.node? id <;> rfl

theorem find?_eq_node? (d : Document L) (id : NodeId) : d.find? id = (d.node? id).map fun n => (n, d.childForest id) := by
  rw [node?, Document.childForest]
  cases d.find? id <;> rfl

theorem Valid.nodup (hv : d.Valid) : d.forest.ids.Nodup := ids_bare d.forest ▸ Holds.nodup hv

theorem Valid.below (hv : d.Valid) (hid : id ∈ d.forest.ids) : id < d.fresh :=
  Holds.below hv id ((ids_bare d.forest).symm ▸ hid)

theorem exists_subtree_bare (hid : id ∈ d.forest.ids) :
    ∃ n cs, (n, cs) ∈ d.forest.bare.subtrees ∧ n.id = id := by
  rw [← ids_bare] at hid
  exact exists_subtree_of_id hid

theorem Valid.node?_eq_none (hv : d.Valid) : d.node? id = none ↔ id ∉ d.forest.ids := by
  constructor
  · rintro h hid
    obtain ⟨m, ms, hm⟩ := Holds.find?_isSome hv ((ids_bare d.forest).symm ▸ hid)
    rw [node?, hm] at h
    cases h
  · intro hid
    rw [node?, Holds.find?_none hv ((ids_bare d.forest).symm ▸ hid)]
    rfl

theorem Valid.exists_node (hv : d.Valid) (hid : id ∈ d.forest.ids) : ∃ n, d.node? id = some n :=
  Option.ne_none_iff_exists'.1 fun h => hv.node?_eq_none.1 h hid

theorem node?_of_mem (hv : d.Valid) {n : Node L} (h : n ∈ d.forest.labels) : d.node? n.id = some n := by
  obtain ⟨m, hm⟩ := hv.exists_node (mem_ids_of_mem h)
  rw [node?_eq_labels] at hm
  have hid : m.id = n.id := isNode_iff.1 (List.find?_some hm)
  rw [node?_eq_labels, hm, List.inj_on_of_nodup_map hv.nodup (List.mem_of_find?_eq_some hm) h hid]

/-- the same nodes in another order -/
theorem node?_of_perm (hv : d.Valid) (hp : d'.forest.labels.Perm d.forest.labels) (id : NodeId) :
    d'.node? id = d.node? id := by
  rw [node?_eq_labels, node?_eq_labels]
  cases h : d.forest.labels.find? (isNode id) with
  | none =>
    rw [List.find?_eq_none] at h ⊢
    exact fun n hn => h n (hp.mem_iff.1 hn)
  | some n =>
    refine find?_of_unique (hp.mem_iff.2 (List.mem_of_find?_eq_some h)) (List.find?_some h) fun m hm hpick => ?_
    have he : m.id = n.id := (isNode_iff.1 hpick).trans (isNode_iff.1 (List.find?_some h)).symm
    exact List.inj_on_of_nodup_map hv.nodup (hp.mem_iff.1 hm) (List.mem_of_find?_eq_some h) he

theorem ids_perm (hp : d'.forest.labels.Perm d.forest.labels) : d'.forest.ids.Perm d.forest.ids := hp.map _

/-- a node is among the children of its parent and of nobody else -/
theorem mem_children_iff (hv : d.Valid) : c ∈ d.children p ↔ d.parent? c = some p := by
  constructor
  · intro hc
    obtain ⟨n, cs, hs, rfl⟩ := exists_subtree_of_id (Holds.mem_children hv hc).1
    rw [Holds.children hv hs] at hc
    obtain ⟨m, hm, rfl⟩ := List.mem_map.1 hc
    exact Holds.parent? hv hs (List.any_eq_true.2 ⟨m, hm, isNode_iff.2 rfl⟩)
  · intro hp
    obtain ⟨⟨n, cs⟩, hs, rfl, hid⟩ := Holds.parent?_eq_some hv hp
    obtain ⟨m, hm, hmid⟩ := List.any_eq_true.1 hid
    rw [Holds.children hv hs, ← isNode_iff.1 hmid]
    exact List.mem_map_of_mem hm

theorem mem_ids_of_parent? (hv : d.Valid) (h : d.parent? c = some p) : p ∈ d.forest.ids ∧ c ∈ d.forest.ids := by
  rw [← ids_bare]
  exact Holds.mem_children hv ((mem_children_iff hv).2 h)

theorem parent?_ext (hv : d.Valid) (hv' : d'.Valid) (h : ∀ p, c ∈ d'.children p ↔ c ∈ d.children p) :
    d'.parent? c = d.parent? c := by
  refine Option.ext fun p => ?_
  rw [← mem_children_iff hv', ← mem_children_iff hv]
  exact h p

theorem parent?_eq_none_of_children (hv : d.Valid) (h : ∀ p, c ∉ d.children p) : d.parent? c = none :=
  Option.eq_none_iff_forall_not_mem.2 fun p hp => h p ((mem_children_iff hv).2 hp)

/-! ## The way up -/

/-- the number of nodes below a node -/
def weight (d : Document L) (id : NodeId) : Nat := (d.childForest id).labels.length

theorem weight_eq (hv : d.Valid) {n : Bare} {cs : Forest Bare} (hs : (n, cs) ∈ d.forest.bare.subtrees) :
    d.weight n.id = cs.labels.length := by
  rw [weight, ← Holds.childForest hv hs, bare, labels_map, List.length_map]

/-- a parent has more nodes below it than its child -/
theorem weight_lt (hv : d.Valid) (h : d.parent? c = some p) : d.weight c < d.weight p := by
  obtain ⟨⟨n, cs⟩, hs, rfl, hid⟩ := Holds.parent?_eq_some hv h
  obtain ⟨m, hm, hmid⟩ := List.any_eq_true.1 hid
  obtain rfl := isNode_iff.1 hmid
  obtain ⟨ms, hms⟩ := exists_tree hm
  have hsub := trees_subset_subtrees cs hms
  rw [weight_eq hv hs, weight_eq hv (subtrees_trans hs hsub)]
  exact (subtree_sublist hsub).length_le

theorem length_labels_le (hv : d.Valid) : d.forest.labels.length ≤ d.fresh := by
  have hsub : d.forest.ids ⊆ List.range d.fresh := fun id hid => List.mem_range.2 (hv.below hid)
  have hle := (List.subperm_of_subset hv.nodup hsub).length_le
  rwa [List.length_range, ids, List.length_map] at hle

theorem weight_le (hv : d.Valid) (id : NodeId) : d.weight id ≤ d.fresh := by
  by_cases hid : id ∈ d.forest.ids
  · obtain ⟨n, cs, hs, rfl⟩ := exists_subtree_bare hid
    rw [weight_eq hv hs]
    have hlabels : d.forest.bare.labels.length = d.forest.labels.length := by rw [bare, labels_map, List.length_map]
    have := (subtree_sublist hs).length_le
    rw [List.length_cons, hlabels] at this
    exact Nat.le_of_succ_le (this.trans (length_labels_le hv))
  · rw [weight, Document.childForest, Holds.find?_none hv ((ids_bare d.forest).symm ▸ hid)]
    exact Nat.zero_le _

/-- what holds of a node if it holds of its parent holds of all nodes -/
theorem climb (hv : d.Valid) {motive : NodeId → Prop}
    (step : ∀ id, (∀ p, d.parent? id = some p → motive p) → motive id) (id : NodeId) : motive id := by
  -- the induction is on the nodes that are not below the node
  have hall : ∀ n id, d.weight id + n > d.fresh → motive id := by
    intro n
    induction n with
    | zero =>
      intro id h
      exact absurd (weight_le hv id) (Nat.not_le.2 h)
    | succ n ih =>
      intro id h
      refine step id fun p hp => ih p ?_
      have := weight_lt hv hp
      omega
  exact hall (d.fresh + 1) id (Nat.lt_of_lt_of_le (Nat.lt_succ_self _) (Nat.le_add_left _ _))

/-- the ancestor so many steps up -/
def ancestor? (d : Document L) : Nat → NodeId → Option NodeId
  | 0, id => some id
  | n + 1, id => (d.parent? id).bind (ancestor? d n)

theorem ancestor_weight (hv : d.Valid) {n : Nat} {a : NodeId} (h : d.ancestor? n id = some a) :
    d.weight id + n ≤ d.weight a := by
  induction n generalizing id with
  | zero =>
    cases h
    exact Nat.le_refl _
  | succ n ih =>
    obtain ⟨p, hp, ha⟩ := Option.bind_eq_some_iff.1 h
    have := weight_lt hv hp
    have := ih ha
    omega

/-- a node contains itself and what its children contain -/
theorem contains_iff (hv : d.Valid) {outer inner : NodeId} :
    d.contains outer inner = true ↔ inner = outer ∨ ∃ p, d.parent? inner = some p ∧ d.contains outer p = true := by
  by_cases ho : outer ∈ d.forest.ids
  · obtain ⟨n, cs, hs, rfl⟩ := exists_subtree_bare ho
    have htree : ∀ {id}, d.contains n.id id = true ↔ id ∈ (tree n cs).ids := by
      refine fun {id} => ⟨fun h => ?_, Holds.contains_of_mem hv hs⟩
      by_contra hno
      rw [Holds.contains hv hs hno] at h
      cases h
    have hinner : ∀ {t : Bare × Forest Bare}, t ∈ (tree n cs).subtrees → t ∈ d.forest.bare.subtrees := by
      intro t ht
      rcases (show t = (n, cs) ∨ t ∈ cs.subtrees by simpa [tree, subtrees] using ht) with rfl | ht
      · exact hs
      · exact subtrees_trans hs ht
    rw [htree]
    constructor
    · intro hin
      refine or_iff_not_imp_left.2 fun hne => ?_
      obtain ⟨m, hm, rfl⟩ := List.mem_map.1 hin
      have hroot : m ∉ (tree n cs).roots := fun hr => hne (by rw [List.mem_singleton.1 hr])
      obtain ⟨t, ht, hmt⟩ := exists_parent hm hroot
      refine ⟨t.1.id, Holds.parent? hv (hinner ht) (List.any_eq_true.2 ⟨m, hmt, isNode_iff.2 rfl⟩), ?_⟩
      exact htree.2 (mem_ids_of_mem (mem_labels_of_subtree ht))
    · rintro (rfl | ⟨p, hp, hin⟩)
      · rw [ids_tree]
        exact List.mem_cons_self
      · obtain ⟨m, ms, hms, rfl⟩ := exists_subtree_of_id (htree.1 hin)
        have hmem := (mem_children_iff hv).2 hp
        rw [Holds.children hv (hinner hms)] at hmem
        refine List.map_subset _ (fun k hk => ?_) hmem
        exact labels_subset_of_subtree hms (roots_subset_labels ms hk)
  · have hself : ∀ {id}, d.contains outer id = true ↔ id = outer := by
      intro id
      rw [Document.contains, Document.childForest, Holds.find?_none hv ((ids_bare d.forest).symm ▸ ho), Bool.or_eq_true,
        beq_iff_eq]
      exact ⟨fun h => h.elim Eq.symm fun h => absurd h Bool.false_ne_true, fun h => .inl h.symm⟩
    rw [hself]
    refine ⟨.inl, fun h => h.resolve_right ?_⟩
    rintro ⟨p, hp, hin⟩
    exact ho (hself.1 hin ▸ (mem_ids_of_parent? hv hp).1)

theorem contains_self (d : Document L) (id : NodeId) : d.contains id id = true := by
  rw [Document.contains, beq_self_eq_true, Bool.true_or]

/-- what a child contains its parent contains -/
theorem contains_of_parent? (hv : d.Valid) (h : d.parent? c = some p) (hin : d.contains c id = true) :
    d.contains p id = true := by
  induction id using climb hv with
  | step id ih =>
    rcases (contains_iff hv).1 hin with rfl | ⟨q, hq, hin⟩
    · exact (contains_iff hv).2 (.inr ⟨p, h, contains_self d p⟩)
    · exact (contains_iff hv).2 (.inr ⟨q, hq, ih q hq hin⟩)

theorem contains_trans (hv : d.Valid) {outer middle inner : NodeId} (hm : d.contains outer middle = true)
    (hi : d.contains middle inner = true) : d.contains outer inner = true := by
  induction inner using climb hv with
  | step id ih =>
    rcases (contains_iff hv).1 hi with rfl | ⟨p, hp, hin⟩
    · exact hm
    · exact (contains_iff hv).2 (.inr ⟨p, hp, ih p hp hin⟩)

theorem not_contains_parent? (hv : d.Valid) {outer q : NodeId} (h : d.contains outer id = false)
    (hq : d.parent? id = some q) : d.contains outer q = false := by
  refine Bool.eq_false_iff.2 fun hin => ?_
  rw [(contains_iff hv).2 (.inr ⟨q, hq, hin⟩)] at h
  cases h

theorem ne_of_not_contains {outer : NodeId} (h : d.contains outer id = false) : id ≠ outer := by
  rintro rfl
  rw [contains_self] at h
  cases h

theorem weight_le_of_contains (hv : d.Valid) {outer : NodeId} (h : d.contains outer id = true) :
    d.weight id ≤ d.weight outer := by
  induction id using climb hv with
  | step id ih =>
    rcases (contains_iff hv).1 h with rfl | ⟨q, hq, hin⟩
    · exact Nat.le_refl _
    · exact (Nat.le_of_lt (weight_lt hv hq)).trans (ih q hq hin)

/-- a child does not contain its parent -/
theorem not_contains_of_parent? (hv : d.Valid) (h : d.parent? c = some p) : d.contains c p = false := by
  refine Bool.eq_false_iff.2 fun hin => ?_
  have := weight_lt hv h
  have := weight_le_of_contains hv hin
  omega

/-! ## Taking a node out -/

theorem valid_detach (hv : d.Valid) (id : NodeId) : (d.detach id).Valid := (frees_detach d id).valid hv

theorem children_detach (hv : d.Valid) (id p : NodeId) : (d.detach id).children p = (d.children p).filter (· ∉ [id]) :=
  (frees_detach d id).children hv p

theorem parent?_detach_self (hv : d.Valid) (id : NodeId) : (d.detach id).parent? id = none := by
  refine parent?_eq_none_of_children (valid_detach hv id) fun p hp => ?_
  rw [children_detach hv, List.mem_filter] at hp
  simp at hp

theorem parent?_detach (hv : d.Valid) (h : c ≠ id) : (d.detach id).parent? c = d.parent? c := by
  refine parent?_ext hv (valid_detach hv id) fun p => ?_
  rw [children_detach hv, List.mem_filter]
  simp [h]

theorem find?_subtree (hv : d.Valid) {n : Node L} {cs : Forest (Node L)} (h : d.find? id = some (n, cs)) :
    n.id = id ∧ (n, cs) ∈ d.forest.subtrees ∧ count (isNode id) d.forest = 1 := by
  rw [Document.find?, find?_eq_subtrees] at h
  have hpick : isNode id n = true := List.find?_some (p := fun t : Node L × Forest (Node L) => isNode id t.1) h
  have hid := isNode_iff.1 hpick
  have hs := List.mem_of_find?_eq_some h
  exact ⟨hid, hs, count_isNode_of_mem hv.nodup (hid ▸ mem_ids_of_mem (mem_labels_of_subtree hs))⟩

theorem labels_detach (hv : d.Valid) (id : NodeId) : (d.detach id).forest.labels.Perm d.forest.labels := by
  rw [Document.detach]
  split
  · next n cs _ hf =>
    obtain ⟨hid, hs, hcount⟩ := find?_subtree hv hf
    rw [labels_append, labels_tree]
    exact (labels_prune_perm hcount hs (isNode_iff.2 hid)).symm
  · exact List.Perm.refl _

theorem node?_detach (hv : d.Valid) (id x : NodeId) : (d.detach id).node? x = d.node? x :=
  node?_of_perm hv (labels_detach hv id) x

/-! ## Putting a node in -/

section

variable (hv : d.Valid) (hp : p ∈ d.forest.ids) (hc : c ∈ d.forest.ids) (hnot : d.contains c p = false)
  (anchor : Option NodeId)

include hv hp hc hnot

theorem place_holds : ∃ n cs, n.id = c ∧ (n, cs) ∈ d.forest.bare.subtrees ∧ p ∉ (tree n cs).ids ∧
    (d.place p c anchor).Holds ((d.forest.bare.prune (isNode c)).graft (isNode p)
      (Forest.insertBefore (isAnchor anchor) (tree n cs))) := by
  obtain ⟨n, cs, hs, rfl⟩ := exists_subtree_bare hc
  have hout : p ∉ (tree n cs).ids := fun hin => by
    rw [Holds.contains_of_mem hv hs hin] at hnot
    cases hnot
  exact ⟨n, cs, rfl, hs, hout, Holds.place hv ((ids_bare d.forest).symm ▸ hp) hs hout anchor⟩

theorem valid_place : (d.place p c anchor).Valid := by
  obtain ⟨n, cs, -, -, -, h⟩ := place_holds hv hp hc hnot anchor
  exact h.valid

theorem labels_place : (d.place p c anchor).forest.labels.Perm d.forest.labels := by
  obtain ⟨n, hn⟩ := hv.exists_node hp
  obtain ⟨m, hm⟩ := hv.exists_node hc
  obtain ⟨hmc, hs, hcount⟩ := find?_subtree hv (by rw [find?_eq_node?, hm]; rfl)
  rw [Document.place, find?_eq_node?, find?_eq_node?, hn, hm]
  have hprune := labels_prune_perm hcount hs (isNode_iff.2 hmc)
  have hpruned : p ∈ (d.forest.prune (isNode c)).ids := by
    have hmem := (hprune.map Node.id).mem_iff.1 hp
    rw [List.map_append, List.mem_append] at hmem
    refine hmem.resolve_right fun hin => ?_
    -- what is below the node is contained in it
    refine Bool.eq_false_iff.1 hnot ?_
    rw [Document.contains, Bool.or_eq_true, beq_iff_eq]
    rw [List.map_cons, List.mem_cons] at hin
    refine hin.imp (fun e => hmc.symm.trans e.symm) fun hin => ?_
    obtain ⟨k, hk, rfl⟩ := List.mem_map.1 hin
    exact List.any_eq_true.2 ⟨k, hk, isNode_iff.2 rfl⟩
  have hnodup : (d.forest.prune (isNode c)).ids.Nodup := ((labels_prune_sublist _ _).map Node.id).nodup hv.nodup
  have hgraft := labels_graft_perm (count_isNode_of_mem hnodup hpruned)
    (labels_insertBefore_perm (fun k => anchor.any (isNode · k)) (tree m (d.childForest c)))
  rw [labels_tree] at hgraft
  exact hgraft.trans hprune.symm

/-- the node stands before the anchor, and nowhere else -/
theorem children_place (q : NodeId) : (d.place p c anchor).children q =
    if q = p then seat anchor c ((d.children p).filter (· ≠ c)) else (d.children q).filter (· ≠ c) := by
  obtain ⟨n, cs, rfl, hs, hout, h⟩ := place_holds hv hp hc hnot anchor
  have hids := ids_perm (labels_place hv hp hc hnot anchor)
  have hfilter : ∀ bs : Forest Bare, (bs.prune (isNode n.id)).roots.map Node.id =
      (bs.roots.map Node.id).filter (· ≠ n.id) := by
    intro bs
    rw [roots_prune, List.filter_map]
    refine congrArg (List.map Node.id) (List.filter_congr fun k _ => ?_)
    rw [Function.comp_apply, isNode, decide_not]
    rfl
  by_cases hq : q ∈ d.forest.ids
  · obtain ⟨a, as, ha, rfl⟩ := exists_subtree_of_id (by
      rw [← ids_bare] at hids
      exact (h.same.labels.map Node.id).mem_iff.1 (hids.mem_iff.2 hq))
    rw [h.children ha]
    rcases exists_of_subtree_graft ha with hin | ⟨bs, hbs, hroots⟩
    · -- below the node that moves nothing changes
      have has : (a, as) ∈ d.forest.bare.subtrees := by
        rcases (show (a, as) = (n, cs) ∨ (a, as) ∈ cs.subtrees by simpa [tree, subtrees] using hin) with he | hin
        · rwa [he]
        · exact subtrees_trans hs hin
      have hne : a.id ≠ p := fun e => hout (e ▸ mem_ids_of_mem (mem_labels_of_subtree hin))
      rw [if_neg hne, Holds.children hv has]
      refine (List.filter_eq_self.2 fun k hk => ?_).symm
      obtain ⟨m, hm, rfl⟩ := List.mem_map.1 hk
      have hnot : n.id ∉ as.ids := by
        have hnodup := (List.nodup_cons.1 (((subtree_sublist hs).map Node.id).nodup (Holds.nodup hv))).1
        rcases (show (a, as) = (n, cs) ∨ (a, as) ∈ cs.subtrees by simpa [tree, subtrees] using hin) with he | hin
        · obtain ⟨-, rfl⟩ := Prod.mk.inj he
          exact hnodup
        · exact fun hmem => hnodup (List.map_subset _ (labels_subset_of_subtree hin) hmem)
      exact decide_eq_true fun e => hnot (e ▸ mem_ids_of_mem (roots_subset_labels as hm))
    · obtain ⟨ds, hds, rfl⟩ := exists_of_subtree_prune hbs
      rw [hroots]
      by_cases he : a.id = p
      · have hds' := Holds.children hv hds
        subst he
        rw [if_pos rfl, if_pos (isNode_iff.2 rfl), roots_insertBefore, roots_graft, hfilter, hds']
      · rw [if_neg he, if_neg (Bool.eq_false_iff.1 (isNode_eq_false_iff.2 he)), hfilter, Holds.children hv hds]
  · have hne : q ≠ p := fun e => hq (e ▸ hp)
    have hq' : q ∉ (d.place p n.id anchor).forest.ids := fun hin => hq (hids.mem_iff.1 hin)
    rw [← ids_bare] at hq hq'
    rw [if_neg hne, Holds.children_eq_nil hv hq, Holds.children_eq_nil h.valid hq']
    rfl

theorem parent?_place_self : (d.place p c anchor).parent? c = some p := by
  rw [← mem_children_iff (valid_place hv hp hc hnot anchor), children_place hv hp hc hnot, if_pos rfl]
  exact mem_seat.2 (.inl rfl)

theorem parent?_place {x : NodeId} (hx : x ≠ c) : (d.place p c anchor).parent? x = d.parent? x := by
  refine parent?_ext hv (valid_place hv hp hc hnot anchor) fun q => ?_
  rw [children_place hv hp hc hnot]
  split
  · next he =>
    subst he
    rw [mem_seat, List.mem_filter]
    simp [hx]
  · rw [List.mem_filter]
    simp [hx]

/-- what is not below the node that moves has the ancestors that it had -/
theorem contains_place {outer inner : NodeId} (h : d.contains c inner = false) :
    (d.place p c anchor).contains outer inner = d.contains outer inner := by
  induction inner using climb hv with
  | step id ih =>
    have hne : id ≠ c := ne_of_not_contains h
    refine Bool.eq_iff_iff.2 ?_
    rw [contains_iff (valid_place hv hp hc hnot anchor), contains_iff hv, parent?_place hv hp hc hnot anchor hne]
    refine or_congr_right (exists_congr fun q => and_congr_right fun hq => ?_)
    rw [ih q hq (not_contains_parent? hv h hq)]

end

/-! ## A tree and its links -/

theorem find?_of_subtree (hv : d.Valid) {n : Node L} {cs : Forest (Node L)} (h : (n, cs) ∈ d.forest.subtrees) :
    d.find? n.id = some (n, cs) := by
  rw [Document.find?, find?_eq_subtrees]
  refine find?_of_unique h (isNode_iff.2 rfl) fun t ht hp => ?_
  have hn : (d.forest.subtrees.map (·.1.id)).Nodup := by
    have := hv.nodup
    rwa [ids, labels_eq_subtrees, List.map_map] at this
  exact List.inj_on_of_nodup_map hn ht h (isNode_iff.1 hp)

theorem children_of_subtree (hv : d.Valid) {n : Node L} {cs : Forest (Node L)} (h : (n, cs) ∈ d.forest.subtrees) :
    d.children n.id = cs.roots.map (·.id) := by
  rw [Document.children, Document.childForest, find?_of_subtree hv h]
  rfl

/-- two forests of the same nodes with the same links are the same -/
theorem forest_congr (hv : d.Valid) (hv' : d'.Valid) (hnode : ∀ id, d'.node? id = d.node? id) :
    ∀ f g : Forest (Node L), f.subtrees ⊆ d.forest.subtrees → g.subtrees ⊆ d'.forest.subtrees →
      (∀ n ∈ f.labels, d'.children n.id = d.children n.id) → g.roots.map (·.id) = f.roots.map (·.id) → g = f := by
  intro f
  induction f with
  | nil =>
    rintro (_ | ⟨b, bs, rest⟩) - - - hroots
    · rfl
    · cases hroots
  | cons a as rest iha ihr =>
    rintro (_ | ⟨b, bs, rest'⟩) hf hg hsame hroots
    · cases hroots
    obtain ⟨hid, hrest⟩ := List.cons.inj hroots
    have hid : b.id = a.id := hid
    have ha := hf List.mem_cons_self
    have hb := hg List.mem_cons_self
    have hnodes : some b = some a := by
      have h1 : d'.node? b.id = some b := by rw [node?, find?_of_subtree hv' hb]; rfl
      have h2 : d.node? a.id = some a := by rw [node?, find?_of_subtree hv ha]; rfl
      rw [← h1, ← h2, hid, hnode]
    obtain rfl := Option.some.inj hnodes
    have hchildren := hsame b List.mem_cons_self
    rw [children_of_subtree hv ha, children_of_subtree hv' hb] at hchildren
    rw [iha bs (fun t ht => hf (List.mem_cons_of_mem _ (List.mem_append_left _ ht)))
        (fun t ht => hg (List.mem_cons_of_mem _ (List.mem_append_left _ ht)))
        (fun n hn => hsame n (List.mem_cons_of_mem _ (List.mem_append_left _ hn))) hchildren,
      ihr rest' (fun t ht => hf (List.mem_cons_of_mem _ (List.mem_append_right _ ht)))
        (fun t ht => hg (List.mem_cons_of_mem _ (List.mem_append_right _ ht)))
        (fun n hn => hsame n (List.mem_cons_of_mem _ (List.mem_append_right _ hn))) hrest]

/-- a tree is the same if the links in it are -/
theorem treeOf_congr (hv : d.Valid) (hv' : d'.Valid) (hnode : ∀ id, d'.node? id = d.node? id)
    (hsame : ∀ x, d.contains id x = true → d'.children x = d.children x) : d'.treeOf id = d.treeOf id := by
  rw [treeOf, treeOf]
  cases hf : d.find? id with
  | none =>
    have hn : d'.node? id = none := by rw [hnode, node?, hf]; rfl
    rw [find?_eq_node?, hn]
    rfl
  | some t =>
    obtain ⟨n, cs⟩ := t
    have hn : d'.node? id = some n := by rw [hnode, node?, hf]; rfl
    obtain ⟨hid, hs, -⟩ := find?_subtree hv hf
    have hf' : d'.find? id = some (n, d'.childForest id) := by rw [find?_eq_node?, hn]; rfl
    obtain ⟨-, hs', -⟩ := find?_subtree hv' hf'
    rw [hf']
    refine congrArg (tree n) (forest_congr hv hv' hnode cs _ (fun t ht => subtrees_trans hs ht)
      (fun t ht => subtrees_trans hs' ht) (fun m hm => hsame m.id ?_) ?_)
    · have hcs : d.childForest id = cs := by rw [Document.childForest, hf]; rfl
      rw [Document.contains, hcs, Bool.or_eq_true]
      exact .inr (List.any_eq_true.2 ⟨m, hm, isNode_iff.2 rfl⟩)
    · have hcs : d.children id = cs.roots.map (·.id) := by rw [← hid]; exact children_of_subtree hv hs
      rw [← hcs]
      exact hsame id (contains_self d id)

end Document

end LiveMarkup
