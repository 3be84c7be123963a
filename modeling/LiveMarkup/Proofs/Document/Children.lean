/-
The children of a node after a change.

What an onlooker sees of a change at one node is the list of its children. Three changes matter there:

- `Holds.children_map`: nodes are touched, and all of them stay where they are;
- `frees_detach`: a node is taken from its parent, and the others keep their order;
- `Holds.children_graft`: a forest is put before an anchor, and what was there stands around it.
-/
import LiveMarkup.Proofs.Document.Change

namespace LiveMarkup

open Forest

variable {L : Type}

/-! ## Touching nodes -/

/-- a change of nodes after which they are the same nodes: text, data and attributes may be others -/
structure Touch (h : Bare → Bare) : Prop where
  id : ∀ n, (h n).id = n.id
  tag : ∀ n, (h n).kind.tag? = n.kind.tag?
  fragment : ∀ n, (h n).kind.isFragment = n.kind.isFragment

namespace Touch

variable {g h : Bare → Bare}

theorem refl : Touch fun n => n := ⟨fun _ => rfl, fun _ => rfl, fun _ => rfl⟩

theorem comp (hg : Touch g) (hh : Touch h) : Touch fun n => g (h n) :=
  ⟨fun n => (hg.id _).trans (hh.id n), fun n => (hg.tag _).trans (hh.tag n),
    fun n => (hg.fragment _).trans (hh.fragment n)⟩

/-- changing the kind of some nodes -/
theorem of_kind {g : Kind → Kind} (ht : ∀ k, (g k).tag? = k.tag?) (hf : ∀ k, (g k).isFragment = k.isFragment)
    (pick : Bare → Bool) : Touch fun n => if pick n then n.mapKind g else n := by
  refine ⟨fun n => ?_, fun n => ?_, fun n => ?_⟩
  · split <;> rfl
  · split
    · exact ht n.kind
    · rfl
  · split
    · exact hf n.kind
    · rfl

end Touch

theorem Kind.isFragment_withData (data : String) (k : Kind) : (k.withData data).isFragment = k.isFragment := by
  cases k <;> rfl

theorem Kind.isFragment_mapAttributes (g : Attributes → Attributes) (k : Kind) :
    (k.mapAttributes g).isFragment = k.isFragment := by
  cases k <;> rfl

namespace Forest

theorem update_eq_map {α : Type} (pick : α → Bool) (g : α → α) (f : Forest α) :
    f.update pick g = f.map fun a => if pick a then g a else a := by
  induction f with
  | nil => rfl
  | cons a cs rest ihc ihr => rw [update, map, ihc, ihr]

theorem map_map {α β γ : Type} (g : β → γ) (h : α → β) (f : Forest α) : (f.map h).map g = f.map fun a => g (h a) := by
  induction f with
  | nil => rfl
  | cons a cs rest ihc ihr => rw [map, map, map, ihc, ihr]

theorem map_self {α : Type} (f : Forest α) : (f.map fun a => a) = f := by
  induction f with
  | nil => rfl
  | cons a cs rest ihc ihr => rw [map, ihc, ihr]

theorem ids_map {h : Bare → Bare} (ht : Touch h) (f : Forest Bare) : (f.map h).ids = f.ids := by
  rw [ids, labels_map, List.map_map]
  exact List.map_congr_left fun n _ => ht.id n

end Forest

/-! ## Taking a node out -/

namespace Forest

variable {α : Type} {pick : α → Bool}

theorem roots_prune (f : Forest α) : (f.prune pick).roots = f.roots.filter (!pick ·) := by
  induction f with
  | nil => rfl
  | cons a cs rest _ ih =>
    rw [prune, roots, List.filter_cons]
    cases pick a
    · exact congrArg (a :: ·) ih
    · exact ih

/-- what is left after pruning was there, with what is pruned below it -/
theorem exists_of_subtree_prune {f as : Forest α} {a : α} (h : (a, as) ∈ (f.prune pick).subtrees) :
    ∃ bs, (a, bs) ∈ f.subtrees ∧ as = bs.prune pick := by
  induction f with
  | nil => cases h
  | cons b ds rest ihd ihr =>
    rw [prune] at h
    rw [subtrees]
    split at h
    · obtain ⟨bs, hbs, rfl⟩ := ihr h
      exact ⟨bs, List.mem_cons_of_mem _ (List.mem_append_right _ hbs), rfl⟩
    · rw [subtrees, List.mem_cons, List.mem_append] at h
      rcases h with h | h | h
      · obtain ⟨rfl, rfl⟩ := Prod.mk.inj h
        exact ⟨ds, List.mem_cons_self, rfl⟩
      · obtain ⟨bs, hbs, rfl⟩ := ihd h
        exact ⟨bs, List.mem_cons_of_mem _ (List.mem_append_left _ hbs), rfl⟩
      · obtain ⟨bs, hbs, rfl⟩ := ihr h
        exact ⟨bs, List.mem_cons_of_mem _ (List.mem_append_right _ hbs), rfl⟩

end Forest

namespace Document

variable {d d' : Document L} {f g : Forest Bare}

/-! ## Children -/

theorem exists_subtree_of_id {id : NodeId} (hid : id ∈ f.ids) : ∃ n cs, (n, cs) ∈ f.subtrees ∧ n.id = id := by
  obtain ⟨n, hn, rfl⟩ := List.mem_map.1 hid
  obtain ⟨cs, hcs⟩ := Forest.exists_subtree hn
  exact ⟨n, cs, hcs, rfl⟩

theorem Holds.children_eq_nil (h : d.Holds f) {id : NodeId} (hid : id ∉ f.ids) : d.children id = [] := by
  rw [Document.children, Document.childForest, h.find?_none hid]
  rfl

/-- children are nodes of the document -/
theorem Holds.mem_children (h : d.Holds f) {id c : NodeId} (hc : c ∈ d.children id) : id ∈ f.ids ∧ c ∈ f.ids := by
  by_cases hid : id ∈ f.ids
  · obtain ⟨n, cs, hs, rfl⟩ := exists_subtree_of_id hid
    rw [h.children hs] at hc
    refine ⟨hid, List.map_subset _ (fun m hm => ?_) hc⟩
    exact labels_subset_of_subtree hs (roots_subset_labels cs hm)
  · rw [h.children_eq_nil hid] at hc
    cases hc

theorem Holds.children_subset (h : d.Holds (f ++ g)) {id : NodeId} (hid : id ∈ f.ids) : d.children id ⊆ f.ids := by
  obtain ⟨n, cs, hcs, rfl⟩ := exists_subtree_of_id hid
  rw [h.children (f := f ++ g) (by rw [subtrees_append]; exact List.mem_append_left _ hcs)]
  exact List.map_subset _ fun m hm => labels_subset_of_subtree hcs (roots_subset_labels cs hm)

/-- a node's children are where its tree is, whatever else the documents hold -/
theorem Holds.children_append {k : Forest Bare} (h : d.Holds (f ++ g)) (h' : d'.Holds (f ++ k)) {id : NodeId}
    (hid : id ∈ f.ids) : d'.children id = d.children id := by
  obtain ⟨n, cs, hcs, rfl⟩ := exists_subtree_of_id hid
  have hin : ∀ k : Forest Bare, (n, cs) ∈ (f ++ k).subtrees := fun k => by
    rw [subtrees_append]
    exact List.mem_append_left _ hcs
  rw [h.children (hin g), h'.children (hin k)]

theorem Holds.nodup_children (h : d.Holds f) (id : NodeId) : (d.children id).Nodup := by
  by_cases hid : id ∈ f.ids
  · obtain ⟨n, cs, hs, rfl⟩ := exists_subtree_of_id hid
    rw [h.children hs]
    have hsub := ((roots_sublist_labels cs).trans (List.sublist_cons_self n _)).trans (subtree_sublist hs)
    exact (hsub.map Node.id).nodup h.nodup
  · rw [h.children_eq_nil hid]
    exact List.nodup_nil

/-- touched nodes are where they were -/
theorem Holds.children_map (h : d.Holds f) {t : Bare → Bare} (ht : Touch t) (h' : d'.Holds (f.map t)) (id : NodeId) :
    d'.children id = d.children id := by
  by_cases hid : id ∈ f.ids
  · obtain ⟨n, cs, hs, rfl⟩ := exists_subtree_of_id hid
    have hs' : (t n, cs.map t) ∈ (f.map t).subtrees := by
      rw [subtrees_map]
      exact List.mem_map_of_mem (f := fun s : Bare × Forest Bare => (t s.1, s.2.map t)) hs
    rw [h.children hs, ← ht.id n, h'.children hs', roots_map, List.map_map]
    exact List.map_congr_left fun m _ => ht.id m
  · rw [h.children_eq_nil hid, h'.children_eq_nil (by rwa [ids_map ht])]

/-- a forest that is put before an anchor is there with all that was -/
theorem ids_graft_insertBefore {target : NodeId} (hf : f.ids.Nodup) (ht : target ∈ f.ids) (anchor : Option NodeId)
    (x : Forest Bare) :
    (f.graft (isNode target) (Forest.insertBefore (isAnchor anchor) x)).ids.Perm (f.ids ++ x.ids) := by
  rw [ids, ids, ids, ← List.map_append]
  exact (labels_graft_perm (count_isNode_of_mem hf ht) (labels_insertBefore_perm (isAnchor anchor) x)).map Node.id

/-- a forest that is put before an anchor has what was there around it, the anchor right behind it -/
theorem Holds.children_graft {x k : Forest Bare} {target : NodeId} {anchor : Option NodeId} (h : d.Holds (f ++ g))
    (ht : target ∈ f.ids) (ha : ∀ a ∈ anchor, a ∈ d.children target)
    (h' : d'.Holds (f.graft (isNode target) (Forest.insertBefore (isAnchor anchor) x) ++ k)) :
    ∃ before after, d.children target = before ++ after ∧
      d'.children target = before ++ x.roots.map Node.id ++ after ∧ after.head? = anchor := by
  obtain ⟨n, cs, hcs, rfl⟩ := exists_subtree_of_id ht
  have hin : (n, cs) ∈ (f ++ g).subtrees := by
    rw [subtrees_append]
    exact List.mem_append_left _ hcs
  have hout : (n, Forest.insertBefore (isAnchor anchor) x cs) ∈
      (f.graft (isNode n.id) (Forest.insertBefore (isAnchor anchor) x) ++ k).subtrees := by
    rw [subtrees_append]
    exact List.mem_append_left _ (subtree_graft_of_pick
      (count_isNode_of_mem (List.nodup_append.1 (ids_append f g ▸ h.nodup)).1 ht) hcs (isNode_iff.2 rfl))
  rw [h.children hin] at ha ⊢
  rw [h'.children hout]
  -- the place of the anchor is found root by root
  clear hin hout hcs h'
  induction cs with
  | nil =>
    refine ⟨[], [], rfl, ?_, ?_⟩
    · rw [Forest.insertBefore, List.nil_append, List.append_nil]
    · cases anchor with
      | none => rfl
      | some a => exact absurd (ha a rfl) List.not_mem_nil
  | cons c cs rest _ ih =>
    rw [Forest.insertBefore]
    by_cases hc : isAnchor anchor c = true
    · rw [if_pos hc]
      refine ⟨[], (cons c cs rest).roots.map Node.id, rfl, by rw [roots_append, List.map_append, List.nil_append], ?_⟩
      obtain ⟨a, rfl, hca⟩ := (Option.any_eq_true _ _).1 hc
      exact congrArg some (isNode_iff.1 hca)
    · rw [if_neg hc]
      have hne : ∀ a ∈ anchor, a ∈ rest.roots.map Node.id := by
        intro a haa
        rcases List.mem_cons.1 (ha a haa) with rfl | hin
        · exact absurd ((Option.any_eq_true _ _).2 ⟨_, haa, isNode_iff.2 rfl⟩) hc
        · exact hin
      obtain ⟨before, after, hb, hi, hhead⟩ := ih hne
      exact ⟨c.id :: before, after, congrArg (c.id :: ·) hb, congrArg (c.id :: ·) hi, hhead⟩

/-! ## Taking nodes out -/

/-- these nodes have been taken from their parents, and nothing else has been moved -/
structure Frees (ids : List NodeId) (d d' : Document L) : Prop where
  holds : ∀ F K, d.Holds (F ++ K) → (∀ id ∈ ids, id ∉ K.ids) → ∃ F', F'.ids.Perm F.ids ∧ d'.Holds (F' ++ K)
  children : d.Valid → ∀ id, d'.children id = (d.children id).filter (· ∉ ids)

theorem Frees.refl (d : Document L) : Frees [] d d :=
  ⟨fun F _ h _ => ⟨F, .refl _, h⟩, fun _ _ => (List.filter_eq_self.2 fun _ _ => by simp).symm⟩

theorem Frees.valid {ids : List NodeId} (h : Frees ids d d') (hv : d.Valid) : d'.Valid := by
  obtain ⟨F', -, hF'⟩ := h.holds d.forest.bare nil (by rw [append_nil]; exact hv) fun _ _ => List.not_mem_nil
  exact hF'.valid

theorem Frees.trans {xs ys : List NodeId} {d'' : Document L} (h : Frees xs d d') (h' : Frees ys d' d'') :
    Frees (xs ++ ys) d d'' := by
  refine ⟨fun F K hF hK => ?_, fun hv id => ?_⟩
  · obtain ⟨F', hp, hF'⟩ := h.holds F K hF fun id hid => hK id (List.mem_append_left _ hid)
    obtain ⟨F'', hp', hF''⟩ := h'.holds F' K hF' fun id hid => hK id (List.mem_append_right _ hid)
    exact ⟨F'', hp'.trans hp, hF''⟩
  · rw [h'.children (h.valid hv), h.children hv, List.filter_filter]
    refine List.filter_congr fun c _ => ?_
    simp [Bool.and_comm]

/-- what nothing was taken from is all there -/
theorem Frees.holds_nil (h : Frees [] d d') (hf : d.Holds f) : d'.Holds f := by
  obtain ⟨F', hp, hF'⟩ := h.holds nil f hf fun _ hin => absurd hin List.not_mem_nil
  have hnil : F' = nil := by
    cases F' with
    | nil => rfl
    | cons n cs rest => exact absurd hp (by simp)
  rwa [hnil] at hF'

theorem find?_of_parent? (h : d.Holds f) {id p : NodeId} (hp : d.parent? id = some p) :
    ∃ n cs, (n, cs) ∈ f.subtrees ∧ n.id = id ∧ n ∉ f.roots := by
  obtain ⟨t, ht, -, hid⟩ := h.parent?_eq_some hp
  obtain ⟨o, ho, hoid⟩ := List.any_eq_true.1 hid
  obtain rfl := isNode_iff.1 hoid
  obtain ⟨os, hos⟩ := exists_tree ho
  refine ⟨o, os, subtrees_trans ht (trees_subset_subtrees _ hos), rfl, fun hr => ?_⟩
  exact Bool.false_ne_true ((not_child_of_root h.nodup hr t ht).symm.trans hid)

theorem frees_detach (d : Document L) (id : NodeId) : Frees [id] d (d.detach id) := by
  have hroot : d.parent? id = none → d.detach id = d := fun hp => by rw [Document.detach, hp]
  refine ⟨fun F K hF hK => ?_, fun hv target => ?_⟩
  · cases hp : d.parent? id with
    | none => exact ⟨F, .refl _, by rwa [hroot hp]⟩
    | some p =>
      obtain ⟨n, cs, hs, rfl, hr⟩ := find?_of_parent? hF hp
      have hdetach := hF.detach hs hr
      have hKn : n.id ∉ K.ids := hK _ List.mem_cons_self
      have hsF : (n, cs) ∈ F.subtrees := by
        rw [subtrees_append] at hs
        refine (List.mem_append.1 hs).resolve_right fun hin => hKn ?_
        exact mem_ids_of_mem (mem_labels_of_subtree hin)
      rw [prune_append, prune_of_none (isNode_of_not_mem hKn)] at hdetach
      refine ⟨F.prune (isNode n.id) ++ tree n cs, ?_, hdetach.of_same ?_⟩
      · have hcount := count_isNode_of_mem (List.nodup_append.1 (ids_append F K ▸ hF.nodup)).1
          (mem_ids_of_mem (mem_labels_of_subtree hsF))
        rw [ids, labels_append, labels_tree]
        exact ((labels_prune_perm hcount hsF (isNode_iff.2 rfl)).map Node.id).symm
      · simp only [Same, trees_append, ← Multiset.coe_eq_coe, ← Multiset.coe_add]
        abel
  · have hmem : ∀ c : NodeId, (decide (c ∉ [id])) = !decide (c = id) := fun c => by simp
    simp only [hmem]
    cases hp : d.parent? id with
    | none =>
      rw [hroot hp]
      refine (List.filter_eq_self.2 fun c hc => ?_).symm
      -- a child has a parent
      have hne : c ≠ id := by
        rintro rfl
        obtain ⟨ht, -⟩ := hv.mem_children hc
        obtain ⟨n, cs, hs, rfl⟩ := exists_subtree_of_id ht
        rw [hv.children hs] at hc
        obtain ⟨m, hm, rfl⟩ := List.mem_map.1 hc
        rw [hv.parent? hs (List.any_eq_true.2 ⟨m, hm, isNode_iff.2 rfl⟩)] at hp
        cases hp
      simpa using hne
    | some p =>
      obtain ⟨n, cs, hs, rfl, hr⟩ := find?_of_parent? hv hp
      have hdetach := hv.detach hs hr
      have hcount := count_isNode_of_mem hv.nodup (mem_ids_of_mem (mem_labels_of_subtree hs))
      have hperm := (labels_prune_perm hcount hs (isNode_iff.2 rfl)).map Node.id
      rw [List.map_append] at hperm
      by_cases ht : target ∈ d.forest.bare.ids
      · rcases List.mem_append.1 (hperm.mem_iff.1 ht) with hin | hin
        · obtain ⟨m, as, has, rfl⟩ := exists_subtree_of_id hin
          obtain ⟨ms, hms, rfl⟩ := exists_of_subtree_prune has
          have has' : (m, ms.prune (isNode n.id)) ∈ (d.forest.bare.prune (isNode n.id) ++ tree n cs).subtrees := by
            rw [subtrees_append]
            exact List.mem_append_left _ has
          rw [hdetach.children has', hv.children hms, roots_prune, List.filter_map]
          refine congrArg (List.map Node.id) (List.filter_congr fun k _ => ?_)
          rw [isNode, Function.comp_apply]
          rfl
        · -- the node is the one that was taken out, or below it
          have hin : target ∈ (tree n cs).ids := by rw [ids_tree]; exact hin
          obtain ⟨m, ms, hms, rfl⟩ := exists_subtree_of_id hin
          have hms' : (m, ms) ∈ (d.forest.bare.prune (isNode n.id) ++ tree n cs).subtrees := by
            rw [subtrees_append]
            exact List.mem_append_right _ hms
          have hbelow : (m, ms) = (n, cs) ∨ (m, ms) ∈ cs.subtrees := by
            simpa [tree, subtrees] using hms
          have hmsf : (m, ms) ∈ d.forest.bare.subtrees := by
            rcases hbelow with he | hin
            · rw [he]; exact hs
            · exact subtrees_trans hs hin
          rw [hdetach.children hms', hv.children hmsf]
          refine (List.filter_eq_self.2 fun c hc => ?_).symm
          have hcs : c ∈ cs.ids := by
            refine List.map_subset _ (fun k hk => ?_) hc
            rcases hbelow with he | hin
            · obtain ⟨rfl, rfl⟩ := Prod.mk.inj he
              exact roots_subset_labels _ hk
            · exact labels_subset_of_subtree hin (roots_subset_labels _ hk)
          have hnot : n.id ∉ cs.ids := (List.nodup_cons.1 (((subtree_sublist hs).map Node.id).nodup hv.nodup)).1
          have hne : c ≠ n.id := fun e => hnot (e ▸ hcs)
          simpa using hne
      · have ht' : target ∉ (d.forest.bare.prune (isNode n.id) ++ tree n cs).ids := by
          rw [ids_append, ids_tree]
          exact fun hin => ht (hperm.mem_iff.2 hin)
        rw [hv.children_eq_nil ht, hdetach.children_eq_nil ht']
        rfl

end Document

end LiveMarkup
