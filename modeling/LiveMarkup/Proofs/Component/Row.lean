/-
Nested blocks in the place of their markers.

A slot's text, if it has one, and each child is mounted before its marker, and the markers are taken out. Either way a
forest takes the place of a marker in the tree of the fragment; what else the document holds is left alone, but for `G`,
which is what markers have left behind. `Spotted` says which markers are still to come.

- `mountRow_insets`: texts are put in the places of slots, and the markers of empty slots are taken out;
- `mountRow_spec`: the children of a row are mounted, or one of them fails.
-/
import LiveMarkup.Proofs.Component.Bound

namespace LiveMarkup

open Markup Marker Forest

variable {H : Host}

/-! ## One marker -/

namespace Document

variable {L : Type} {d : Document L} {r : Bare} {Y G K : Forest Bare} {s : NodeId}

theorem replace_in_tree (hr : s ≠ r.id) (hK : s ∉ K.ids) (x : Forest Bare) :
    (tree r Y ++ (G ++ K)).replace s x = tree r (Y.replace s x) ++ (G.replace s x ++ K) := by
  have hne : (if isNode s r then some x else none) = none := by
    rw [isNode_eq_false_iff.2 hr.symm]
    rfl
  have hK' := replace_of_not_mem hK x
  rw [replace] at hK' ⊢
  rw [fill_append, fill_append, hK', fill_tree_of_none hne]
  rfl

theorem prune_eq_replace (s : NodeId) (f : Forest Bare) : f.prune (isNode s) = f.replace s nil := prune_eq_fill _ f

/-- a marker in the tree of a fragment is taken out -/
theorem Holds.discard_in (h : d.Holds (tree r Y ++ (G ++ K))) (hr : s ≠ r.id) (hK : s ∉ K.ids) (held : NodeId → Bool) :
    ∃ G', ((d.detach s).release held s).Holds (tree r (Y.replace s nil) ++ (G' ++ K)) := by
  obtain ⟨g, hg⟩ := h.discard held s
  rw [prune_eq_replace, replace_in_tree hr hK] at hg
  refine ⟨G.replace s nil ++ g, hg.of_same ?_⟩
  simp only [Same, trees_append, ← Multiset.coe_eq_coe, ← Multiset.coe_add]
  abel

/-- a root that is no fragment goes before the anchor -/
theorem Holds.insertRoot {f cs : Forest Bare} {n : Bare}
    (h : d.Holds (f ++ tree n cs)) (hk : n.kind.isFragment = false) {target : NodeId} (ht : target ∈ f.ids)
    (anchor : Option NodeId) : (d.insertBefore target n.id anchor).Holds
      (f.graft (isNode target) (Forest.insertBefore (isAnchor anchor) (tree n cs))) := by
  obtain ⟨-, -, hapart⟩ := List.nodup_append.1 (ids_append f (tree n cs) ▸ h.nodup)
  have hsub : (n, cs) ∈ (f ++ tree n cs).subtrees := by
    rw [subtrees_append]
    exact List.mem_append_right _ List.mem_cons_self
  have hnot : target ∉ (tree n cs).ids := fun hin => hapart _ ht _ hin rfl
  have hinsert : d.insertBefore target n.id anchor = d.place target n.id anchor := by
    rw [Document.insertBefore, h.contains hsub hnot, h.isFragment hsub, hk]
    rfl
  have hplace := h.place (by rw [ids_append]; exact List.mem_append_left _ ht) hsub hnot anchor
  have hpruned : (f ++ tree n cs).prune (isNode n.id) = f := by
    have hself : (tree n cs).prune (isNode n.id) = nil := by
      rw [tree, prune, if_pos (isNode_iff.2 rfl)]
      rfl
    rw [prune_append, hself, append_nil, prune_of_none (isNode_of_not_mem fun hin => ?_)]
    exact hapart _ hin _ (by rw [ids_tree]; exact List.mem_cons_self) rfl
  rw [hinsert]
  rwa [hpruned] at hplace

/-- a marker is taken out before which a forest was put: the forest takes its place, and `U` stays what it was -/
theorem Holds.discard_mounted {M U g : Forest Bare} {n : Bare} {cs : Forest Bare}
    (hf : (tree r Y ++ (G ++ K)).ids.Nodup) (hs : (n, cs) ∈ (tree r Y ++ (G ++ K)).subtrees)
    (hcs : cs.roots.any (isNode s) = true)
    (h : d.Holds ((tree r Y ++ (G ++ K)).graft (isNode n.id) (Forest.insertBefore (isAnchor (some s)) M) ++ (U ++ g)))
    (hr : s ≠ r.id) (hK : s ∉ K.ids) (hM : s ∉ M.ids) (hU : s ∉ U.ids) (held : NodeId → Bool) :
    ∃ G', ((d.detach s).release held s).Holds (tree r (Y.replace s M) ++ (G' ++ (U ++ K))) := by
  obtain ⟨g', hg⟩ := h.discard held s
  have hsids : s ∈ (tree r Y ++ (G ++ K)).ids := by
    obtain ⟨o, ho, hos⟩ := List.any_eq_true.1 hcs
    rw [← isNode_iff.1 hos]
    exact mem_ids_of_mem (labels_subset_of_subtree hs (roots_subset_labels cs ho))
  have hreplace : ((tree r Y ++ (G ++ K)).graft (isNode n.id) (Forest.insertBefore (isAnchor (some s)) M)).prune
      (isNode s) = (tree r Y ++ (G ++ K)).replace s M :=
    prune_graft_insertBefore (count_isNode_of_not_mem hM) (count_isNode_of_mem hf hsids)
      (count_isNode_of_mem hf (mem_ids_of_mem (mem_labels_of_subtree hs))) hs (isNode_iff.2 rfl) hcs
  rw [prune_append, prune_append, prune_of_none (isNode_of_not_mem hU), hreplace, replace_in_tree hr hK] at hg
  refine ⟨G.replace s M ++ (g.prune (isNode s) ++ g'), hg.of_same ?_⟩
  simp only [Same, trees_append, ← Multiset.coe_eq_coe, ← Multiset.coe_add]
  abel

end Document

/-! ## Markers still to come -/

/-- markers of a category in a live skeleton that have not been filled; `others` are ids of other nodes -/
structure Spotted (f : Forest Bare) (fills : List (Marker × Forest Bare)) (category : Category)
    (spots : List (Nat × NodeId)) (others : List NodeId) : Prop where
  nodup : f.ids.Nodup
  distinct : (spots.map (·.1)).Nodup
  carrier : ∀ e ∈ spots, ∃ n, n.id = e.2 ∧ f.Carrier ⟨category, e.1⟩ n
  free : ∀ e ∈ spots, fills.lookup ⟨category, e.1⟩ = none
  filled : ∀ e ∈ spots, ∀ x ∈ fills, e.2 ∉ x.2.ids
  outside : ∀ e ∈ spots, e.2 ∉ others

theorem Spotted.step {f : Forest Bare} {fills : List (Marker × Forest Bare)} {category : Category} {i : Nat} {s : NodeId}
    {spots : List (Nat × NodeId)} {others : List NodeId} (h : Spotted f fills category ((i, s) :: spots) others)
    {x : Forest Bare} (hx : ∀ id ∈ x.ids, id ∈ others) :
    (f.fillBy fills).replace s x = f.fillBy (fills ++ [(⟨category, i⟩, x)]) ∧
      Spotted f (fills ++ [(⟨category, i⟩, x)]) category spots others := by
  obtain ⟨n, rfl, hn⟩ := h.carrier _ List.mem_cons_self
  have hd := h.distinct
  rw [List.map_cons, List.nodup_cons] at hd
  refine ⟨fillBy_replace hn h.nodup (h.free _ List.mem_cons_self) (h.filled _ List.mem_cons_self) x, h.nodup, hd.2,
    fun e he => h.carrier e (List.mem_cons_of_mem _ he), fun e he => ?_, fun e he y hy => ?_,
    fun e he => h.outside e (List.mem_cons_of_mem _ he)⟩
  · have hin : e.1 ∈ spots.map (·.1) := List.mem_map_of_mem he
    have hne : (⟨category, e.1⟩ : Marker) ≠ ⟨category, i⟩ := fun hm => hd.1 ((Marker.mk.inj hm).2 ▸ hin)
    rw [List.lookup_append, h.free e (List.mem_cons_of_mem _ he), List.lookup_cons, beq_false_of_ne hne]
    rfl
  · rcases List.mem_append.1 hy with hy | hy
    · exact h.filled e (List.mem_cons_of_mem _ he) y hy
    · obtain rfl := List.mem_singleton.1 hy
      exact fun hid => h.outside e (List.mem_cons_of_mem _ he) (hx _ hid)

/-- markers of a category are still to come when those of another have been filled -/
theorem Spotted.append {f : Forest Bare} {category : Category} {others : List NodeId} {fills more : List (Marker × Forest Bare)} {spots : List (Nat × NodeId)}
    (h : Spotted f fills category spots others) (hne : ∀ e ∈ more, e.1.category ≠ category)
    (hids : ∀ e ∈ more, ∀ id ∈ e.2.ids, id ∈ others) : Spotted f (fills ++ more) category spots others := by
  refine ⟨h.nodup, h.distinct, h.carrier, fun e he => ?_, fun e he x hx => ?_, h.outside⟩
  · rw [List.lookup_append, h.free e he, Option.none_or]
    refine lookup_eq_none fun hin => ?_
    obtain ⟨x, hx, hm⟩ := List.mem_map.1 hin
    exact hne x hx (by rw [hm])
  · rcases List.mem_append.1 hx with hx | hx
    · exact h.filled e he x hx
    · exact fun hin => h.outside e he (hids x hx _ hin)

/-! ## Children -/

/-- a component has been mounted, and then has what `P` says in the document; unmarked and unreachable pieces of it may
be left over -/
structure MountedAs (P : Component H → Forest Bare → Prop) (c : Component H) (X Q : Forest Bare) (target : NodeId)
    (anchor : Option NodeId) (w : World H) (o : Outcome H (Component H)) : Prop where
  ok : o.result = .ok ()
  template : o.self.core.template = c.core.template
  props : o.self.props = c.props
  backend : o.world.backend = w.backend
  found : ∀ u, c.core.template.Exposed u → u.Findable
  stands : ∃ M G, o.world.document.Holds (Q.graft (Document.isNode target) (Forest.insertBefore (isAnchor anchor) M) ++ G) ∧
    M.ids.Subperm X.ids ∧ (c.core.template.Everywhere Template.Sound → P o.self M)

/-- a component with empty slots has been mounted -/
abbrev Mounted (g : History) : Component H → Forest Bare → Forest Bare → NodeId → Option NodeId → World H →
    Outcome H (Component H) → Prop :=
  MountedAs (Stands .mounted g.mounted)

theorem MountedAs.imp {P P' : Component H → Forest Bare → Prop} {c : Component H} {X Q : Forest Bare} {target : NodeId}
    {anchor : Option NodeId} {w : World H} {o : Outcome H (Component H)} (h : MountedAs P c X Q target anchor w o)
    (hp : ∀ c M, P c M → P' c M) : MountedAs P' c X Q target anchor w o := by
  obtain ⟨M, G, hM, hids, hs⟩ := h.stands
  exact ⟨h.ok, h.template, h.props, h.backend, h.found, M, G, hM, hids, fun hsound => hp _ _ (hs hsound)⟩

/-- a row has been mounted; children at `shown` placeholders have been, whatever became of the others -/
structure RowMounted (g : Nat → History) (row : List (Kid H)) (shown : Nat → Prop) (r : Bare) (f Q : Forest Bare)
    (fills : List (Marker × Forest Bare)) (w : World H) (o : Outcome H (List (Nested H))) (row' : List (Kid H)) : Prop where
  ok : o.result = .ok ()
  backend : o.world.backend = w.backend
  self : o.self = row'.map Kid.nested
  alike : List.Forall₂ Kid.Alike row row'
  holds : ∃ G, o.world.document.Holds
    (tree r (f.fillBy (fills ++ row'.map fun k => (⟨.child, k.index⟩, k.ground))) ++ (G ++ Q))
  ids : (row'.flatMap fun k => k.ground.ids).Subperm (row.flatMap fun k => k.ground.ids)
  found : ∀ k ∈ row, shown k.index → ∀ u, k.component.core.template.Exposed u → u.Findable
  stands : (∀ k ∈ row, shown k.index ∧ k.component.core.template.Everywhere Template.Sound) →
    ∀ k ∈ row', Stands .mounted (g k.index).mounted k.component k.ground

theorem RowMounted.cons {g : Nat → History} {k : Kid H} (k' : Kid H) {row row' : List (Kid H)} {shown : Nat → Prop} {r : Bare} {f Q : Forest Bare}
    {fills : List (Marker × Forest Bare)} {w w' : World H} {o : Outcome H (List (Nested H))}
    (h : RowMounted g row shown r f Q (fills ++ [(⟨.child, k.index⟩, k'.ground)]) w' o row')
    (hb : w'.backend = w.backend) (hk : k.Alike k') (hids : k'.ground.ids.Subperm k.ground.ids)
    (hf : shown k.index → ∀ u, k.component.core.template.Exposed u → u.Findable)
    (hs : shown k.index ∧ k.component.core.template.Everywhere Template.Sound →
      Stands .mounted (g k'.index).mounted k'.component k'.ground) :
    RowMounted g (k :: row) shown r f Q fills w (o.map (k'.nested :: ·)) (k' :: row') := by
  refine ⟨h.ok, h.backend.trans hb, ?_, .cons hk h.alike, ?_, ?_, ?_, fun hall => ?_⟩
  · rw [Outcome.map, h.self]
    rfl
  · obtain ⟨G, hG⟩ := h.holds
    refine ⟨G, ?_⟩
    rw [List.map_cons, hk.index, List.append_cons]
    exact hG
  · rw [List.flatMap_cons, List.flatMap_cons]
    exact hids.append h.ids
  · exact List.forall_mem_cons.2 ⟨hf, h.found⟩
  · rw [List.forall_mem_cons] at hall
    exact List.forall_mem_cons.2 ⟨hs hall.1, h.stands hall.2⟩

variable [ForeignBlocks H]

/-- wherever this component is put, it is mounted, or some marker in it is not found -/
def Mounts (g : History) (c : Component H) (X : Forest Bare) : Prop :=
  ∀ (target : NodeId) (anchor : Option NodeId) (w : World H) (Q : Forest Bare), w.backend = .faithful →
    w.document.Holds (Q ++ X) → target ∈ Q.ids → (∀ a ∈ anchor, a ∉ X.ids) →
      Mounted g c X Q target anchor w (c.mountCreated target anchor w) ∨
        (∃ fault, (c.mountCreated target anchor w).result = .error fault) ∧
          ¬ c.core.template.Everywhere Template.Findable

theorem mountRow_cons (fragment : NodeId) (held later : List NodeId) (index : Nat) (atRoot : Bool) (block : Block H)
    (row : List (Nested H)) (s : NodeId) (spots : List (Nat × NodeId)) (w : World H) :
    mountRow fragment held later (.mk index atRoot block :: row) ((index, s) :: spots) w =
      match w.document.parent? s with
      | none => (mountRow fragment held later row spots
          (w.discard (held ++ (spots.map (·.2) ++ later)) s)).map (.mk index atRoot block :: ·)
      | some parent =>
        match (block.mountCreated parent (some s) w).result with
        | .error fault => .fail fault (.mk index (parent == fragment) (block.mountCreated parent (some s) w).self :: row)
            (block.mountCreated parent (some s) w).world
        | .ok _ =>
          (mountRow fragment (held ++ (block.mountCreated parent (some s) w).self.handles) later row spots
            ((block.mountCreated parent (some s) w).world.discard
              (held ++ (block.mountCreated parent (some s) w).self.handles ++ (spots.map (·.2) ++ later)) s)).map
            (.mk index (parent == fragment) (block.mountCreated parent (some s) w).self :: ·) := by
  have htake : ((index, s) :: spots).takeWhile (·.1 ≠ index) = [] := by simp
  have hdrop : ((index, s) :: spots).dropWhile (·.1 ≠ index) = (index, s) :: spots := by simp
  rw [mountRow, htake, hdrop]
  rfl

/-- a marker that no block of the row is for is taken out -/
theorem mountRow_skip (fragment : NodeId) (held later : List NodeId) (row : List (Nested H)) {i : Nat}
    (hi : i ∉ row.map Nested.index) (s : NodeId) (spots : List (Nat × NodeId)) (w : World H) :
    ∃ held', mountRow fragment held later row ((i, s) :: spots) w =
      mountRow fragment held later row spots (w.discard held' s) := by
  cases row with
  | nil => exact ⟨_, rfl⟩
  | cons n row =>
    obtain ⟨index, atRoot, block⟩ := n
    rw [List.map_cons, List.mem_cons, not_or] at hi
    have hne : i ≠ index := hi.1
    have htake : ((i, s) :: spots).takeWhile (·.1 ≠ index) = (i, s) :: spots.takeWhile (·.1 ≠ index) :=
      List.takeWhile_cons_of_pos (by simpa using hne)
    have hdrop : ((i, s) :: spots).dropWhile (·.1 ≠ index) = spots.dropWhile (·.1 ≠ index) :=
      List.dropWhile_cons_of_pos (by simpa using hne)
    refine ⟨held ++ (spots.dropWhile (·.1 ≠ index)).map (·.2) ++ later ++ (spots.takeWhile (·.1 ≠ index)).map (·.2), ?_⟩
    rw [mountRow, mountRow, htake, hdrop]
    rfl

/-- mounting a text that has its node puts the node before the anchor -/
theorem TextBlock.mountCreated_eq {t : TextBlock} {id : NodeId} (h : t.node = some id) (target : NodeId)
    (anchor : Option NodeId) (w : World H) : (Block.text t : Block H).mountCreated target anchor w =
      .ok (.text t) (w.edit (·.insertBefore target id anchor)) := by
  rw [Block.mountCreated, TextBlock.mount, TextBlock.create, h]
  dsimp only
  rw [h]

section

variable {r : Bare} {f Q : Forest Bare} {others : List NodeId}

/-- what is in the tree of a fragment has a parent -/
theorem Document.Holds.parent?_ne_none {L : Type} {d : Document L} {Y R : Forest Bare} (h : d.Holds (tree r Y ++ R))
    {s : NodeId} (hs : s ∈ Y.ids) : d.parent? s ≠ none := by
  obtain ⟨n, hn, rfl⟩ := List.mem_map.1 hs
  obtain ⟨hr, hapart, -⟩ := h.apart
  have hin : n ∈ (tree r Y ++ R).labels := by
    rw [labels_append, labels_tree]
    exact List.mem_append_left _ (List.mem_cons_of_mem _ hn)
  have hroot : n ∉ (tree r Y ++ R).roots := by
    rw [roots_append, List.mem_append]
    rintro (hin | hin)
    · exact hr (List.mem_singleton.1 hin ▸ hs)
    · exact hapart _ hs (mem_ids_of_mem (roots_subset_labels R hin))
  obtain ⟨t, ht, hnt⟩ := exists_parent hin hroot
  rw [h.parent? ht (List.any_eq_true.2 ⟨n, hnt, Document.isNode_iff.2 rfl⟩)]
  exact Option.some_ne_none _

/-- the parent of a node is where the node is -/
theorem Document.Holds.parent?_in {L : Type} {d : Document L} {Y X : Forest Bare} (h : d.Holds (Y ++ X)) {s p : NodeId}
    (hp : d.parent? s = some p) (hs : s ∉ X.ids) :
    ∃ n cs, (n, cs) ∈ Y.subtrees ∧ n.id = p ∧ cs.roots.any (Document.isNode s) = true := by
  obtain ⟨⟨n, cs⟩, hsub, rfl, hcs⟩ := h.parent?_eq_some hp
  rw [subtrees_append, List.mem_append] at hsub
  refine ⟨n, cs, hsub.resolve_right fun hin => ?_, rfl, hcs⟩
  obtain ⟨o, ho, hos⟩ := List.any_eq_true.1 hcs
  rw [Document.isNode_iff] at hos
  exact hs (hos ▸ mem_ids_of_mem (labels_subset_of_subtree hin (roots_subset_labels cs ho)))

/-- texts are put in the places of their slots' markers, and the other markers of slots are taken out -/
theorem mountRow_insets {insets : List Inset} (held later : List NodeId) (spots : List (Nat × NodeId))
    (his : (insets.map Inset.index).Sublist (spots.map (·.1))) (w : World H)
    {fills : List (Marker × Forest Bare)} {G : Forest Bare} (h : Spotted f fills .slot spots others)
    (hr : r.id ∈ others) (hK : ∀ id ∈ (join (insets.map Inset.ground) ++ Q).ids, id ∈ others)
    (hshown : ∀ e ∈ spots, e.1 ∈ insets.map Inset.index → ∀ fills : List (Marker × Forest Bare),
      fills.lookup ⟨.slot, e.1⟩ = none → e.2 ∈ (f.fillBy fills).ids)
    (hw : w.document.Holds (tree r (f.fillBy fills) ++ (G ++ (join (insets.map Inset.ground) ++ Q)))) :
    (mountRow r.id held later (insets.map Inset.nested) spots w).result = .ok () ∧
      (mountRow r.id held later (insets.map Inset.nested) spots w).self.map Nested.block = insets.map Inset.block ∧
      (mountRow r.id held later (insets.map Inset.nested) spots w).world.backend = w.backend ∧
      ∃ G', (mountRow r.id held later (insets.map Inset.nested) spots w).world.document.Holds
        (tree r (f.fillBy (fills ++ spots.map fun e => (⟨.slot, e.1⟩, contentAt insets e.1))) ++ (G' ++ Q)) := by
  induction spots generalizing insets held w fills G with
  | nil =>
    obtain rfl := List.map_eq_nil_iff.1 (List.sublist_nil.1 his)
    refine ⟨rfl, rfl, rfl, G, ?_⟩
    rw [List.map_nil (f := fun e : Nat × NodeId => ((⟨.slot, e.1⟩ : Marker), contentAt [] e.1)), List.append_nil]
    exact hw
  | cons e spots ih =>
    obtain ⟨i, s⟩ := e
    have hs := h.outside _ List.mem_cons_self
    have hsr : s ≠ r.id := fun e => hs (by rw [e]; exact hr)
    have hd := h.distinct
    rw [List.map_cons, List.nodup_cons] at hd
    by_cases hi : i ∈ insets.map Inset.index
    · -- the first text is for this marker
      obtain ⟨a, insets, rfl, rfl, hrest⟩ : ∃ a as, insets = a :: as ∧ a.index = i ∧
          (as.map Inset.index).Sublist (spots.map (·.1)) := by
        cases insets with
        | nil => cases hi
        | cons a insets =>
          rcases List.cons_sublist_cons'.1 his with hlater | ⟨hai, hrest⟩
          · exact absurd (hlater.subset hi) hd.1
          · exact ⟨a, insets, rfl, hai, hrest⟩
      have hjoin : join ((a :: insets).map Inset.ground) = a.ground ++ join (insets.map Inset.ground) := rfl
      rw [hjoin, append_assoc] at hw hK
      have hKa : ∀ id ∈ a.ground.ids, id ∈ others := fun id hid => hK id (by
        rw [ids_append]
        exact List.mem_append_left _ hid)
      have hKrow : ∀ id ∈ (join (insets.map Inset.ground) ++ Q).ids, id ∈ others := fun id hid => hK id (by
        rw [ids_append]
        exact List.mem_append_right _ hid)
      have hsame : (tree r (f.fillBy fills) ++ (G ++ (a.ground ++ (join (insets.map Inset.ground) ++ Q)))).Same
          (tree r (f.fillBy fills) ++ (G ++ (join (insets.map Inset.ground) ++ Q)) ++ a.ground) := by
        simp only [Same, trees_append, ← Multiset.coe_eq_coe, ← Multiset.coe_add]
        abel
      have hw' := hw.of_same hsame
      obtain ⟨p, hp⟩ := Option.ne_none_iff_exists'.1 (hw.parent?_ne_none
        (hshown _ List.mem_cons_self List.mem_cons_self fills (h.free _ List.mem_cons_self)))
      obtain ⟨n, cs, hsub, rfl, hcs⟩ := hw'.parent?_in hp fun hin => hs (hKa _ hin)
      obtain ⟨hfill, hnext⟩ := h.step hKa
      have hnodup := (List.nodup_append.1 (ids_append _ a.ground ▸ hw'.nodup)).1
      have hM : (w.document.insertBefore n.id a.node (some s)).Holds ((tree r (f.fillBy fills) ++
          (G ++ (join (insets.map Inset.ground) ++ Q))).graft (Document.isNode n.id)
            (Forest.insertBefore (isAnchor (some s)) a.ground) ++ (nil ++ nil)) := by
        rw [append_nil, append_nil]
        exact hw'.insertRoot (n := ⟨a.node, .text a.data, [], 0⟩) rfl (mem_ids_of_mem (mem_labels_of_subtree hsub)) (some s)
      obtain ⟨G', hG'⟩ := Document.Holds.discard_mounted (U := nil) hnodup hsub hcs hM hsr (fun hin => hs (hKrow _ hin))
        (fun hin => hs (hKa _ hin)) List.not_mem_nil
        (held ++ (a.block : Block H).handles ++ (spots.map Prod.snd ++ later)).contains
      rw [hfill] at hG'
      obtain ⟨hok, hself, hb, G'', hG''⟩ := ih (held ++ (a.block : Block H).handles) hrest
        ((w.edit (·.insertBefore n.id a.node (some s))).discard
          (held ++ (a.block : Block H).handles ++ (spots.map Prod.snd ++ later)) s) hnext hKrow
        (fun e he hin => hshown e (List.mem_cons_of_mem _ he) (List.mem_cons_of_mem _ hin)) hG'
      rw [List.map_cons, Inset.nested, mountRow_cons, hp]
      dsimp only
      rw [Inset.block, TextBlock.mountCreated_eq rfl]
      refine ⟨hok, ?_, hb, G'', ?_⟩
      · rw [List.map_cons, ← hself]
        rfl
      · rw [List.map_cons, List.append_cons, contentAt_cons_self]
        refine (congrArg (fun l => Document.Holds _ (tree r (f.fillBy (fills ++ [(⟨.slot, a.index⟩, a.ground)] ++ l)) ++
          (G'' ++ Q))) (List.map_congr_left fun e he => ?_)).mp hG''
        have hin : e.1 ∈ spots.map (·.1) := List.mem_map_of_mem he
        have hne : a.index ≠ e.1 := fun he' => hd.1 (he' ▸ hin)
        rw [contentAt_cons_of_ne hne]
    · -- no text is for this marker
      have hrest : (insets.map Inset.index).Sublist (spots.map (·.1)) := by
        rcases List.sublist_cons_iff.1 his with hlater | ⟨l, hl, -⟩
        · exact hlater
        · exact absurd (hl ▸ List.mem_cons_self) hi
      obtain ⟨hfill, hnext⟩ := h.step (x := nil) fun _ hid => absurd hid List.not_mem_nil
      have hnested : i ∉ (insets.map (Inset.nested (H := H))).map Nested.index := by
        rw [List.map_map]
        exact hi
      obtain ⟨held', hskip⟩ := mountRow_skip r.id held later (insets.map Inset.nested) hnested s spots w
      obtain ⟨G', hG'⟩ := hw.discard_in hsr (fun hin => hs (hK _ hin)) held'.contains
      rw [hfill] at hG'
      rw [hskip, List.map_cons, List.append_cons, contentAt_eq_nil hi]
      exact ih held hrest (w.discard held' s) hnext hK
        (fun e he => hshown e (List.mem_cons_of_mem _ he)) hG'

/-- the children of a row are mounted one after another, up to the first that fails -/
theorem mountRow_spec (shown : Nat → Prop) {g : Nat → History} {row : List (Kid H)}
    (hk : ∀ k ∈ row, Mounts (g k.index) k.component k.ground) (held : List NodeId)
    (spots : List (Nat × NodeId)) (his : spots.map (·.1) = row.map Kid.index) (w : World H) (hb : w.backend = .faithful)
    {fills : List (Marker × Forest Bare)} {G : Forest Bare} (h : Spotted f fills .child spots others)
    (hr : r.id ∈ others) (hK : ∀ id ∈ (join (row.map Kid.ground) ++ Q).ids, id ∈ others)
    (hshown : ∀ e ∈ spots, shown e.1 → ∀ fills : List (Marker × Forest Bare), fills.lookup ⟨.child, e.1⟩ = none →
      e.2 ∈ (f.fillBy fills).ids)
    (hw : w.document.Holds (tree r (f.fillBy fills) ++ (G ++ (join (row.map Kid.ground) ++ Q)))) :
    (∃ row', RowMounted g row shown r f Q fills w (mountRow r.id held [] (row.map Kid.nested) spots w) row') ∨
      (∃ fault, (mountRow r.id held [] (row.map Kid.nested) spots w).result = .error fault) ∧
        ∃ k ∈ row, ¬ k.component.core.template.Everywhere Template.Findable := by
  induction row generalizing held spots w fills G with
  | nil =>
    obtain rfl : spots = [] := List.map_eq_nil_iff.1 his
    refine .inl ⟨[], rfl, rfl, rfl, .nil, ⟨G, ?_⟩, List.Subperm.refl _, fun _ h => absurd h List.not_mem_nil,
      fun _ _ h => absurd h List.not_mem_nil⟩
    rw [show fills ++ ([] : List (Kid H)).map (fun k => ((⟨.child, k.index⟩ : Marker), k.ground)) = fills from
      List.append_nil fills]
    exact hw
  | cons k row ih =>
    rw [List.forall_mem_cons] at hk
    obtain ⟨e, spots, rfl⟩ : ∃ e es, spots = e :: es := by
      cases spots with
      | nil => cases his
      | cons e es => exact ⟨e, es, rfl⟩
    obtain ⟨i, s⟩ := e
    obtain ⟨hi, hirest⟩ := List.cons.inj his
    obtain rfl : i = k.index := hi
    rw [List.forall_mem_cons] at hshown
    have hjoin : join ((k :: row).map Kid.ground) = k.ground ++ join (row.map Kid.ground) := rfl
    rw [hjoin, append_assoc] at hw hK
    have hKk : ∀ id ∈ k.ground.ids, id ∈ others := fun id hid => hK id (by
      rw [ids_append]
      exact List.mem_append_left _ hid)
    have hKrow : ∀ id ∈ (join (row.map Kid.ground) ++ Q).ids, id ∈ others := fun id hid => hK id (by
      rw [ids_append]
      exact List.mem_append_right _ hid)
    have hs := h.outside _ List.mem_cons_self
    have hsr : s ≠ r.id := fun e => hs (by rw [e]; exact hr)
    have hsrow : s ∉ (join (row.map Kid.ground) ++ Q).ids := fun hin => hs (hKrow _ hin)
    rw [List.map_cons, Kid.nested, mountRow_cons]
    cases hp : w.document.parent? s with
    | none =>
      -- the marker has lost its place: the child is left as it is
      obtain ⟨hfill, hnext⟩ := h.step (x := nil) fun _ hid => absurd hid List.not_mem_nil
      rw [← append_assoc G] at hw
      have hlost : ¬ shown k.index := fun hsh =>
        hw.parent?_ne_none (hshown.1 hsh fills (h.free _ List.mem_cons_self)) hp
      obtain ⟨G', hG'⟩ := hw.discard_in hsr hsrow (held ++ (spots.map Prod.snd ++ [])).contains
      rw [hfill] at hG'
      dsimp only
      rcases ih hk.2 held spots hirest (w.discard (held ++ (spots.map (·.2) ++ [])) s) hb hnext hKrow hshown.2 hG' with
        ⟨row', hrow⟩ | ⟨⟨fault, herr⟩, j, hj, hno⟩
      · refine .inl ⟨⟨k.index, k.atRoot, k.component, nil⟩ :: row', ?_⟩
        exact hrow.cons ⟨k.index, k.atRoot, k.component, nil⟩ rfl ⟨rfl, rfl⟩ (List.nil_subperm)
          (fun hsh => absurd hsh hlost) fun hsh => absurd hsh.1 hlost
      · exact .inr ⟨⟨fault, herr⟩, j, List.mem_cons_of_mem _ hj, hno⟩
    | some p =>
      have hsame : (tree r (f.fillBy fills) ++ (G ++ (k.ground ++ (join (row.map Kid.ground) ++ Q)))).Same
          (tree r (f.fillBy fills) ++ (G ++ (join (row.map Kid.ground) ++ Q)) ++ k.ground) := by
        simp only [Same, trees_append, ← Multiset.coe_eq_coe, ← Multiset.coe_add]
        abel
      have hw' := hw.of_same hsame
      obtain ⟨n, cs, hsub, rfl, hcs⟩ := hw'.parent?_in hp fun hin => hs (hKk _ hin)
      have hanchor : ∀ a ∈ some s, a ∉ k.ground.ids := fun a ha hin => by
        obtain rfl := Option.mem_some_iff.1 ha
        exact hs (hKk _ hin)
      dsimp only
      rw [Block.mountCreated]
      rcases hk.1 n.id (some s) w _ hb hw' (mem_ids_of_mem (mem_labels_of_subtree hsub)) hanchor with
        hm | ⟨⟨fault, herr⟩, hno⟩
      · obtain ⟨M, left, hM, hids, hstands⟩ := hm.stands
        have hMothers : ∀ id ∈ M.ids, id ∈ others := fun id hid => hKk id (hids.subset hid)
        obtain ⟨hfill, hnext⟩ := h.step hMothers
        have hnodup := (List.nodup_append.1 (ids_append _ k.ground ▸ hw'.nodup)).1
        obtain ⟨o, ho⟩ : ∃ o, (k.component.mountCreated n.id (some s) w).map Block.component = o := ⟨_, rfl⟩
        have hresult : o.result = .ok () := ho ▸ hm.ok
        have hworld : o.world = (k.component.mountCreated n.id (some s) w).world := ho ▸ rfl
        have hself : o.self = .component (k.component.mountCreated n.id (some s) w).self := ho ▸ rfl
        rw [← hworld] at hM
        rw [ho, hresult]
        dsimp only
        obtain ⟨G', hG'⟩ := Document.Holds.discard_mounted (U := nil) hnodup hsub hcs hM hsr hsrow
          (fun hin => hs (hMothers _ hin)) List.not_mem_nil (held ++ o.self.handles ++ (spots.map Prod.snd ++ [])).contains
        rw [hfill] at hG'
        have hb' : o.world.backend = w.backend := by rw [hworld, hm.backend]
        rcases ih hk.2 (held ++ o.self.handles) spots hirest
          (o.world.discard (held ++ o.self.handles ++ (spots.map (·.2) ++ [])) s) (hb'.trans hb) hnext hKrow hshown.2
          hG' with ⟨row', hrow⟩ | ⟨⟨fault, herr⟩, j, hj, hno⟩
        · refine .inl ⟨⟨k.index, n.id == r.id, (k.component.mountCreated n.id (some s) w).self, M⟩ :: row', ?_⟩
          rw [hself]
          rw [hself] at hrow
          exact hrow.cons ⟨k.index, n.id == r.id, (k.component.mountCreated n.id (some s) w).self, M⟩ hb'
            ⟨rfl, hm.template⟩ hids (fun _ => hm.found) fun hsh => hstands hsh.2
        · exact .inr ⟨⟨fault, by rw [Outcome.map]; exact herr⟩, j, List.mem_cons_of_mem _ hj, hno⟩
      · rw [show ((k.component.mountCreated n.id (some s) w).map Block.component).result = .error fault from herr]
        exact .inr ⟨⟨fault, rfl⟩, k, List.mem_cons_self, hno⟩

end

end LiveMarkup
