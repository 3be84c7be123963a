/-
Documents whose newer elements carry each marker once.

A component looks for markers below its own fragment, and what is there is newer than the component. `Neat m` says of a
document that from the node `m` on each element carries the marker of each attribute placeholder at most once, and that
what is below these nodes is none of the older ones, about which nothing is said. Every change keeps this that puts none of
the older nodes below the newer ones, and that copies no markup with a repeated marker.
-/
import LiveMarkup.Proofs.Document.Faces
import LiveMarkup.Proofs.Document.Writes
import LiveMarkup.Proofs.Template.Planted

namespace LiveMarkup

open Forest Marker

variable {L : Type}

/-- what is written into a node repeats no marker -/
theorem Writing.tidy_apply (w : Writing L) {n : Node L} (h : Tidy n.kind.attributes) :
    Tidy (w.apply n).kind.attributes := by
  obtain ⟨id, kind, listeners, ticket⟩ := n
  cases w with
  | setAttribute name value =>
    cases kind with
    | element tag attributes => exact h.set name value
    | _ => exact h
  | removeAttribute name =>
    cases kind with
    | element tag attributes => exact h.erase name
    | _ => exact h
  | renameAttribute source target value =>
    cases kind with
    | element tag attributes => exact h.rename source target value
    | _ => exact h
  | setData data => cases kind <;> exact h
  | listen event listener => exact h
  | unlisten ticket => exact h

/-- a copy of markup without repeated markers is tidy -/
theorem tidy_plant {nodes : List Markup.Node} (h : (markersOfAll nodes).Nodup) (id : NodeId) :
    ∀ n ∈ (Document.plant (L := L) nodes id).1.labels, Tidy n.kind.attributes := by
  intro n hn index hlt
  have hbare : n.bare ∈ (planted nodes id).labels := by
    rw [planted, ← (bare_plant (L := L) nodes id).1, bare, labels_map]
    exact List.mem_map_of_mem hn
  have hmarkers : (attributeMarkers n.kind.attributes).Nodup := by
    rw [← markers_planted nodes id, List.nodup_flatMap] at h
    exact (List.nodup_append.1 (h.1 n.bare hbare)).2.1
  calc (Entries.names n.kind.attributes).count (Marker.name ⟨.attribute, index⟩)
      = n.kind.attributes.countP (fun a => a.1 == Marker.name ⟨.attribute, index⟩) := by
        rw [Entries.names, List.count, List.countP_map]
        rfl
    _ ≤ n.kind.attributes.countP (fun a => ((ofAttribute? a.1).map (· == ⟨.attribute, index⟩)).getD false) := by
        refine List.countP_mono_left fun a _ ha => ?_
        rw [beq_iff_eq.1 ha, ofAttribute?_name rfl hlt, Option.map_some, beq_self_eq_true, Option.getD_some]
    _ = (attributeMarkers n.kind.attributes).count ⟨.attribute, index⟩ := by
        rw [attributeMarkers, List.count, List.countP_filterMap]
    _ ≤ 1 := List.nodup_iff_count_le_one.1 hmarkers _

namespace Document

/-- from `m` on, elements carry each marker once, and older nodes are not below -/
structure Neat (m : NodeId) (d : Document L) : Prop extends Intact d where
  floor : m ≤ d.fresh
  below : ∀ c p, d.parent? c = some p → m ≤ p → m ≤ c
  tidy : ∀ id n, m ≤ id → d.node? id = some n → Tidy n.kind.attributes

variable {m : NodeId} {d d' : Document L}

/-- nothing is newer than what is there -/
theorem Intact.neat (hd : d.Intact) : d.Neat d.fresh where
  toIntact := hd
  floor := Nat.le_refl _
  below c p h hp := absurd (hd.valid.below (mem_ids_of_parent? hd.valid h).1) (Nat.not_lt.2 hp)
  tidy id n hid hn :=
    absurd (hd.valid.below (mem_ids_of_node? hd.valid (by rw [hn]; exact Option.some_ne_none n))) (Nat.not_lt.2 hid)

namespace Neat

variable (h : d.Neat m)
include h

/-- what a newer node contains is newer -/
theorem le_of_contains {outer inner : NodeId} (ho : m ≤ outer) (hin : d.contains outer inner = true) : m ≤ inner := by
  induction inner using climb h.valid with
  | step id ih =>
    rcases (contains_iff h.valid).1 hin with rfl | ⟨p, hp, hin⟩
    · exact ho
    · exact h.below id p hp (ih p hp hin)

theorem once {id index : Nat} (hid : m ≤ id) (hi : index < indexLimit) : d.Once id (Marker.name ⟨.attribute, index⟩) :=
  fun n hn => h.tidy id n hid hn index hi

/-- nodes may go, and newer ones may get other parents -/
theorem shrink (hi : d'.Intact) (hf : d'.fresh = d.fresh) (hn : ∀ x n, d'.node? x = some n → d.node? x = some n)
    (hp : ∀ c p, d'.parent? c = some p → d.parent? c = some p ∨ m ≤ c) : d'.Neat m where
  toIntact := hi
  floor := hf ▸ h.floor
  below c p hc hmp := (hp c p hc).elim (fun hold => h.below c p hold hmp) id
  tidy id n hid hnode := h.tidy id n hid (hn id n hnode)

/-- tidy nodes may come as one new tree -/
theorem grow (hi : d'.Intact) (hf : d.fresh ≤ d'.fresh) (hg : d.Grows d')
    (hn : ∀ x n, d.fresh ≤ x → d'.node? x = some n → Tidy n.kind.attributes) : d'.Neat m where
  toIntact := hi
  floor := h.floor.trans hf
  below c p hc hmp := by
    by_cases hlt : c < d.fresh
    · exact h.below c p ((hg.parent c hlt).symm.trans hc) hmp
    · exact h.floor.trans (Nat.not_lt.1 hlt)
  tidy id n hid hnode := by
    by_cases hlt : id < d.fresh
    · exact h.tidy id n hid ((hg.node id hlt).symm.trans hnode)
    · exact hn id n (Nat.not_lt.1 hlt) hnode

theorem detach (id : NodeId) : (d.detach id).Neat m := by
  refine h.shrink (h.toIntact.detach id) (fresh_detach d id) (fun x n hn => (node?_detach h.valid id x).symm.trans hn)
    fun c p hc => .inl ?_
  by_cases hid : c = id
  · rw [hid, parent?_detach_self h.valid] at hc
    cases hc
  · exact (parent?_detach h.valid hid).symm.trans hc

theorem insertBefore (p : NodeId) {c : NodeId} (hc : m ≤ c) (anchor : Option NodeId) :
    (d.insertBefore p c anchor).Neat m := by
  have hmoves := relinks_insertBefore h.toIntact p c anchor
  refine h.shrink (h.toIntact.insertBefore p c anchor) (fresh_insertBefore d p c anchor)
    (fun x n hn => (hmoves.node x).symm.trans hn) fun x q hx => ?_
  by_cases hin : x ∈ d.pieces p c
  · refine .inr ?_
    rw [pieces] at hin
    split at hin
    · cases hin
    · split at hin
      · exact h.below x c ((mem_children_iff h.valid).1 hin) hc
      · exact List.mem_singleton.1 hin ▸ hc
  · exact .inl ((hmoves.stays x hin).symm.trans hx)

theorem replaceWith (old : NodeId) {new : NodeId} (hnew : m ≤ new) : (d.replaceWith old new).Neat m := by
  rw [Document.replaceWith]
  split
  · exact (h.insertBefore _ hnew _).detach old
  · exact h

theorem discard (held : NodeId → Bool) (id : NodeId) : (d.discard held id).Neat m :=
  h.shrink (h.toIntact.discard held id) (fresh_detach d id) (fun _ _ hn => node?_of_discard h.toIntact hn) fun _ _ hp =>
    .inl (parent?_of_discard h.toIntact hp)

theorem write (id : NodeId) (w : Writing L) : (w.perform id d).Neat m := by
  obtain ⟨hi, hw⟩ := rewrites_perform h.toIntact w id
  refine ⟨hi, ?_, fun c p hc => h.below c p ((hw.parent c).symm.trans hc), fun x n hx hn => ?_⟩
  · rw [Writing.perform_eq]
    exact h.floor
  · rw [hw.node] at hn
    obtain ⟨k, hk, rfl⟩ := Option.map_eq_some_iff.1 hn
    split
    · exact w.tidy_apply (h.tidy x k hx hk)
    · exact h.tidy x k hx hk

theorem renamed (inPlace : Bool) (id : NodeId) (source target value : String) :
    (d.renamed inPlace id source target value).Neat m := by
  cases inPlace with
  | true => exact h.write id (.renameAttribute source target value)
  | false => exact (h.write id (.removeAttribute source)).write id (.setAttribute target value)

theorem add {kind : Kind} (hk : Tidy kind.attributes) : (d.add kind).1.Neat m := by
  refine h.grow (h.toIntact.add kind) (Nat.le_succ _) (grows_add h.valid kind).1 fun x n hx hn => ?_
  rw [node?_add h.valid] at hn
  split at hn
  · cases hn
    exact hk
  · exact h.tidy x n (h.floor.trans hx) hn

theorem addFragment {nodes : List Markup.Node} (hn : (markersOfAll nodes).Nodup) : (d.addFragment nodes).1.Neat m := by
  obtain ⟨hle, -⟩ := plant_ids (L := L) nodes (d.fresh + 1)
  refine h.grow (h.toIntact.addFragment nodes) (Nat.le_of_succ_le hle) (grows_addFragment h.valid nodes).1
    fun x n hx hnode => ?_
  rw [node?_eq_labels] at hnode
  have hid := isNode_iff.1 (List.find?_some hnode)
  have hmem := List.mem_of_find?_eq_some hnode
  rw [Document.addFragment, labels_append, labels_tree, List.mem_append, List.mem_cons] at hmem
  rcases hmem with hmem | rfl | hmem
  · exact absurd (hid ▸ h.valid.below (mem_ids_of_mem hmem)) (Nat.not_lt.2 hx)
  · exact .nil
  · exact tidy_plant hn _ n hmem

end Neat

end Document

end LiveMarkup
