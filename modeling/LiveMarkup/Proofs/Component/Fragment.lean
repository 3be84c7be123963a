/-
In the tree of a fragment, and the texts of a component.

While a component is mounted, everything happens below its fragment, next to whatever else the document holds. A search
below the fragment fails or leads to a node there (`World.marker_cases`); changing such a node and putting a root in its
place leave all else alone. The text nodes of a component take the places of their markers one after another
(`bindTexts_spec`), unless one of the markers is not found.
-/
import LiveMarkup.Component.Mount
import LiveMarkup.Proofs.Component.Stands

namespace LiveMarkup

open Markup Marker Forest

variable {H : Host}

/-! ## In the tree of a fragment -/

def fragmentNode (id : NodeId) : Bare := ⟨id, .fragment, [], 0⟩

namespace Document

variable {L : Type} {d : Document L} {r : Bare} {Y R : Forest Bare}

theorem Holds.apart (h : d.Holds (tree r Y ++ R)) : r.id ∉ Y.ids ∧ (∀ id ∈ Y.ids, id ∉ R.ids) ∧ r.id ∉ R.ids := by
  have hn := h.nodup
  rw [ids_append, ids_tree, List.nodup_append] at hn
  refine ⟨(List.nodup_cons.1 hn.1).1, fun id hid hr => hn.2.2 _ (List.mem_cons_of_mem _ hid) _ hr rfl, fun hr => ?_⟩
  exact hn.2.2 _ List.mem_cons_self _ hr rfl

theorem mem_subtrees_tree : (r, Y) ∈ (tree r Y ++ R).subtrees := by
  rw [subtrees_append]
  exact List.mem_append_left _ List.mem_cons_self

/-- changing a node below the fragment -/
theorem Holds.update_in (h : d.Holds (tree r Y ++ R)) {id : NodeId} (hid : id ∈ Y.ids) (g : Bare → Bare) :
    (tree r Y ++ R).update (isNode id) g = tree r (Y.update (isNode id) g) ++ R := by
  obtain ⟨hr, hapart, -⟩ := h.apart
  have hne : isNode id r = false := isNode_eq_false_iff.2 fun e => hr (e ▸ hid)
  rw [update_append, Forest.update_of_none (isNode_of_not_mem (hapart id hid)), tree, Forest.update, hne]
  rfl

/-- putting a tree in the place of a node below the fragment -/
theorem replace_in {id : NodeId} (hr : r.id ≠ id) (hR : id ∉ R.ids) (x : Forest Bare) :
    (tree r Y ++ R).replace id x = tree r (Y.replace id x) ++ R := by
  have hne : (if isNode id r then some x else none) = none := by
    rw [isNode_eq_false_iff.2 hr]
    rfl
  have hR' := replace_of_not_mem hR x
  rw [replace] at hR' ⊢
  rw [fill_append, hR', fill_tree_of_none hne]
  rfl

/-- a root takes the place of a node below the fragment -/
theorem Holds.replaceWith_in {n : Bare} {cs : Forest Bare} (h : d.Holds (tree r Y ++ (tree n cs ++ R)))
    (hk : n.kind.isFragment = false) {o : Bare} (ho : o ∈ Y.labels) :
    ∃ g, (d.replaceWith o.id n.id).Holds (tree r (Y.replace o.id (tree n cs)) ++ (R ++ g)) := by
  have h' : d.Holds (tree r Y ++ R ++ tree n cs) := h.of_same (by
    simp only [Same, trees_append, ← Multiset.coe_eq_coe, ← Multiset.coe_add]
    abel)
  obtain ⟨hr, hapart, -⟩ := h.apart
  have hoid := mem_ids_of_mem ho
  have hoR : o.id ∉ R.ids := fun hin => hapart _ hoid (by rw [ids_append]; exact List.mem_append_right _ hin)
  have hmem : o ∈ (tree r Y ++ R).labels := by
    rw [labels_append, labels_tree]
    exact List.mem_append_left _ (List.mem_cons_of_mem _ ho)
  have hroot : o ∉ (tree r Y ++ R).roots := by
    rw [roots_append, List.mem_append]
    rintro (hin | hin)
    · exact hr (List.mem_singleton.1 hin ▸ hoid)
    · exact hoR (mem_ids_of_mem (roots_subset_labels R hin))
  obtain ⟨g, hg⟩ := h'.replaceWith hk hmem hroot
  refine ⟨g, ?_⟩
  rwa [replace_in (fun e => hr (e ▸ hoid)) hoR, append_assoc] at hg

end Document

/-- a search for a marker below the fragment fails, or leads to a node that answers it -/
theorem World.marker_cases {w : World H} (hb : w.backend = .faithful) {r : Bare} {Y R : Forest Bare}
    (hw : w.document.Holds (tree r Y ++ R)) (m : Marker) :
    (w.marker r.id m = .error (.missingMarker m.name) ∧ ¬ Y.Has m) ∨
      ∃ n ∈ Y.labels, n.kind.answers m = true ∧ w.marker r.id m = .ok n.id := by
  have hfind : (if m.category.inTag then w.findAttribute? r.id m.name else w.findElement? r.id m.name) =
      w.document.firstBelow? r.id fun n => n.kind.answers m := by
    simp only [World.findAttribute?, World.findElement?, hb, Backend.faithful, if_true, Kind.answers]
    split <;> rfl
  rw [World.marker, hfind]
  have hcases : (w.document.firstBelow? r.id (fun n => n.kind.answers m) = none ∧
        ∀ n ∈ Y.labels, n.kind.answers m = false) ∨
      ∃ n ∈ Y.labels, n.kind.answers m = true ∧
        w.document.firstBelow? r.id (fun n => n.kind.answers m) = some n.id :=
    hw.firstBelow?_cases Document.mem_subtrees_tree fun _ => rfl
  rcases hcases with ⟨h, hnone⟩ | ⟨n, hn, ha, h⟩
  · rw [h]
    exact .inl ⟨rfl, fun ⟨n, hn, ha⟩ => Bool.eq_false_iff.1 (hnone n hn) ha⟩
  · rw [h]
    exact .inr ⟨n, hn, ha, rfl⟩

/-! ## Texts -/

/-- the text node of a cell in the place of its marker -/
def TextCell.fill (data : String → String) (cell : TextCell) : Marker × Forest Bare :=
  (⟨.text, cell.index⟩, cell.ground data)

section

variable {data : String → String} {ns : List Markup.Node} {start : NodeId}

theorem TextCell.not_has (cell : TextCell) (m : Marker) : ¬ (cell.ground data).Has m := by
  rintro ⟨n, hn, ha⟩
  rw [TextCell.ground, labels_tree] at hn
  obtain rfl := List.mem_singleton.1 hn
  simp [Kind.answers, Kind.tag?, Kind.attributes] at ha

theorem TextCell.not_has_fill (cells : List TextCell) (m : Marker) : ∀ e ∈ cells.map (TextCell.fill data), ¬ e.2.Has m := by
  rintro e he
  obtain ⟨cell, -, rfl⟩ := List.mem_map.1 he
  exact cell.not_has m

theorem TextCell.ids_fill {cells : List TextCell} {e : Marker × Forest Bare} (he : e ∈ cells.map (TextCell.fill data))
    {id : NodeId} (hid : id ∈ e.2.ids) : ∃ cell ∈ cells, cell.node = id := by
  obtain ⟨cell, hc, rfl⟩ := List.mem_map.1 he
  rw [TextCell.fill, TextCell.ground, ids_tree] at hid
  exact ⟨cell, hc, (List.mem_singleton.1 hid).symm⟩

/-- each text marker is found in its turn; those of `done` are gone -/
def TextsFound (data : String → String) (ns : List Markup.Node) (start : NodeId) (done : List TextCell) :
    List TextCell → Prop
  | [] => True
  | cell :: cells => ((planted ns start).fillBy (done.map (TextCell.fill data))).Has ⟨.text, cell.index⟩ ∧
      TextsFound data ns start (done ++ [cell]) cells

/-- cells for distinct markers that the skeleton carries once, with nodes outside the skeleton -/
structure TextCells (ns : List Markup.Node) (start : NodeId) (cells : List TextCell) : Prop where
  marked : ∀ cell ∈ cells, (markersOfAll ns).count ⟨.text, cell.index⟩ = 1
  indices : (cells.map (·.index)).Nodup
  nodes : ∀ cell ∈ cells, cell.node ∉ (planted ns start).ids

/-- the text nodes take the places of their markers, unless one of these is not found -/
theorem bindTexts_spec (cells done : List TextCell) (hc : TextCells ns start (done ++ cells)) (w : World H)
    (hb : w.backend = .faithful) {r : Bare} {R : Forest Bare}
    (hw : w.document.Holds (tree r ((planted ns start).fillBy (done.map (TextCell.fill data))) ++
      (join (cells.map (TextCell.ground data)) ++ R))) :
    ((bindTexts r.id cells w).result = .ok () ∧ TextsFound data ns start done cells ∧
        (bindTexts r.id cells w).world.backend = .faithful ∧
        ∃ g, (bindTexts r.id cells w).world.document.Holds
          (tree r ((planted ns start).fillBy ((done ++ cells).map (TextCell.fill data))) ++ (R ++ g))) ∨
      (∃ fault, (bindTexts r.id cells w).result = .error fault) ∧ ¬ TextsFound data ns start done cells := by
  induction cells generalizing done w R with
  | nil =>
    refine .inl ⟨rfl, trivial, hb, nil, ?_⟩
    rw [List.append_nil, append_nil]
    exact hw
  | cons cell cells ih =>
    rw [bindTexts]
    rcases World.marker_cases hb hw ⟨.text, cell.index⟩ with ⟨hm, hno⟩ | ⟨n, hn, ha, hm⟩
    · rw [hm]
      exact .inr ⟨⟨_, rfl⟩, fun h => hno h.1⟩
    · rw [hm]
      dsimp only
      have hcell : cell ∈ done ++ cell :: cells := List.mem_append_right _ List.mem_cons_self
      have hnS : n ∈ (planted ns start).labels := by
        rcases mem_labels_fillBy hn with h | ⟨e, he, h⟩
        · exact h
        · exact absurd ⟨n, h, ha⟩ (TextCell.not_has_fill done _ e he)
      have hcarrier := carrier_of_answers (hc.marked cell hcell) rfl hnS ha
      have hreplace : ((planted ns start).fillBy (done.map (TextCell.fill data))).replace n.id (cell.ground data) =
          (planted ns start).fillBy ((done ++ [cell]).map (TextCell.fill data)) := by
        rw [List.map_append]
        refine fillBy_replace hcarrier (nodup_planted ns start) (lookup_eq_none fun hin => ?_) (fun e he hid => ?_) _
        · have hi := hc.indices
          rw [List.map_append, List.map_cons, List.nodup_append] at hi
          rw [List.map_map, List.mem_map] at hin
          obtain ⟨c, hcd, he⟩ := hin
          exact hi.2.2 _ (List.mem_map_of_mem hcd) _ List.mem_cons_self (Marker.mk.inj he).2
        · obtain ⟨c, hcd, he⟩ := TextCell.ids_fill he hid
          exact hc.nodes c (List.mem_append_left _ hcd) (he ▸ mem_ids_of_mem hnS)
      rw [List.map_cons, join, List.foldr_cons, ← join, append_assoc] at hw
      obtain ⟨g, hg⟩ := hw.replaceWith_in (n := ⟨cell.node, .text (data cell.prop), [], 0⟩) rfl hn
      rw [show tree ⟨cell.node, .text (data cell.prop), [], 0⟩ nil = cell.ground data from rfl, hreplace,
        append_assoc] at hg
      have hstep := ih (done ++ [cell]) (by rw [List.append_assoc]; exact hc)
        (w.edit (·.replaceWith n.id cell.node)) hb hg
      rw [List.append_assoc] at hstep
      rcases hstep with ⟨hok, hfound, hb', g', hg'⟩ | ⟨herr, hno⟩
      · refine .inl ⟨hok, ⟨⟨n, hn, ha⟩, hfound⟩, hb', g ++ g', ?_⟩
        rw [append_assoc] at hg'
        exact hg'
      · exact .inr ⟨herr, fun h => hno h.2⟩

end

end LiveMarkup
