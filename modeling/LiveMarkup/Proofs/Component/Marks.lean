/-
Binding, as seen from outside.

Whatever binding a component comes to, it stays below the fragment: text nodes take the places of their markers, and
attributes change. What else there is in the document is left alone, also if a marker is missing on the way.

- `bindTexts_put`: the texts of a skeleton, however it has been touched;
- `Below.step`: one change of attributes below a fragment;
- `Core.Pends.bind`: all of it, in every outcome.
-/
import LiveMarkup.Proofs.Component.Unplaced

namespace LiveMarkup

open Markup Marker Forest

variable {H : Host}

/-! ## Touched skeletons -/

theorem Touch.marker? {t : Bare → Bare} (ht : Touch t) (n : Bare) : (t n).kind.marker? = n.kind.marker? :=
  Kind.marker?_of_tag? (ht.tag n)

namespace Forest

theorem map_fill {α : Type} {h : α → α} {e e' : α → Option (Forest α)} (he : ∀ a, e' (h a) = (e a).map (map h))
    (f : Forest α) : (f.fill e).map h = (f.map h).fill e' := by
  induction f with
  | nil => rfl
  | cons a cs rest ihc ihr =>
    rw [fill_cons, map_append, ihr, map, fill_cons]
    refine congrArg (· ++ _) ?_
    cases ha : e a with
    | some x => rw [fill_tree_of_some ha, fill_tree_of_some (x := x.map h) (by rw [he, ha]; rfl)]
    | none => rw [fill_tree_of_none ha, fill_tree_of_none (by rw [he, ha]; rfl), ← ihc]; rfl

/-- a filled skeleton is touched where it is, and so is what was put in -/
theorem map_fillBy {t : Bare → Bare} (ht : Touch t) (fills : List (Marker × Forest Bare)) (f : Forest Bare) :
    (f.fillBy fills).map t = (f.map t).fillBy (fills.map fun e => (e.1, e.2.map t)) := by
  refine map_fill (fun n => ?_) f
  rw [ht.marker?]
  cases n.kind.marker? with
  | none => rfl
  | some m =>
    rw [Option.bind_some, Option.bind_some]
    induction fills with
    | nil => rfl
    | cons e fills ih =>
      rw [List.map_cons, List.lookup_cons, List.lookup_cons]
      cases m == e.1 with
      | true => rfl
      | false => exact ih

section

variable {t : Bare → Bare} {ns : List Markup.Node} {start : NodeId} {m : Marker} {n : Bare}

theorem Carrier.map {f : Forest Bare} (h : f.Carrier m n) (ht : Touch t) : (f.map t).Carrier m (t n) := by
  refine ⟨?_, (ht.marker? n).trans h.marker, fun k hk hkm => ?_⟩
  · rw [labels_map]
    exact List.mem_map_of_mem h.mem
  · rw [labels_map] at hk
    obtain ⟨l, hl, rfl⟩ := List.mem_map.1 hk
    rw [h.unique l hl ((ht.marker? l).symm.trans hkm)]

/-- in a touched skeleton, too, the node that a marker's name leads to is the marker -/
theorem carrier_of_answers_map (ht : Touch t) (hc : (markersOfAll ns).count m = 1) (hm : m.category.inTag = false)
    (hn : n ∈ ((planted ns start).map t).labels) (ha : n.kind.answers m = true) :
    ((planted ns start).map t).Carrier m n := by
  rw [labels_map] at hn
  obtain ⟨k, hk, rfl⟩ := List.mem_map.1 hn
  rw [Kind.answers_of_tag? hm (ht.tag k)] at ha
  exact (carrier_of_answers hc hm hk ha).map ht

end

end Forest

/-! ## Texts -/

def TextCell.put (node : TextCell → Bare) (cell : TextCell) : Marker × Forest Bare :=
  (⟨.text, cell.index⟩, tree (node cell) nil)

/-- cells for distinct markers that the skeleton carries once, each with a text outside the skeleton -/
structure CellNodes (ns : List Markup.Node) (start : NodeId) (node : TextCell → Bare) (cells : List TextCell) : Prop where
  marked : ∀ cell ∈ cells, (markersOfAll ns).count ⟨.text, cell.index⟩ = 1
  indices : (cells.map (·.index)).Nodup
  nodes : ∀ cell ∈ cells, (node cell).id = cell.node ∧ (node cell).Plain
  outside : ∀ cell ∈ cells, cell.node ∉ (planted ns start).ids

section

variable {ns : List Markup.Node} {start : NodeId} {node : TextCell → Bare} {h : Bare → Bare}

/-- a text is no marker -/
theorem Node.Plain.not_answers {n : Bare} (hn : n.Plain) {m : Marker} (hm : m.category.inTag = false) :
    n.kind.answers m = false := by
  rw [Kind.answers, hm, hn.tag]
  rfl

theorem mem_put {cells : List TextCell} {e : Marker × Forest Bare} (he : e ∈ cells.map (TextCell.put node)) :
    ∃ cell ∈ cells, e.1 = ⟨.text, cell.index⟩ ∧ e.2 = tree (node cell) nil := by
  obtain ⟨cell, hc, rfl⟩ := List.mem_map.1 he
  exact ⟨cell, hc, rfl, rfl⟩

/-- what answers to an element marker once texts are in place is in the skeleton -/
theorem CellNodes.mem_of_answers {cells : List TextCell} (hc : CellNodes ns start node cells) {f : Forest Bare} {n : Bare}
    (hn : n ∈ (f.fillBy (cells.map (TextCell.put node))).labels) {m : Marker} (hm : m.category.inTag = false)
    (ha : n.kind.answers m = true) : n ∈ f.labels := by
  refine (mem_labels_fillBy hn).resolve_right ?_
  rintro ⟨e, he, hne⟩
  obtain ⟨cell, hcell, -, hx⟩ := mem_put he
  rw [hx, labels_tree] at hne
  obtain rfl := List.mem_singleton.1 hne
  exact Bool.false_ne_true (((hc.nodes cell hcell).2.not_answers hm).symm.trans ha)

theorem ids_textNodes (node : TextCell → Bare) (cells : List TextCell) :
    (textNodes node cells).ids = cells.map fun cell => (node cell).id := by
  induction cells with
  | nil => rfl
  | cons cell cells ih => exact congrArg ((node cell).id :: ·) ih

/-- the texts take the places of their markers, or a marker is missing; nothing else is moved -/
theorem bindTexts_put (hh : Touch h) (cells done : List TextCell) (hc : CellNodes ns start node (done ++ cells))
    (w : World H) (hb : w.backend = .faithful) {r : Bare} {R : Forest Bare}
    (hw : w.document.Holds (tree r (((planted ns start).map h).fillBy (done.map (TextCell.put node))) ++
      (textNodes node cells ++ R))) :
    (bindTexts r.id cells w).world.backend = w.backend ∧
      ((bindTexts r.id cells w).result = .ok () ∧ (∃ g, (bindTexts r.id cells w).world.document.Holds
          (tree r (((planted ns start).map h).fillBy ((done ++ cells).map (TextCell.put node))) ++ (R ++ g))) ∨
        (∃ fault, (bindTexts r.id cells w).result = .error fault) ∧
          ∃ Z, (bindTexts r.id cells w).world.document.Holds (Z ++ R)) := by
  induction cells generalizing done w R with
  | nil =>
    refine ⟨rfl, .inl ⟨rfl, nil, ?_⟩⟩
    rw [List.append_nil, append_nil]
    exact hw
  | cons cell cells ih =>
    rw [bindTexts]
    rcases World.marker_cases hb hw ⟨.text, cell.index⟩ with ⟨hm, -⟩ | ⟨n, hn, ha, hm⟩
    · rw [hm]
      exact ⟨rfl, .inr ⟨⟨_, rfl⟩, _, by rw [← append_assoc] at hw; exact hw⟩⟩
    · rw [hm]
      have hcell : cell ∈ done ++ cell :: cells := List.mem_append_right _ List.mem_cons_self
      obtain ⟨hid, hplain⟩ := hc.nodes cell hcell
      have hdone : CellNodes ns start node done :=
        ⟨fun c hd => hc.marked c (List.mem_append_left _ hd),
          (List.nodup_append.1 (List.map_append ▸ hc.indices)).1,
          fun c hd => hc.nodes c (List.mem_append_left _ hd), fun c hd => hc.outside c (List.mem_append_left _ hd)⟩
      have hcarrier := carrier_of_answers_map hh (hc.marked cell hcell) rfl (hdone.mem_of_answers hn rfl ha) ha
      have hreplace : (((planted ns start).map h).fillBy (done.map (TextCell.put node))).replace n.id
          (tree (node cell) nil) = ((planted ns start).map h).fillBy ((done ++ [cell]).map (TextCell.put node)) := by
        rw [List.map_append]
        refine fillBy_replace hcarrier (by rw [ids_map hh]; exact nodup_planted ns start)
          (lookup_eq_none fun hin => ?_) (fun e he hin => ?_) _
        · have hi := hc.indices
          rw [List.map_append, List.map_cons, List.nodup_append] at hi
          rw [List.map_map, List.mem_map] at hin
          obtain ⟨c, hcd, he⟩ := hin
          exact hi.2.2 _ (List.mem_map_of_mem hcd) _ List.mem_cons_self (Marker.mk.inj he).2
        · obtain ⟨c, hcd, -, hx⟩ := mem_put he
          rw [hx, ids_tree] at hin
          refine hc.outside c (List.mem_append_left _ hcd) ?_
          rw [← (hdone.nodes c hcd).1, ← List.mem_singleton.1 hin, ← ids_map hh]
          exact mem_ids_of_mem hcarrier.mem
      rw [textNodes, List.map_cons, join, List.foldr_cons, ← join, append_assoc] at hw
      obtain ⟨g, hg⟩ := hw.replaceWith_in hplain.fragment hn
      rw [hreplace, append_assoc, hid] at hg
      obtain ⟨hb', hcases⟩ := ih (done ++ [cell]) (by rw [List.append_assoc]; exact hc)
        (w.edit (·.replaceWith n.id cell.node)) hb hg
      refine ⟨hb', ?_⟩
      rw [List.append_assoc] at hcases
      rcases hcases with ⟨hok, g', hg'⟩ | ⟨herr, Z, hZ⟩
      · refine .inl ⟨hok, g ++ g', ?_⟩
        rw [append_assoc] at hg'
        exact hg'
      · refine .inr ⟨herr, Z ++ g, hZ.of_same ?_⟩
        simp only [Same, trees_append, ← Multiset.coe_eq_coe, ← Multiset.coe_add]
        abel

end

/-! ## Attributes -/

/-- what is below a fragment has been touched, and nothing else has -/
structure Below (r : Bare) (Y R : Forest Bare) (w : World H) : Prop where
  backend : w.backend = .faithful
  holds : ∃ t, Touch t ∧ w.document.Holds (tree r (Y.map t) ++ R)

namespace Below

variable {r : Bare} {Y R : Forest Bare} {w w' : World H}

theorem of_holds (hb : w.backend = .faithful) (hw : w.document.Holds (tree r Y ++ R)) : Below r Y R w :=
  ⟨hb, _, Touch.refl, by rw [map_self]; exact hw⟩

/-- attributes are changed where a marker was found -/
theorem step (h : Below r Y R w) {m : Marker} {id : NodeId} (hm : w.marker r.id m = .ok id)
    (g : Attributes → Attributes) (hb : w'.backend = w.backend)
    (hd : ∀ F, (w.document.updateAttributes id g).Holds F → w'.document.Holds F) : Below r Y R w' := by
  obtain ⟨t, ht, hw⟩ := h.holds
  rcases World.marker_cases h.backend hw m with ⟨hno, -⟩ | ⟨n, hn, -, hfound⟩
  · rw [hno] at hm
    cases hm
  · obtain rfl : n.id = id := Except.ok.inj (hfound.symm.trans hm)
    have hupdate := hw.updateAttributes n.id g
    rw [hw.update_in (mem_ids_of_mem hn), update_eq_map, map_map] at hupdate
    have htouch := Touch.of_kind (Kind.tag?_mapAttributes g) (Kind.isFragment_mapAttributes g) (Document.isNode n.id)
    exact ⟨hb.trans h.backend, _, htouch.comp ht, hd _ hupdate⟩

theorem bindAttributes (cells : List AttributeCell) (w : World H) (h : Below r Y R w) :
    Below r Y R (LiveMarkup.bindAttributes r.id cells w).world := by
  induction cells generalizing w with
  | nil => exact h
  | cons cell cells ih =>
    rw [LiveMarkup.bindAttributes]
    cases hm : w.marker r.id ⟨.attribute, cell.index⟩ with
    | error fault => exact h
    | ok element =>
      refine ih _ (h.step hm (Entries.rename (Marker.name ⟨.attribute, cell.index⟩) cell.name cell.value) rfl fun F hF => ?_)
      rw [World.renameAttribute, h.backend]
      exact hF

variable {T : Type}

theorem attachListeners (channel : Nat) (ps : List (Placeholder (Action H) T)) (index : Nat) (w : World H)
    (h : Below r Y R w) : Below r Y R (LiveMarkup.attachListeners r.id channel index ps w).world ∧
      ∀ cleanup ∈ (LiveMarkup.attachListeners r.id channel index ps w).self, cleanup.Quiet := by
  induction ps generalizing index w with
  | nil => exact ⟨h, fun _ hin => absurd hin List.not_mem_nil⟩
  | cons p ps ih =>
    cases p with
    | event event topic =>
      rw [LiveMarkup.attachListeners]
      dsimp only
      cases hm : w.marker r.id ⟨.event, index⟩ with
      | error fault => exact ⟨h, fun _ hin => absurd hin List.not_mem_nil⟩
      | ok element =>
        have hnext : Below r Y R ((w.edit (·.removeAttribute element (Marker.name ⟨.event, index⟩))).listen element event
            (.channel channel topic)).1 := h.step hm (Entries.erase _) rfl fun F hF => hF.listen _ _ _
        obtain ⟨hbelow, hquiet⟩ := ih (index + 1) _ hnext
        exact ⟨hbelow, List.forall_mem_cons.2 ⟨trivial, hquiet⟩⟩
    | _ => exact ih (index + 1) w h

theorem runActions (props : Props) (ps : List (Placeholder (Action H) T))
    (hquiet : ∀ run param, .action run param ∈ ps → Action.Quiet run) (index : Nat) (w : World H)
    (h : Below r Y R w) : Below r Y R (LiveMarkup.runActions r.id props index ps w).world ∧
      (∀ cleanup ∈ (LiveMarkup.runActions r.id props index ps w).self.1, cleanup.Quiet) ∧
      ∀ hook ∈ (LiveMarkup.runActions r.id props index ps w).self.2, hook.Quiet := by
  induction ps generalizing index w with
  | nil => exact ⟨h, fun _ hin => absurd hin List.not_mem_nil, fun _ hin => absurd hin List.not_mem_nil⟩
  | cons p ps ih =>
    have hrest : ∀ run param, .action run param ∈ ps → Action.Quiet run :=
      fun run param hin => hquiet run param (List.mem_cons_of_mem _ hin)
    cases p with
    | action run param =>
      rw [LiveMarkup.runActions]
      dsimp only
      cases hm : w.marker r.id ⟨.action, index⟩ with
      | error fault => exact ⟨h, fun _ hin => absurd hin List.not_mem_nil, fun _ hin => absurd hin List.not_mem_nil⟩
      | ok element =>
        obtain ⟨halike, hhandle⟩ := hquiet run param List.mem_cons_self element (param.bind props.get?)
          (w.edit (·.removeAttribute element (Marker.name ⟨.action, index⟩)))
        have hnext : Below r Y R (run element (param.bind props.get?)
            (w.edit (·.removeAttribute element (Marker.name ⟨.action, index⟩)))).1 :=
          h.step hm (Entries.erase _) halike.backend fun F hF => by
            rw [halike.document]
            exact hF
        obtain ⟨hbelow, hclean, hhooks⟩ := ih hrest (index + 1) _ hnext
        refine ⟨hbelow, fun cleanup hin => ?_, fun hook hin => ?_⟩
        · rcases List.mem_append.1 hin with hin | hin
          · rw [Option.mem_toList] at hin
            obtain ⟨f, hf, rfl⟩ := Option.map_eq_some_iff.1 hin
            exact hhandle.destroy f hf
          · exact hclean cleanup hin
        · rcases List.mem_append.1 hin with hin | hin
          · rw [Option.mem_toList] at hin
            obtain ⟨f, hf, rfl⟩ := Option.map_eq_some_iff.1 hin
            exact hhandle.update f hf
          · exact hhooks hook hin
    | _ => exact ih hrest (index + 1) w h

end Below

/-! ## All of it -/

namespace Core

variable {c : Core H} {r : Bare} {h : Bare → Bare} {node : TextCell → Bare} {R : Forest Bare}

/-- what a component has in its fragment once its texts are in place -/
def laid (c : Core H) (r : Bare) (h : Bare → Bare) (node : TextCell → Bare) : Forest Bare :=
  ((planted c.template.skeleton (r.id + 1)).map h).fillBy (c.textCells.map (TextCell.put node))

/-- what binding leaves behind: the component with what is to be undone, and everything else as it was -/
structure Binding (c : Core H) (r : Bare) (R : Forest Bare) (w : World H) (o : Outcome H (Core H)) : Prop where
  backend : o.world.backend = w.backend
  self : ∃ cells cleanups hooks, o.self = { c with attributeCells := cells, cleanups := cleanups, updateHooks := hooks }
  hushed : o.self.Hushed
  outcome : (o.result = .ok () ∧ ∃ h node g, Touch h ∧
      CellNodes c.template.skeleton (r.id + 1) node c.textCells ∧
      o.world.document.Holds (tree r (c.laid r h node) ++ (R ++ g))) ∨
    (∃ fault, o.result = .error fault) ∧ ∃ Z, o.world.document.Holds (Z ++ R)

theorem Binding.found {w : World H} {o : Outcome H (Core H)} (hbind : Binding c r R w o) (hok : o.result = .ok ()) :
    ∃ h node g, Touch h ∧ CellNodes c.template.skeleton (r.id + 1) node c.textCells ∧
      o.world.document.Holds (tree r (c.laid r h node) ++ (R ++ g)) := by
  rcases hbind.outcome with ⟨-, hfound⟩ | ⟨⟨fault, herr⟩, -⟩
  · exact hfound
  · exact absurd (herr.symm.trans hok) error_ne_ok

theorem Binding.holds {w : World H} {o : Outcome H (Core H)} (hbind : Binding c r R w o) :
    ∃ Z, o.world.document.Holds (Z ++ R) := by
  rcases hbind.outcome with ⟨-, h, node, g, -, -, hw⟩ | ⟨-, hZ⟩
  · refine ⟨tree r (c.laid r h node) ++ g, hw.of_same ?_⟩
    rw [← append_assoc]
    exact Same.right_comm _ R g
  · exact hZ

/-- a component that has been created and is left alone by others has its nodes -/
theorem Pends.cellNodes (hp : c.Pends r h node) (hm : c.template.Marked) {d : Document (Listener H.Handler)}
    (hd : d.Holds (c.pending r h node ++ R)) : CellNodes c.template.skeleton (r.id + 1) node c.textCells := by
  refine ⟨fun cell hc => ?_, by rw [hp.indices]; exact nodup_indicesOf _ _, hp.nodes, fun cell hc hin => ?_⟩
  · have hin : cell.index ∈ indicesOf c.template.placeholders .text := hp.indices ▸ List.mem_map_of_mem hc
    exact hm ⟨.text, cell.index⟩ (mem_markersFor_zero.2 (mem_indicesOf.1 hin))
  · have hnodup := hd.nodup
    rw [pending, ids_append, ids_append, ids_tree, ids_map hp.touch] at hnodup
    refine (List.nodup_append.1 (List.nodup_append.1 hnodup).1).2.2 _ (List.mem_cons_of_mem _ hin) cell.node ?_ rfl
    rw [ids_textNodes]
    exact List.mem_map.2 ⟨cell, hc, (hp.nodes cell hc).1⟩

theorem laid_map (c : Core H) (r : Bare) (h : Bare → Bare) (node : TextCell → Bare) {t : Bare → Bare} (ht : Touch t) :
    (c.laid r h node).map t = c.laid r (fun n => t (h n)) fun cell => t (node cell) := by
  rw [laid, map_fillBy ht, map_map, List.map_map]
  rfl

/-- **Binding** moves nothing but what the component has itself. -/
theorem Pends.bind (hp : c.Pends r h node) (hm : c.template.Marked) (hq : c.template.Quiet) {w : World H}
    (hb : w.backend = .faithful) (hw : w.document.Holds (c.pending r h node ++ R)) :
    Binding c r R w (c.bind r.id w) := by
  have hcells := hp.cellNodes hm hw
  rw [pending, append_assoc] at hw
  obtain ⟨hb1, htexts⟩ := bindTexts_put hp.touch c.textCells [] hcells w hb
    (by rw [List.map_nil, fillBy_nil]; exact hw)
  have hlaid : ∀ {w' : World H} {g : Forest Bare}, Below r (c.laid r h node) (R ++ g) w' →
      w'.backend = w.backend ∧ (∃ h node g, Touch h ∧ CellNodes c.template.skeleton (r.id + 1) node c.textCells ∧
        w'.document.Holds (tree r (c.laid r h node) ++ (R ++ g))) ∧ ∃ Z, w'.document.Holds (Z ++ R) := by
    intro w' g hbelow
    obtain ⟨t, ht, hw'⟩ := hbelow.holds
    rw [laid_map c r h node ht] at hw'
    have hrest : w'.document.Holds (tree r (c.laid r (fun n => t (h n)) fun cell => t (node cell)) ++ g ++ R) :=
      hw'.of_same (by
        simp only [Same, trees_append, ← Multiset.coe_eq_coe, ← Multiset.coe_add]
        abel)
    refine ⟨hbelow.backend.trans hb.symm, ⟨_, _, g, ht.comp hp.touch, ⟨hcells.marked, hcells.indices, fun cell hc => ?_,
      hcells.outside⟩, hw'⟩, _, hrest⟩
    obtain ⟨hid, hplain⟩ := hcells.nodes cell hc
    exact ⟨(ht.id _).trans hid, hplain.touch ht⟩
  -- the component itself has nothing to undo so far
  have hcleanups : ∀ {cleanups : List (Cleanup H)}, (∀ cleanup ∈ cleanups, cleanup.Quiet) →
      ∀ cleanup ∈ c.cleanups ++ cleanups, cleanup.Quiet := fun hquiet => by rw [hp.cleanups]; exact hquiet
  have hhooks : ∀ {hooks : List (UpdateHook H)}, (∀ hook ∈ hooks, hook.Quiet) →
      ∀ hook ∈ c.updateHooks ++ hooks, hook.Quiet := fun hquiet => by rw [hp.updateHooks]; exact hquiet
  have hnone : ∀ hook ∈ c.updateHooks, hook.Quiet := fun hook hin => by rw [hp.updateHooks] at hin; cases hin
  have hnothing : ∀ cleanup ∈ c.cleanups, cleanup.Quiet := fun cleanup hin => by rw [hp.cleanups] at hin; cases hin
  unfold Core.bind
  dsimp only
  rcases htexts with ⟨hok, g, hg⟩ | ⟨⟨fault, herr⟩, hZ⟩
  · rw [hok]
    dsimp only
    have h1 : Below r (c.laid r h node) (R ++ g) (bindTexts r.id c.textCells w).world := .of_holds (hb1.trans hb) hg
    have h2 := h1.bindAttributes c.attributeCells
    split
    · obtain ⟨hb', -, hZ⟩ := hlaid h2
      exact ⟨hb', ⟨_, _, _, rfl⟩, ⟨hnothing, hnone⟩, .inr ⟨⟨_, rfl⟩, hZ⟩⟩
    · obtain ⟨h3, hquiet3⟩ := h2.attachListeners c.channel c.template.placeholders 0
      split
      · obtain ⟨hb', -, hZ⟩ := hlaid h3
        exact ⟨hb', ⟨_, _, _, rfl⟩, ⟨hcleanups hquiet3, hnone⟩, .inr ⟨⟨_, rfl⟩, hZ⟩⟩
      · obtain ⟨h4, hquiet4, hhooks4⟩ := h3.runActions c.props c.template.placeholders hq 0
        obtain ⟨hb', hheld, hZ⟩ := hlaid h4
        generalize LiveMarkup.runActions r.id c.props 0 c.template.placeholders _ = o at hb' hheld hZ hquiet4 hhooks4
        refine ⟨hb', ⟨_, _, _, rfl⟩, ⟨fun cleanup hin => ?_, hhooks hhooks4⟩, ?_⟩
        · exact (List.mem_append.1 hin).elim (hcleanups hquiet3 cleanup) (hquiet4 cleanup)
        · cases hr : o.result with
          | ok => exact .inl ⟨hr, hheld⟩
          | error fault => exact .inr ⟨⟨fault, hr⟩, hZ⟩
  · rw [herr]
    exact ⟨hb1, ⟨_, _, _, rfl⟩, ⟨hnothing, hnone⟩, .inr ⟨⟨_, rfl⟩, hZ⟩⟩

end Core

end LiveMarkup
