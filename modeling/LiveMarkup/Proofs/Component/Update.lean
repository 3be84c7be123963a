/-
Updating.

An update gives a component its new values, and then each child what is forwarded to it. By induction on how components
are nested, it succeeds in every state but the last and comes to edits of nodes that the component has in the document;
after it, the history of the component is longer by what it was told, and the history of each child by what was forwarded.

- `updateRow_spec`: the children of a row are updated one after another;
- `Stands.update`, `Stands.tick`: so are a component and all that is nested in it.
-/
import LiveMarkup.Proofs.Component.Values

namespace LiveMarkup

open Markup Marker Forest

variable {H : Host}

/-! ## Children -/

/-- the child after `es`; it was updated with what `deliver` has for it, in these orders below it -/
structure Kid.Given (s : State) (g : Nat → History) (orders : Orders) (deliver : Nat → Option Props) (es : List Edit)
    (k k' : Kid H) : Prop where
  index : k'.index = k.index
  template : k'.component.core.template = k.component.core.template
  ground : k'.ground = k.ground.editAll es
  stands : Stands s ((g k.index).told ⟨(deliver k.index).getD ∅, orders.below k.index⟩) k'.component k'.ground

/-- what is delivered to a child is what is forwarded to it, if only nothing -/
theorem forwardedTo_getD {A T : Type} {ps : List (Placeholder A T)} {i : Nat} {t : T} {bindings : List Binding}
    (hi : ps[i]? = some (.child t bindings)) (changed : Props) :
    (forwardedTo ps changed i).getD ∅ = forwarded (bindingsAt ps i) changed := by
  rw [forwardedTo, bindingsAt_eq hi, hi]
  dsimp only
  split
  · next hempty =>
    generalize forwarded bindings changed = p at hempty
    obtain ⟨entries, hn⟩ := p
    obtain rfl : entries = [] := List.isEmpty_iff.1 hempty
    rfl
  · rfl

/-- it is taken in the order that the child has for it -/
theorem Orders.forwardedTo_getD {A T : Type} (orders : Orders) {ps : List (Placeholder A T)} {i : Nat} {t : T}
    {bindings : List Binding} (hi : ps[i]? = some (.child t bindings)) (changed : Props) :
    (orders.forwardedTo ps changed i).getD ∅ = orders.arrange [i] (forwarded (bindingsAt ps i) changed) := by
  rw [Orders.forwardedTo, ← LiveMarkup.forwardedTo_getD hi]
  cases LiveMarkup.forwardedTo ps changed i with
  | none => exact (orders.arrange_empty [i]).symm
  | some p => rfl

namespace Core

variable {c c' : Core H} {p : Props} {entries : Entries Value} {fragment start : NodeId} {row row' : List (Kid H)}
  {s : State} {X : Forest Bare} {es : List Edit} {g : Nat → History} {orders : Orders} {deliver : Nat → Option Props}

/-- updated children have what the updated component forwards to them -/
theorem Embeds.given {g : History} {changed : Props} (h : c.Embeds row) (ht : c'.template = c.template)
    (hr : List.Forall₂ (Kid.Given s (c.handed g) orders (orders.forwardedTo c.template.placeholders changed) es) row row') :
    ∀ k ∈ row', Stands s (c'.handed (g.told ⟨changed, orders⟩) k.index) k.component k.ground := by
  intro k' hk'
  obtain ⟨k, hk, hgiven⟩ := exists_of_forall₂ hr k' hk'
  obtain ⟨bindings, hi⟩ := h.child k hk
  have hstands := hgiven.stands
  rw [orders.forwardedTo_getD hi] at hstands
  rw [handed, History.forward_told, ht, hgiven.index]
  exact hstands

theorem ids_given (hr : List.Forall₂ (Kid.Given s g orders deliver es) row row') :
    (row'.flatMap fun k => k.ground.ids) = row.flatMap fun k => k.ground.ids := by
  rw [List.flatMap_def, List.flatMap_def]
  refine congrArg List.flatten (map_eq_of_forall₂ hr fun _ _ hk => ?_)
  rw [hk.ground, ids_editAll]

theorem Waits.given (h : c.Waits fragment row) (hids : ∀ e ∈ es, ∃ k ∈ row, e.id ∈ k.ground.ids)
    (hr : List.Forall₂ (Kid.Given s g orders deliver es) row row') :
    c.Waits fragment row' ∧ (c.waiting fragment row).editAll es = c.waiting fragment row' := by
  refine ⟨⟨h.phase, h.celled, ?_, ?_, h.unbound, h.cleanups, h.updateHooks⟩, ?_⟩
  · rw [Distinct, ids_given hr]
    exact h.distinct
  · rw [ids_given hr]
    exact h.outside
  · have hroot : ∀ e ∈ es, e.id ≠ fragment := by
      rintro e he rfl
      obtain ⟨k, hk, hid⟩ := hids e he
      exact h.outside (List.mem_append_right _ (List.mem_append_right _ (List.mem_flatMap.2 ⟨k, hk, hid⟩)))
    have htexts : c.textCells.map (editAll es ∘ TextCell.ground c.props.text) =
        c.textCells.map (TextCell.ground c.props.text) :=
      List.map_congr_left fun _ hc => h.distinct.texts_of_kids hids hc
    have hkids : row.map (editAll es ∘ Kid.ground) = row'.map Kid.ground :=
      (map_eq_of_forall₂ hr fun _ _ hk => hk.ground).symm
    rw [waiting, editAll_append, editAll_append, editAll_tree (n := ⟨fragment, .fragment, [], 0⟩) hroot,
      editAll_of_not_mem (h.distinct.planted_of_kids hids), editAll_join, editAll_join, List.map_map, List.map_map,
      htexts, hkids]
    rfl

theorem Shows.given (h : c.Shows start row) (hids : ∀ e ∈ es, ∃ k ∈ row, e.id ∈ k.ground.ids)
    (hr : List.Forall₂ (Kid.Given s g orders deliver es) row row') :
    c.Shows start row' ∧ (c.showing p entries start row).editAll es = c.showing p entries start row' := by
  refine ⟨⟨h.phase, h.celled, ?_, h.bound, h.cleanups, h.updateHooks⟩, ?_⟩
  · rw [Distinct, ids_given hr]
    exact h.distinct
  · have hskeleton : ∀ e ∈ es, e.id ∉ (c.elements p entries start).ids := by
      rw [elements, ids_attrs]
      exact h.distinct.planted_of_kids hids
    have hfills : (c.fills row).map (fun e => (e.1, e.2.editAll es)) = c.fills row' :=
      editAll_fills rfl rfl (fun _ hc => h.distinct.texts_of_kids hids hc)
        (hr.imp fun _ _ hk => ⟨hk.index, hk.ground⟩)
    rw [showing, editAll_fillBy, editAll_of_not_mem hskeleton, hfills]
    rfl

/-- a component has what its updated children have -/
theorem Is.given (h : c.Is p entries row s X) (hs : c.template.Sound)
    (hi : row.map Kid.index = indicesOf c.template.placeholders .child)
    (hkids : ∀ k ∈ row, Stands s (g k.index) k.component k.ground) (hids : ∀ e ∈ es, ∃ k ∈ row, e.id ∈ k.ground.ids)
    (hr : List.Forall₂ (Kid.Given s g orders deliver es) row row') :
    c.Is p entries row' s (X.editAll es) ∧ ∀ e ∈ es, e.id ∈ X.ids := by
  have hnone : (s = .unmounted ∨ s = .destroyed) → ∀ e ∈ es, e.id ∈ X.ids := by
    intro hstate e he
    obtain ⟨k, hk, hid⟩ := hids e he
    rw [(hkids k hk).ground_eq_nil hstate] at hid
    cases hid
  cases s with
  | unmounted =>
    obtain ⟨hphase, hb, rfl⟩ := h
    exact ⟨⟨hphase, hb, editAll_nil_forest _⟩, hnone (.inl rfl)⟩
  | created =>
    obtain ⟨fragment, hw, rfl⟩ := h
    obtain ⟨hw', hX⟩ := hw.given hids hr
    refine ⟨⟨fragment, hw', hX⟩, fun e he => ?_⟩
    obtain ⟨k, hk, hid⟩ := hids e he
    rw [ids_waiting]
    exact List.mem_cons_of_mem _ (List.mem_append_right _ (List.mem_append_right _ (List.mem_flatMap.2 ⟨k, hk, hid⟩)))
  | mounted =>
    obtain ⟨start, hshows, rfl⟩ := h
    obtain ⟨hshows', hX⟩ := hshows.given hids hr
    refine ⟨⟨start, hshows', hX⟩, fun e he => ?_⟩
    obtain ⟨k, hk, hid⟩ := hids e he
    exact hshows.celled.kid_mem_showing hs hi hk hid start
  | destroyed =>
    obtain ⟨hphase, hb, rfl⟩ := h
    exact ⟨⟨hphase, hb, editAll_nil_forest _⟩, hnone (.inr rfl)⟩

/-- the children of a component have different nodes -/
theorem Is.nodup_kids (h : c.Is p entries row s X) (hkids : ∀ k ∈ row, Stands s (g k.index) k.component k.ground) :
    (row.flatMap fun k => k.ground.ids).Nodup := by
  have hnone : (s = .unmounted ∨ s = .destroyed) → (row.flatMap fun k => k.ground.ids).Nodup := by
    intro hstate
    have hnil : (row.flatMap fun k => k.ground.ids) = [] := by
      refine List.flatMap_eq_nil_iff.2 fun k hk => ?_
      rw [(hkids k hk).ground_eq_nil hstate]
      rfl
    rw [hnil]
    exact List.nodup_nil
  cases s with
  | unmounted => exact hnone (.inl rfl)
  | created => obtain ⟨fragment, hw, -⟩ := h; exact hw.distinct.nodup_kids
  | mounted => obtain ⟨start, hshows, -⟩ := h; exact hshows.distinct.nodup_kids
  | destroyed => exact hnone (.inr rfl)

theorem Is.phase_ne_destroyed (h : c.Is p entries row s X) (hs : s ≠ .destroyed) : c.phase ≠ .destroyed := by
  cases s with
  | unmounted => rw [h.1]; exact Phase.noConfusion
  | created => obtain ⟨fragment, hw, -⟩ := h; rw [hw.phase]; exact Phase.noConfusion
  | mounted => obtain ⟨start, hshows, -⟩ := h; rw [hshows.phase]; exact Phase.noConfusion
  | destroyed => exact absurd rfl hs

end Core

/-! ## Updating -/

variable [ForeignBlocks H]

/-- a component was updated, with these orders below it -/
structure Updated (g : History) (s : State) (c : Component H) (X : Forest Bare) (orders : Orders) (changed : Props)
    (w : World H) (o : Outcome H (Component H)) : Prop where
  ok : o.result = .ok ()
  template : o.self.core.template = c.core.template
  props : o.self.props = c.props.extend changed.entries
  stands : ∃ es, w.Edited o.world es ∧ (∀ e ∈ es, e.id ∈ X.ids) ∧
    Stands s (g.told ⟨changed, orders⟩) o.self (X.editAll es)

/-- the component stands, and every update of it does what it has to -/
def Kid.Updates (s : State) (g : History) (k : Kid H) : Prop :=
  Stands s g k.component k.ground ∧
    ∀ orders changed w, Updated g s k.component k.ground orders changed w (k.component.updateIn orders changed w)

/-- the children of a row are updated one after another; `pre` are edits of other nodes made before -/
theorem updateRow_spec {s : State} {g : Nat → History} (orders : Orders) (deliver : Nat → Option Props)
    {row : List (Kid H)} (hk : ∀ k ∈ row, k.Updates s (g k.index)) (hn : (row.flatMap fun k => k.ground.ids).Nodup)
    (pre : List Edit) (hpre : ∀ e ∈ pre, ∀ k ∈ row, e.id ∉ k.ground.ids) (w : World H) :
    (updateRowIn orders deliver (row.map Kid.nested) w).result = .ok () ∧
      ∃ row' es, (updateRowIn orders deliver (row.map Kid.nested) w).self = row'.map Kid.nested ∧
        w.Edited (updateRowIn orders deliver (row.map Kid.nested) w).world es ∧
        (∀ e ∈ es, ∃ k ∈ row, e.id ∈ k.ground.ids) ∧
        List.Forall₂ (Kid.Given s g orders deliver (pre ++ es)) row row' := by
  induction row generalizing pre w with
  | nil => exact ⟨rfl, [], [], rfl, .refl w, fun _ h => absurd h List.not_mem_nil, .nil⟩
  | cons k row ih =>
    rw [List.forall_mem_cons] at hk
    rw [List.flatMap_cons, List.nodup_append] at hn
    obtain ⟨⟨hstands, hupdate⟩, hrest⟩ := hk
    have hprek : ∀ e ∈ pre, e.id ∉ k.ground.ids := fun e he => hpre e he k List.mem_cons_self
    have hprerow : ∀ e ∈ pre, ∀ j ∈ row, e.id ∉ j.ground.ids := fun e he j hj => hpre e he j (List.mem_cons_of_mem _ hj)
    -- edits in the rest of the row leave this child alone
    have hlater : ∀ es : List Edit, (∀ e ∈ es, ∃ j ∈ row, e.id ∈ j.ground.ids) → ∀ e ∈ es, e.id ∉ k.ground.ids := by
      intro es hes e he hin
      obtain ⟨j, hj, hid⟩ := hes e he
      exact hn.2.2 _ hin _ (List.mem_flatMap.2 ⟨j, hj, hid⟩) rfl
    rw [List.map_cons, Kid.nested, updateRowIn]
    cases hd : deliver k.index with
    | none =>
      obtain ⟨hok, row', es, hself, hedited, hids, hgiven⟩ := ih hrest hn.2.1 pre hprerow w
      refine ⟨hok, k :: row', es, ?_, hedited, fun e he => ?_, .cons ⟨rfl, rfl, ?_, ?_⟩ hgiven⟩
      · dsimp only
        rw [Outcome.map, hself]
        rfl
      · obtain ⟨j, hj, hid⟩ := hids e he
        exact ⟨j, List.mem_cons_of_mem _ hj, hid⟩
      · rw [← editAll_editAll, editAll_of_not_mem hprek, editAll_of_not_mem (hlater es hids)]
      · rw [hd]
        exact hstands.told_empty _
    | some changed =>
      have hu := hupdate (orders.below k.index) changed w
      obtain ⟨es, hedited, hids, hstands'⟩ := hu.stands
      have hesrow : ∀ e ∈ es, ∀ j ∈ row, e.id ∉ j.ground.ids := fun e he j hj hin =>
        hn.2.2 _ (hids e he) _ (List.mem_flatMap.2 ⟨j, hj, hin⟩) rfl
      obtain ⟨hok, row', es', hself, hedited', hids', hgiven⟩ := ih hrest hn.2.1 (pre ++ es)
        (fun e he => (List.mem_append.1 he).elim (hprerow e) (hesrow e))
        (k.component.updateIn (orders.below k.index) changed w).world
      dsimp only
      rw [Block.updateIn]
      dsimp only [Outcome.map]
      rw [hu.ok]
      refine ⟨hok, ⟨k.index, k.atRoot, (k.component.updateIn (orders.below k.index) changed w).self,
        k.ground.editAll es⟩ :: row', es ++ es', ?_, hedited.trans hedited', fun e he => ?_,
        .cons ⟨rfl, hu.template, ?_, ?_⟩ ?_⟩
      · dsimp only
        rw [hself]
        rfl
      · rcases List.mem_append.1 he with he | he
        · exact ⟨k, List.mem_cons_self, hids e he⟩
        · obtain ⟨j, hj, hid⟩ := hids' e he
          exact ⟨j, List.mem_cons_of_mem _ hj, hid⟩
      · rw [← editAll_editAll, editAll_of_not_mem hprek, ← editAll_editAll]
        refine (editAll_of_not_mem fun e he => ?_).symm
        rw [ids_editAll]
        exact hlater es' hids' e he
      · rw [hd]
        exact hstands'
      · rw [← List.append_assoc]
        exact hgiven

/-- a component that is not destroyed is updated, and its children with it -/
theorem Core.Is.update {g : History} {core : Core H} {row : List (Kid H)} {s : State} {X : Forest Bare}
    (own : core.Is g.atMount g.given row s X) (props : core.props = g.props) (embeds : core.Embeds row)
    (hs : core.template.Sound) (hk : ∀ k ∈ row, k.Updates s (core.handed g k.index)) (orders : Orders) (changed : Props)
    (w : World H) :
    let applied := core.applyEntries w changed
    let o := updateRowIn orders (orders.forwardedTo core.template.placeholders changed) (row.map Kid.nested) applied.2
    o.result = .ok () ∧ applied.1.template = core.template ∧ applied.1.props = core.props.extend changed.entries ∧
      ∃ es, w.Edited o.world es ∧ (∀ e ∈ es, e.id ∈ X.ids) ∧
        Stands s (g.told ⟨changed, orders⟩) (.mk applied.1 [] o.self) (X.editAll es) := by
  intro applied o
  have hkids : ∀ k ∈ row, Stands s (core.handed g k.index) k.component k.ground := fun k hin => (hk k hin).1
  obtain ⟨es, hedited, hids, hown, htemplate, hprops⟩ := own.applyEntries hs embeds.indices w changed
  obtain ⟨hok, row', es', hself, hedited', hids', hgiven⟩ := updateRow_spec orders
    (orders.forwardedTo core.template.placeholders changed) hk (own.nodup_kids hkids) []
    (fun _ h => absurd h List.not_mem_nil) applied.2
  have hindices : row.map Kid.index = indicesOf applied.1.template.placeholders .child := by
    rw [htemplate]
    exact embeds.indices
  have hsound : applied.1.template.Sound := by
    rw [htemplate]
    exact hs
  obtain ⟨hown', hids''⟩ := hown.given hsound hindices hkids hids' hgiven
  refine ⟨hok, htemplate, hprops, es ++ es', hedited.trans hedited', fun e he => ?_, ?_⟩
  · rcases List.mem_append.1 he with he | he
    · exact hids e he
    · have := hids'' e he
      rwa [ids_editAll] at this
  · rw [hself, ← editAll_editAll]
    refine .mk ?_ ⟨?_, fun k' hk' => ?_⟩ ?_ (embeds.given htemplate hgiven)
    · rw [hprops, g.props_told, props]
    · rw [htemplate, ← embeds.indices]
      exact map_eq_of_forall₂ hgiven fun _ _ hk => hk.index
    · obtain ⟨k, hin, hkid⟩ := exists_of_forall₂ hgiven k' hk'
      rw [htemplate, hkid.index, hkid.template]
      exact embeds.child k hin
    · rw [g.given_told]
      exact hown'

/-- **Updating.** A component that is not destroyed takes what it is told, and forwards it, at every depth, whatever the
orders are in which it is taken there. -/
theorem Stands.update {s : State} (hs : s ≠ .destroyed) {g : History} {c : Component H} {X : Forest Bare}
    (h : Stands s g c X) (hsound : c.core.template.Everywhere Template.Sound) (orders : Orders) (changed : Props)
    (w : World H) : Updated g s c X orders changed w (c.updateIn orders changed w) := by
  induction h generalizing orders changed w with
  | @mk g core row X props embeds own kids ih =>
    have hk : ∀ k ∈ row, k.Updates s (core.handed g k.index) := by
      intro k hin
      obtain ⟨bindings, hi⟩ := embeds.child k hin
      exact ⟨kids k hin, ih k hin (Template.Everywhere.child hsound hi)⟩
    obtain ⟨hok, htemplate, hprops, hstands⟩ := own.update props embeds hsound.self hk orders changed w
    rw [Component.updateIn, if_neg (own.phase_ne_destroyed hs)]
    exact ⟨hok, htemplate, hprops, hstands⟩

/-- a destroyed component is not updated -/
theorem Stands.update_destroyed {g : History} {c : Component H} {X : Forest Bare} (h : Stands .destroyed g c X)
    (orders : Orders) (changed : Props) (w : World H) :
    c.updateIn orders changed w = .fail .updateAfterDestroy c w := by
  cases h with
  | mk _ _ own => rw [Component.updateIn, if_pos own.1]

/-- without slot contents, bringing the slot context up to date changes it alone -/
theorem Component.updateSlots_of_empty (orders : Orders) (context : Option Props) (core : Core H)
    (children : List (Nested H)) (w : World H) :
    ∃ slotContext, Component.updateSlotsIn orders context (.mk core [] children) w =
      .ok (.mk { core with slotContext } [] children) w := by
  cases context with
  | none => exact ⟨core.slotContext, rfl⟩
  | some incoming =>
    rw [Component.updateSlotsIn]
    split
    · exact ⟨core.slotContext, rfl⟩
    · exact ⟨_, rfl⟩

/-- a tick is an update with the props that changed, whatever the slot context -/
theorem Stands.tick {s : State} (hs : s ≠ .destroyed) {g : History} {c : Component H} {X : Forest Bare}
    (h : Stands s g c X) (hsound : c.core.template.Everywhere Template.Sound) (orders : Orders) (incoming : Props)
    (context : Option Props) (w : World H) :
    Updated g s c X orders (c.props.changes incoming) w (c.tickIn orders incoming context w) := by
  cases h with
  | @mk _ core row X props embeds own kids =>
    have hk : ∀ k ∈ row, k.Updates s (core.handed g k.index) := by
      intro k hin
      obtain ⟨bindings, hi⟩ := embeds.child k hin
      exact ⟨kids k hin, (kids k hin).update hs (Template.Everywhere.child hsound hi)⟩
    obtain ⟨hok, htemplate, hprops, hstands⟩ :=
      own.update props embeds hsound.self hk orders (core.props.changes incoming) w
    obtain ⟨slotContext, hslots⟩ := Component.updateSlots_of_empty orders context
      (core.applyEntries w (core.props.changes incoming)).1 (row.map Kid.nested)
      (core.applyEntries w (core.props.changes incoming)).2
    rw [Component.tickIn, if_neg (own.phase_ne_destroyed hs)]
    dsimp only
    rw [hslots]
    obtain ⟨es, hedited, hids, hstands⟩ := hstands
    exact ⟨hok, htemplate, hprops, es, hedited, hids, hstands.withContext slotContext⟩

/-- a destroyed component does not tick -/
theorem Stands.tick_destroyed {g : History} {c : Component H} {X : Forest Bare} (h : Stands .destroyed g c X)
    (orders : Orders) (incoming : Props) (context : Option Props) (w : World H) :
    c.tickIn orders incoming context w = .fail .updateAfterDestroy c w := by
  cases h with
  | mk _ _ own => rw [Component.tickIn, if_pos own.1]

end LiveMarkup
