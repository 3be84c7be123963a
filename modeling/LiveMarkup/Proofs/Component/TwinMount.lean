/-
Mounting one component in two worlds.

Markers are found in counterparts, so binding, the search for the markers of blocks and the mounts of nested blocks go the
same way in both worlds. What actions leave behind is held from then on, so both mounts come to the same if the actions are
steady, or if the two worlds are one.

- `Core.Twin.bind`: a component's own placeholders;
- `Component.Twin.mountCreated`, `Component.Twin.mount`: a whole mount, whatever it results in;
- `Component.Twin.call`: any call.
-/
import LiveMarkup.Proofs.Component.Twin
import LiveMarkup.Proofs.Component.Seated

namespace LiveMarkup

open Document

variable {H : Host} {χ : Chart} {w w' : World H}

/-! ## Markers -/

theorem Chart.names_append {l l' m m' : List NodeId} (h : List.Forall₂ χ.Names l l') (h' : List.Forall₂ χ.Names m m') :
    List.Forall₂ χ.Names (l ++ m) (l' ++ m') := List.rel_append h h'

/-- the marker is missing from both fragments, or found in counterparts -/
theorem World.Related.marker (hr : World.Related χ w w') {f f' : NodeId} (hf : χ.Names f f') (m : Marker) :
    (∃ fault, w.marker f m = .error fault ∧ w'.marker f' m = .error fault) ∨
      ∃ x x', w.marker f m = .ok x ∧ w'.marker f' m = .ok x' ∧ χ.Names x x' := by
  obtain ⟨hown, rfl⟩ := hf
  have hmem := hr.document.own_mem f hown
  -- either search is a search for a node that passes a test, whatever the node is called
  have hsearch : ∀ test : Node (Listener H.Handler) → Bool, (∀ n, test (n.rename χ.rename) = test n) →
      w'.document.firstBelow? (χ.rename f) test = (w.document.firstBelow? f test).map χ.rename ∧
        ∀ x, w.document.firstBelow? f test = some x → χ.own x := fun test ht =>
    ⟨hr.document.firstBelow? hmem ht, fun x => hr.document.own_of_firstBelow? hown⟩
  have hfound : ∃ o : Option NodeId, (∀ x, o = some x → χ.own x) ∧
      (if m.category.inTag then w.findAttribute? f m.name else w.findElement? f m.name) = o ∧
      (if m.category.inTag then w'.findAttribute? (χ.rename f) m.name else w'.findElement? (χ.rename f) m.name) =
        o.map χ.rename := by
    have heven := hr.even (χ.rename f) f m.name
    by_cases hfinds : w.backend.finds f m.name
    · cases m.category.inTag with
      | true =>
        obtain ⟨hsame, hown⟩ := hsearch (fun n => (n.kind.attributes.get? m.name).isSome) fun _ => rfl
        refine ⟨_, hown, ?_, ?_⟩
        · rw [if_pos rfl, findAttribute?, if_pos hfinds]
          rfl
        · rw [if_pos rfl, findAttribute?, hr.backend, heven, if_pos hfinds]
          exact hsame
      | false =>
        obtain ⟨hsame, hown⟩ := hsearch (fun n => n.kind.tag?.any (sameLetters · m.name)) fun _ => rfl
        refine ⟨_, hown, ?_, ?_⟩
        · rw [if_neg Bool.false_ne_true, findElement?, if_pos hfinds]
          rfl
        · rw [if_neg Bool.false_ne_true, findElement?, hr.backend, heven, if_pos hfinds]
          exact hsame
    · refine ⟨none, fun _ hx => (by cases hx), ?_, ?_⟩
      · rw [findAttribute?, findElement?, if_neg hfinds, if_neg hfinds, ite_self]
      · rw [findAttribute?, findElement?, hr.backend, heven, if_neg hfinds, if_neg hfinds, ite_self]
        rfl
  obtain ⟨o, hown, h, h'⟩ := hfound
  rw [World.marker, World.marker, h, h']
  cases o with
  | none => exact .inl ⟨_, rfl, rfl⟩
  | some x => exact .inr ⟨x, χ.rename x, rfl, rfl, hown x rfl, rfl⟩

/-- markers of the same indices in counterparts -/
def Chart.Spots (χ : Chart) (a a' : Nat × NodeId) : Prop := a'.1 = a.1 ∧ χ.Names a.2 a'.2

theorem Chart.names_of_spots {l l' : List (Nat × NodeId)} (h : List.Forall₂ χ.Spots l l') :
    List.Forall₂ χ.Names (l.map (·.2)) (l'.map (·.2)) := by
  induction h with
  | nil => exact .nil
  | cons ha _ ih => exact .cons ha.2 ih

theorem Chart.spots_mono {χ₁ : Chart} {m : NodeId} (he : χ.Extends χ₁ m) (hm : ∀ x, χ.own x → χ.mem x)
    {l l' : List (Nat × NodeId)} (h : List.Forall₂ χ.Spots l l') : List.Forall₂ χ₁.Spots l l' :=
  h.imp fun _ _ ha => ⟨ha.1, ha.2.mono he hm⟩

theorem Chart.spots_eq_of_fixed {l l' : List (Nat × NodeId)} (h : List.Forall₂ χ.Spots l l')
    (hm : ∀ x, χ.own x → χ.mem x) (hf : χ.Fixed) : l' = l := by
  induction h with
  | nil => rfl
  | @cons a a' _ _ ha _ ih => rw [ih, Prod.ext ha.1 (ha.2.eq_of_fixed hm hf)]

/-- the markers before one of this index, and those from there on -/
theorem Chart.spots_cut {l l' : List (Nat × NodeId)} (h : List.Forall₂ χ.Spots l l') (index : Nat) :
    List.Forall₂ χ.Spots (l.takeWhile (·.1 ≠ index)) (l'.takeWhile (·.1 ≠ index)) ∧
      List.Forall₂ χ.Spots (l.dropWhile (·.1 ≠ index)) (l'.dropWhile (·.1 ≠ index)) := by
  induction h with
  | nil => exact ⟨.nil, .nil⟩
  | @cons a a' l l' ha hl ih =>
    rw [List.takeWhile_cons, List.takeWhile_cons, List.dropWhile_cons, List.dropWhile_cons, ha.1]
    split
    · exact ⟨.cons ha ih.1, ih.2⟩
    · exact ⟨.nil, .cons ha hl⟩

theorem World.Related.spots (hr : World.Related χ w w') {f f' : NodeId} (hf : χ.Names f f') (category : Category)
    (indices : List Nat) :
    (∃ fault, w.spots f category indices = .error fault ∧ w'.spots f' category indices = .error fault) ∨
      ∃ l l', w.spots f category indices = .ok l ∧ w'.spots f' category indices = .ok l' ∧
        List.Forall₂ χ.Spots l l' := by
  induction indices with
  | nil => exact .inr ⟨[], [], rfl, rfl, .nil⟩
  | cons index indices ih =>
    rw [World.spots, World.spots]
    rcases hr.marker hf ⟨category, index⟩ with ⟨fault, h, h'⟩ | ⟨x, x', h, h', hx⟩
    · rw [h, h']
      exact .inl ⟨fault, rfl, rfl⟩
    · rw [h, h']
      rcases ih with ⟨fault, hs, hs'⟩ | ⟨l, l', hs, hs', hl⟩
      · exact .inl ⟨fault, by rw [hs]; rfl, by rw [hs']; rfl⟩
      · exact .inr ⟨(index, x) :: l, (index, x') :: l', by rw [hs]; rfl, by rw [hs']; rfl, .cons ⟨rfl, hx⟩ hl⟩

theorem World.Related.names_children (hr : World.Related χ w w') {f f' : NodeId} (hf : χ.Names f f') :
    List.Forall₂ χ.Names (w.document.children f) (w'.document.children f') := by
  obtain ⟨hown, rfl⟩ := hf
  rw [hr.document.children f (hr.document.own_mem f hown), List.forall₂_map_right_iff, List.forall₂_same]
  exact fun x hx => ⟨hr.document.own_closed f hown x hx, rfl⟩

theorem Chart.names_filter {l l' : List NodeId} {p q : NodeId → Bool} (h : List.Forall₂ χ.Names l l')
    (hp : ∀ x, χ.own x → q (χ.rename x) = p x) : List.Forall₂ χ.Names (l.filter p) (l'.filter q) := by
  induction h with
  | nil => exact .nil
  | @cons x x' l l' hx _ ih =>
    rw [List.filter_cons, List.filter_cons, hx.2, hp x hx.1]
    split
    · exact .cons ⟨hx.1, rfl⟩ ih
    · exact ih

/-! ## Binding -/

/-- what is left behind in neither case, or in both -/
theorem forall₂_toList {α β γ : Type} {R : β → γ → Prop} {o o' : Option α} {f : α → β} {g : α → γ}
    (h : o'.isSome = o.isSome) (hR : ∀ a ∈ o, ∀ a' ∈ o', R (f a) (g a')) :
    List.Forall₂ R (o.map f).toList (o'.map g).toList := by
  cases o with
  | none =>
    cases o' with
    | none => exact .nil
    | some => cases h
  | some a =>
    cases o' with
    | none => cases h
    | some a' => exact .cons (hR a rfl a' rfl) .nil

section

variable {f f' : NodeId} (hf : χ.Names f f')
include hf

theorem bindTexts_twin {cells cells' : List TextCell} (h : List.Forall₂ (TextCell.Twin χ) cells cells')
    (hr : World.Related χ w w') :
    World.Follows χ χ w w' (bindTexts f cells w).world (bindTexts f' cells' w').world ∧
      (bindTexts f' cells' w').result = (bindTexts f cells w).result := by
  induction h generalizing w w' with
  | nil => exact ⟨.refl hr, rfl⟩
  | @cons a a' _ _ ha _ ih =>
    rw [bindTexts, bindTexts, ha.index]
    rcases hr.marker hf ⟨.text, a.index⟩ with ⟨fault, h, h'⟩ | ⟨x, x', h, h', hx⟩
    · rw [h, h']
      exact ⟨.refl hr, rfl⟩
    · rw [h, h']
      have hstep : World.Follows χ χ w w' (w.edit (·.replaceWith x a.node)) (w'.edit (·.replaceWith x' a'.node)) := by
        rw [hx.2, ha.node.2]
        exact .edit (hr.document.replaceWith hx.1 ha.node.1)
      obtain ⟨hrest, hres⟩ := ih (hstep.related hr)
      exact ⟨hstep.trans hrest, hres⟩

theorem bindAttributes_twin {cells cells' : List AttributeCell}
    (h : List.Forall₂ (AttributeCell.Twin χ) cells cells') (hr : World.Related χ w w') :
    World.Follows χ χ w w' (bindAttributes f cells w).world (bindAttributes f' cells' w').world ∧
      List.Forall₂ (AttributeCell.Twin χ) (bindAttributes f cells w).self (bindAttributes f' cells' w').self ∧
      (bindAttributes f' cells' w').result = (bindAttributes f cells w).result := by
  induction h generalizing w w' with
  | nil => exact ⟨.refl hr, .nil, rfl⟩
  | @cons a a' cells cells' ha hcells ih =>
    rw [bindAttributes, bindAttributes, ha.index]
    rcases hr.marker hf ⟨.attribute, a.index⟩ with ⟨fault, h, h'⟩ | ⟨x, x', h, h', hx⟩
    · rw [h, h']
      exact ⟨.refl hr, .cons ha hcells, rfl⟩
    · rw [h, h', ha.name, ha.value]
      have hstep : World.Follows χ χ w w' (w.renameAttribute x (Marker.name ⟨.attribute, a.index⟩) a.name a.value)
          (w'.renameAttribute x' (Marker.name ⟨.attribute, a.index⟩) a.name a.value) := by
        unfold World.renameAttribute
        rw [hr.backend]
        cases w.backend.renamesInPlace with
        | true => exact hr.write hx (.renameAttribute _ a.name a.value)
        | false =>
          have hfirst := hr.write hx (.removeAttribute (Marker.name ⟨.attribute, a.index⟩))
          exact hfirst.trans ((hfirst.related hr).write hx (.setAttribute a.name a.value))
      obtain ⟨hrest, hothers, hres⟩ := ih (hstep.related hr)
      exact ⟨hstep.trans hrest, .cons ⟨rfl, ha.prop, rfl, rfl, .some hx⟩ hothers, hres⟩

theorem attachListeners_twin {T : Type} (channel index : Nat) (ps : List (Placeholder (Action H) T))
    (hr : World.Related χ w w') :
    World.Follows χ χ w w' (attachListeners f channel index ps w).world (attachListeners f' channel index ps w').world ∧
      List.Forall₂ (Cleanup.Twin χ) (attachListeners f channel index ps w).self
        (attachListeners f' channel index ps w').self ∧
      (attachListeners f' channel index ps w').result = (attachListeners f channel index ps w).result := by
  induction ps generalizing index w w' with
  | nil => exact ⟨.refl hr, .nil, rfl⟩
  | cons p ps ih =>
    cases p with
    | event event topic =>
      rw [attachListeners, attachListeners]
      dsimp only
      rcases hr.marker hf ⟨.event, index⟩ with ⟨fault, h, h'⟩ | ⟨x, x', h, h', hx⟩
      · rw [h, h']
        exact ⟨.refl hr, .nil, rfl⟩
      · rw [h, h']
        have hfirst := hr.write hx (.removeAttribute (Marker.name ⟨.event, index⟩))
        have hstep := hfirst.trans ((hfirst.related hr).write hx (.listen event (.channel channel topic)))
        -- a node and its counterpart have given out as many tickets
        have hticket : ((w'.edit (·.removeAttribute x' (Marker.name ⟨.event, index⟩))).listen x' event
            (.channel channel topic)).2 = ((w.edit (·.removeAttribute x (Marker.name ⟨.event, index⟩))).listen x event
              (.channel channel topic)).2 := by
          obtain ⟨hown, rfl⟩ := hx
          have hrel := (hfirst.related hr).document
          have hfind := hrel.find? (hrel.own_mem x hown)
          show ((Document.find? _ _).map (·.1.nextTicket)).getD 0 = ((Document.find? _ _).map (·.1.nextTicket)).getD 0
          refine (congrArg (fun o => (Option.map (fun t => t.1.nextTicket) o).getD 0) hfind).trans ?_
          rw [Option.map_map]
          rfl
        obtain ⟨hrest, hothers, hres⟩ := ih (index + 1) (hstep.related hr)
        exact ⟨hstep.trans hrest, .cons ⟨hx, hticket⟩ hothers, hres⟩
    | _ => exact ih (index + 1) hr

theorem runActions_twin {T : Type} (props : Props) (index : Nat) (ps : List (Placeholder (Action H) T))
    (hd : ∀ run param, .action run param ∈ ps → Action.Discreet run)
    (hs : (∀ run param, .action run param ∈ ps → Action.Steady run) ∨ w' = w ∧ χ.Fixed) (hr : World.Related χ w w') :
    World.Follows χ χ w w' (runActions f props index ps w).world (runActions f' props index ps w').world ∧
      List.Forall₂ (Cleanup.Twin χ) (runActions f props index ps w).self.1 (runActions f' props index ps w').self.1 ∧
      List.Forall₂ (UpdateHook.Twin χ) (runActions f props index ps w).self.2
        (runActions f' props index ps w').self.2 ∧
      (runActions f' props index ps w').result = (runActions f props index ps w).result := by
  induction ps generalizing index w w' with
  | nil => exact ⟨.refl hr, .nil, .nil, rfl⟩
  | cons p ps ih =>
    have hd' : ∀ run param, .action run param ∈ ps → Action.Discreet run :=
      fun run param hin => hd run param (List.mem_cons_of_mem _ hin)
    have hs' : ∀ {u u' : World H}, (w' = w → χ.Fixed → u' = u) →
        (∀ run param, .action run param ∈ ps → Action.Steady run) ∨ u' = u ∧ χ.Fixed := fun hu =>
      hs.imp (fun h run param hin => h run param (List.mem_cons_of_mem _ hin)) fun h => ⟨hu h.1 h.2, h.2⟩
    cases p with
    | action run param =>
      rw [runActions, runActions]
      dsimp only
      rcases hr.marker hf ⟨.action, index⟩ with ⟨fault, h, h'⟩ | ⟨x, x', h, h', hx⟩
      · rw [h, h']
        exact ⟨.refl hr, .nil, .nil, rfl⟩
      · rw [h, h']
        have hfirst := hr.write hx (.removeAttribute (Marker.name ⟨.action, index⟩))
        have hsame : w' = w → χ.Fixed → x' = x := fun _ hfixed => hx.eq_of_fixed hr.document.own_mem hfixed
        obtain ⟨v, hv⟩ : ∃ v, v = w.edit (·.removeAttribute x (Marker.name ⟨.action, index⟩)) := ⟨_, rfl⟩
        obtain ⟨v', hv'⟩ : ∃ v', v' = w'.edit (·.removeAttribute x' (Marker.name ⟨.action, index⟩)) := ⟨_, rfl⟩
        replace hfirst : World.Follows χ χ w w' v v' := by
          rw [hv, hv']
          exact hfirst
        dsimp only
        rw [← hv, ← hv']
        have hworlds : w' = w → χ.Fixed → v' = v := fun hw hfixed => by rw [hv, hv', hw, hsame hw hfixed]
        -- what the action leaves behind at a node and at its counterpart
        have hshape : (run x' (param.bind props.get?) v').2.update.isSome =
              (run x (param.bind props.get?) v).2.update.isSome ∧
            (run x' (param.bind props.get?) v').2.destroy.isSome =
              (run x (param.bind props.get?) v).2.destroy.isSome := by
          rcases hs with hsteady | ⟨hw, hfixed⟩
          · exact hsteady run param List.mem_cons_self x x' _ v v'
          · rw [hworlds hw hfixed, hsame hw hfixed]
            exact ⟨rfl, rfl⟩
        obtain ⟨haside, hleft⟩ := hd run param List.mem_cons_self x (param.bind props.get?) v
        obtain ⟨haside', hleft'⟩ := hd run param List.mem_cons_self x' (param.bind props.get?) v'
        have hstep := hfirst.trans (.aside (hfirst.related hr) haside haside')
        obtain ⟨hrest, hcleanups, hhooks, hres⟩ := ih (index + 1) hd'
          (hs' fun hw hfixed => by rw [hworlds hw hfixed, hsame hw hfixed]) (hstep.related hr)
        refine ⟨hstep.trans hrest, List.rel_append ?_ hcleanups, List.rel_append ?_ hhooks, hres⟩
        · exact forall₂_toList hshape.2 fun g hg g' hg' => ⟨hx, hleft.destroy g hg, hleft'.destroy g' hg'⟩
        · exact forall₂_toList hshape.1 fun g hg g' hg' => ⟨rfl, hx, hleft.update g hg, hleft'.update g' hg'⟩
    | _ => exact ih (index + 1) hd' (hs' fun h _ => h) hr

/-- **Binding.** -/
theorem Core.Twin.bind {c c' : Core H} (h : c.Twin χ c') (hs : c.template.Steady ∨ c' = c ∧ w' = w ∧ χ.Fixed)
    (hr : World.Related χ w w') :
    World.Follows χ χ w w' (c.bind f w).world (c'.bind f' w').world ∧ (c.bind f w).self.Twin χ (c'.bind f' w').self ∧
      (c'.bind f' w').result = (c.bind f w).result := by
  obtain ⟨htexts, hres₁⟩ := bindTexts_twin hf h.textCells hr
  have hr₁ := htexts.related hr
  obtain ⟨hattributes, hcells, hres₂⟩ := bindAttributes_twin hf h.attributeCells hr₁
  have hr₂ := hattributes.related hr₁
  obtain ⟨hlisteners, hattached, hres₃⟩ := attachListeners_twin hf c.channel 0 c.template.placeholders hr₂
  have hsame : c' = c ∧ w' = w ∧ χ.Fixed → f' = f := fun e => hf.eq_of_fixed hr.document.own_mem e.2.2
  obtain ⟨hactions, hcleanups, hhooks, hres₄⟩ := runActions_twin hf c.props 0 c.template.placeholders h.discreet
    (hs.imp_right fun e => ⟨by rw [hsame e, e.1, e.2.1], e.2.2⟩) (hlisteners.related hr₂)
  obtain ⟨template', phase', props', slotContext', roots', textCells', attributeCells', cleanups', updateHooks',
    channel'⟩ := c'
  obtain rfl : template' = c.template := h.template
  obtain rfl : props' = c.props := h.props
  obtain rfl : channel' = c.channel := h.channel
  unfold Core.bind
  dsimp only at hres₁ hres₂ hres₃ hres₄ ⊢
  rw [hres₁]
  cases (bindTexts f c.textCells w).result with
  | error fault => exact ⟨htexts, h, rfl⟩
  | ok _ =>
    dsimp only
    rw [hres₂]
    cases (bindAttributes f c.attributeCells (bindTexts f c.textCells w).world).result with
    | error fault =>
      exact ⟨htexts.trans hattributes, { h with attributeCells := hcells }, rfl⟩
    | ok _ =>
      dsimp only
      rw [hres₃]
      have hbound := (htexts.trans hattributes).trans hlisteners
      have hundo := List.rel_append h.cleanups hattached
      cases (attachListeners f c.channel 0 c.template.placeholders
        (bindAttributes f c.attributeCells (bindTexts f c.textCells w).world).world).result with
      | error fault => exact ⟨hbound, { h with attributeCells := hcells, cleanups := hundo }, rfl⟩
      | ok _ =>
        refine ⟨hbound.trans hactions, ?_, hres₄⟩
        exact { h with
          attributeCells := hcells
          cleanups := List.rel_append hundo hcleanups
          updateHooks := List.rel_append h.updateHooks hhooks }

end

/-! ## Taking out markers -/

theorem World.Related.discard (hr : World.Related χ w w') {x x' : NodeId} (hx : χ.Names x x') {held held' : List NodeId}
    (hheld : List.Forall₂ χ.Names held held') :
    World.Follows χ χ w w' (w.discard held x) (w'.discard held' x') := by
  obtain ⟨hown, rfl⟩ := hx
  exact .edit (hr.document.discard hown fun y _ => Chart.contains_of_names hheld hr.document.injective y)

theorem World.Related.discardAll {held held' : List NodeId} (hheld : List.Forall₂ χ.Names held held')
    {spots spots' : List (Nat × NodeId)} (h : List.Forall₂ χ.Spots spots spots') (hr : World.Related χ w w') :
    World.Follows χ χ w w' (w.discardAll held spots) (w'.discardAll held' spots') := by
  induction h generalizing w w' with
  | nil => exact .refl hr
  | @cons a a' spots spots' ha hspots ih =>
    have hstep := hr.discard ha.2 (List.rel_append hheld (Chart.names_of_spots hspots))
    exact hstep.trans (ih (hstep.related hr))

/-! ## Held nodes -/

theorem Core.Twin.handles {c c' : Core H} (h : c.Twin χ c') : List.Forall₂ χ.Names c.handles c'.handles := by
  have hphase : List.Forall₂ χ.Names c.phase.handle?.toList c'.phase.handle?.toList := by
    have hp := h.phase
    generalize c.phase = p, c'.phase = p' at hp
    cases p <;> cases p' <;> first | exact hp.elim | exact .nil | exact .cons hp .nil
  have htexts : List.Forall₂ χ.Names (c.textCells.map (·.node)) (c'.textCells.map (·.node)) :=
    List.forall₂_map_left_iff.2 (List.forall₂_map_right_iff.2 (h.textCells.imp fun _ _ ha => ha.node))
  have hattributes : List.Forall₂ χ.Names (c.attributeCells.filterMap (·.element))
      (c'.attributeCells.filterMap (·.element)) := List.rel_filterMap (fun _ _ ha => ha.element) h.attributeCells
  have hcleanups : List.Forall₂ χ.Names (c.cleanups.filterMap Cleanup.handle?)
      (c'.cleanups.filterMap Cleanup.handle?) := by
    refine List.rel_filterMap (fun a a' ha => ?_) h.cleanups
    cases a <;> cases a' <;> first | exact ha.elim | exact .none | exact .some ha.1
  have hhooks : List.Forall₂ χ.Names (c.updateHooks.map (·.node)) (c'.updateHooks.map (·.node)) :=
    List.forall₂_map_left_iff.2 (List.forall₂_map_right_iff.2 (h.updateHooks.imp fun _ _ ha => ha.node))
  exact List.rel_append (List.rel_append (List.rel_append (List.rel_append (List.rel_append hphase h.roots) htexts)
    hattributes) hcleanups) hhooks

variable [ForeignBlocks H]

mutual
theorem Component.Twin.handles : (c c' : Component H) → c.Twin χ c' → List.Forall₂ χ.Names c.handles c'.handles
  | .mk core slots children, .mk core' slots' children', h => by
    rw [Component.handles, Component.handles]
    exact List.rel_append (List.rel_append h.1.handles (twinAll.handles slots slots' h.2.1))
      (twinAll.handles children children' h.2.2)
theorem twinAll.handles : (row row' : List (Nested H)) → twinAll χ row row' →
    List.Forall₂ χ.Names (handlesOf row) (handlesOf row')
  | [], [], _ => .nil
  | .mk _ _ block :: row, .mk _ _ block' :: row', h =>
    List.rel_append (Block.Twin.handles block block' h.2.2.1) (twinAll.handles row row' h.2.2.2)
theorem Block.Twin.handles : (b b' : Block H) → b.Twin χ b' → List.Forall₂ χ.Names b.handles b'.handles
  | .text t, .text t', h => by
    have hn := TextBlock.Twin.node h
    rw [Block.handles, Block.handles]
    generalize t.node = n, t'.node = n' at hn
    cases hn with
    | none => exact .nil
    | some hx => exact .cons hx .nil
  | .component c, .component c', h => Component.Twin.handles c c' h
end

/-! ## Mounting -/

/-- the actions of a component and of all that are nested in it are steady -/
def Component.Steady (c : Component H) : Prop := c.Each (·.template.Steady) fun _ => True

/-- giving up -/
theorem Component.Twin.abandon {c c' : Component H} (h : c.Twin χ c') (fault : LifecycleFault)
    (hr : World.Related χ w w') :
    (Component.abandon fault c w).Along χ Component.Twin w w' (Component.abandon fault c' w') := by
  obtain ⟨χ₁, hf, hc, -⟩ := Component.Twin.destroy c c' false χ w w' h hr
  unfold Component.abandon
  generalize c.destroy false w = o, c'.destroy false w' = o' at hf hc
  obtain ⟨⟨core, slots, children⟩, world, result⟩ := o
  obtain ⟨⟨core', slots', children'⟩, world', result'⟩ := o'
  obtain ⟨hcore, hslots, hchildren⟩ := hc
  exact ⟨χ₁, hf, ⟨{ hcore with phase := trivial }, hslots, hchildren⟩, rfl⟩

omit [ForeignBlocks H] in
theorem TextBlock.Twin.mount {t t' : TextBlock} (h : t.Twin χ t') {p : NodeId} (hp : χ.own p ∨ p = χ.target)
    {anchor : Option NodeId} (ha : ∀ a ∈ anchor, χ.mem a) (hr : World.Related χ w w') : ∃ χ₁,
    World.Follows χ χ₁ w w' (t.mount p anchor w).2 (t'.mount (χ.rename p) (anchor.map χ.rename) w').2 ∧
      (t.mount p anchor w).1.Twin χ₁ (t'.mount (χ.rename p) (anchor.map χ.rename) w').1 := by
  obtain ⟨χ₁, hf, ht⟩ := h.create hr
  have he := hf.document.extend
  have hpm : χ.mem p := hp.elim (hr.document.own_mem p) fun e => e ▸ hr.document.target_mem
  unfold TextBlock.mount
  generalize t.create w = o, t'.create w' = o' at hf ht
  obtain ⟨⟨prop, data, node⟩, world⟩ := o
  obtain ⟨⟨prop', data', node'⟩, world'⟩ := o'
  refine ⟨χ₁, ?_, ht⟩
  have hanchor : anchor.map χ.rename = anchor.map χ₁.rename :=
    Option.map_congr fun a hin => (he.rename a (ha a hin)).symm
  cases ht.node with
  | none => exact hf
  | @some x x' hx =>
    obtain ⟨hown, rfl⟩ := hx
    show World.Follows χ χ₁ w w' (world.edit (·.insertBefore p x anchor))
      (world'.edit (·.insertBefore (χ.rename p) (χ₁.rename x) (anchor.map χ.rename)))
    rw [hanchor, ← he.rename p hpm]
    refine hf.trans (.edit ?_)
    exact hf.document.relates.insertBefore (hp.imp (he.own p) fun e => e.trans he.target.symm) hown anchor

/-- mounting these rows comes to the same, in whatever worlds -/
def MountsAlike (row row' : List (Nested H)) : Prop :=
  ∀ (χ : Chart) (w w' : World H) (f f' : NodeId) (held held' later later' : List NodeId)
    (spots spots' : List (Nat × NodeId)), twinAll χ row row' → χ.Names f f' → List.Forall₂ χ.Names held held' →
      List.Forall₂ χ.Names later later' → List.Forall₂ χ.Spots spots spots' →
        eachOf (·.template.Steady) (fun _ => True) row ∨ row' = row ∧ w' = w ∧ χ.Fixed → World.Related χ w w' →
          (mountRow f held later row spots w).Along χ twinAll w w' (mountRow f' held' later' row' spots' w')

/-- mounts the nested blocks of a component whose roots are known, and puts what is in the fragment into the target -/
def Core.mountRows (fragment target : NodeId) (anchor : Option NodeId) (slotSpots childSpots : List (Nat × NodeId))
    (c : Core H) (slots children : List (Nested H)) (w : World H) : Outcome H (Component H) :=
  let contents := mountRow fragment c.handles (childSpots.map (·.2)) slots slotSpots w
  match contents.result with
  | .error fault => Component.abandon fault (.mk c contents.self children) contents.world
  | .ok _ =>
    let kids := mountRow fragment (c.handles ++ handlesOf contents.self) [] children childSpots contents.world
    match kids.result with
    | .error fault => Component.abandon fault (.mk c contents.self kids.self) kids.world
    | .ok _ =>
      .ok (.mk { c with phase := .mounted } contents.self kids.self)
        (kids.world.edit (·.insertBefore target fragment anchor))

theorem Core.mountBlocks_eq (f p : NodeId) (anchor : Option NodeId) (slotSpots childSpots : List (Nat × NodeId))
    (c : Core H) (slots children : List (Nested H)) (w : World H) :
    c.mountBlocks f p anchor slotSpots childSpots slots children w = Core.mountRows f p anchor slotSpots childSpots
      { c with roots := (w.document.children f).filter (!((slotSpots ++ childSpots).map (·.2)).contains ·) }
      slots children w := rfl

section

variable {c c' : Core H} {f f' p : NodeId} {anchor : Option NodeId} {slots slots' children children' : List (Nested H)}
  {slotSpots slotSpots' childSpots childSpots' : List (Nat × NodeId)} (h : c.Twin χ c') (hf : χ.Names f f')
  (hslots : twinAll χ slots slots') (hchildren : twinAll χ children children')
  (hspots : List.Forall₂ χ.Spots slotSpots slotSpots') (hspots' : List.Forall₂ χ.Spots childSpots childSpots')
  (hmount : MountsAlike slots slots') (hmount' : MountsAlike children children') (hp : χ.own p ∨ p = χ.target)
  (ha : ∀ a ∈ anchor, χ.mem a)
  (hs : (eachOf (·.template.Steady) (fun _ => True) slots ∧ eachOf (·.template.Steady) (fun _ => True) children) ∨
    c' = c ∧ slots' = slots ∧ children' = children ∧ w' = w ∧ χ.Fixed) (hr : World.Related χ w w')
include h hf hslots hchildren hspots hspots' hmount hmount' hp ha hs hr

theorem Core.Twin.mountRows : (c.mountRows f p anchor slotSpots childSpots slots children w).Along χ Component.Twin w w'
    (c'.mountRows f' (χ.rename p) (anchor.map χ.rename) slotSpots' childSpots' slots' children' w') := by
  have hm := hr.document.own_mem
  have hpm : χ.mem p := hp.elim (hm p) fun e => e ▸ hr.document.target_mem
  obtain ⟨χ₁, hfirst, hcontents, hres⟩ := hmount χ w w' f f' c.handles c'.handles _ _ _ _ hslots hf h.handles
    (Chart.names_of_spots hspots') hspots (hs.imp (fun h => h.1) fun e => e.2.imp id fun e => e.2) hr
  -- if the two worlds are one, so they are after the slots
  have hsame : c' = c ∧ slots' = slots ∧ children' = children ∧ w' = w ∧ χ.Fixed →
      mountRow f' c'.handles (childSpots'.map (·.2)) slots' slotSpots' w' =
        mountRow f c.handles (childSpots.map (·.2)) slots slotSpots w := by
    rintro ⟨hc, hrow, -, hw, hfixed⟩
    rw [hc, hrow, hw, hf.eq_of_fixed hm hfixed, Chart.spots_eq_of_fixed hspots hm hfixed,
      Chart.spots_eq_of_fixed hspots' hm hfixed]
  have hs₁ : eachOf (·.template.Steady) (fun _ => True) children ∨ children' = children ∧
      (mountRow f' c'.handles (childSpots'.map (·.2)) slots' slotSpots' w').world =
        (mountRow f c.handles (childSpots.map (·.2)) slots slotSpots w).world ∧ χ₁.Fixed :=
    hs.imp (fun h => h.2) fun e =>
      ⟨e.2.2.1, congrArg Outcome.world (hsame e), hfirst.fixed e.2.2.2.1 e.2.2.2.2⟩
  unfold Core.mountRows
  dsimp only
  rw [hres]
  generalize mountRow f c.handles (childSpots.map (·.2)) slots slotSpots w = o at hfirst hcontents hs₁ ⊢
  generalize mountRow f' c'.handles (childSpots'.map (·.2)) slots' slotSpots' w' = o' at hfirst hcontents hs₁ ⊢
  obtain ⟨contents, world, result⟩ := o
  obtain ⟨contents', world', result'⟩ := o'
  have he := hfirst.document.extend
  have hm₁ := hfirst.document.relates.own_mem
  have hr₁ := hfirst.related hr
  have h₁ := h.mono he hm
  have hchildren₁ := twinAll.mono he hm _ _ hchildren
  cases result with
  | error fault =>
    have htwin : (Component.mk c contents children).Twin χ₁ (.mk c' contents' children') := ⟨h₁, hcontents, hchildren₁⟩
    obtain ⟨χ₂, hfollow, hgiven, hresult⟩ := htwin.abandon fault hr₁
    exact ⟨χ₂, hfirst.trans hfollow, hgiven, hresult⟩
  | ok _ =>
    obtain ⟨χ₂, hsecond, hkids, hres'⟩ := hmount' χ₁ world world' f f' _ _ [] [] _ _ hchildren₁ (hf.mono he hm)
      (Chart.names_append h₁.handles (twinAll.handles _ _ hcontents)) .nil (Chart.spots_mono he hm hspots') hs₁ hr₁
    have hboth := hfirst.trans hsecond
    have he' := hsecond.document.extend
    have hr₂ := hsecond.related hr₁
    have h₂ := h₁.mono he' hm₁
    have hcontents₂ := twinAll.mono he' hm₁ _ _ hcontents
    dsimp only at hsecond hkids hres' hboth ⊢
    rw [hres']
    generalize mountRow f (c.handles ++ handlesOf contents) [] children childSpots world = k at *
    generalize mountRow f' (c'.handles ++ handlesOf contents') [] children' childSpots' world' = k' at *
    obtain ⟨kids, last, result⟩ := k
    obtain ⟨kids', last', result'⟩ := k'
    cases result with
    | error fault =>
      have htwin : (Component.mk c contents kids).Twin χ₂ (.mk c' contents' kids') := ⟨h₂, hcontents₂, hkids⟩
      obtain ⟨χ₃, hfollow, hgiven, hresult⟩ := htwin.abandon fault hr₂
      exact ⟨χ₃, hboth.trans hfollow, hgiven, hresult⟩
    | ok _ =>
      have he₂ := hboth.document.extend
      obtain ⟨hown, hname⟩ := hf.mono he₂ hm
      have hput : World.Follows χ₂ χ₂ last last' (last.edit (·.insertBefore p f anchor))
          (last'.edit (·.insertBefore (χ.rename p) f' (anchor.map χ.rename))) := by
        rw [hname, ← he₂.rename p hpm,
          show anchor.map χ.rename = anchor.map χ₂.rename from Option.map_congr fun a hin => (he₂.rename a (ha a hin)).symm]
        exact .edit (hr₂.document.insertBefore (hp.imp (he₂.own p) fun e => e.trans he₂.target.symm) hown anchor)
      exact ⟨χ₂, hboth.trans hput, ⟨{ h₂ with phase := trivial }, hcontents₂, hkids⟩, rfl⟩

/-- the blocks of a component that is bound, and then its own nodes -/
theorem Core.Twin.mountBlocks :
    (c.mountBlocks f p anchor slotSpots childSpots slots children w).Along χ Component.Twin w w'
      (c'.mountBlocks f' (χ.rename p) (anchor.map χ.rename) slotSpots' childSpots' slots' children' w') := by
  have hm := hr.document.own_mem
  have hall := Chart.names_of_spots (List.rel_append hspots hspots')
  have hroots := Chart.names_filter (p := fun x => !((slotSpots ++ childSpots).map (·.2)).contains x)
    (q := fun x => !((slotSpots' ++ childSpots').map (·.2)).contains x) (hr.names_children hf)
    fun x _ => congrArg (!·) (Chart.contains_of_names hall hr.document.injective x)
  rw [Core.mountBlocks_eq, Core.mountBlocks_eq]
  refine Core.Twin.mountRows { h with roots := hroots } hf hslots hchildren hspots hspots' hmount hmount' hp ha
    (hs.imp_right ?_) hr
  rintro ⟨hc, hrow, hrow', hw, hfixed⟩
  refine ⟨?_, hrow, hrow', hw, hfixed⟩
  rw [hc, hw, hf.eq_of_fixed hm hfixed, Chart.spots_eq_of_fixed hspots hm hfixed,
    Chart.spots_eq_of_fixed hspots' hm hfixed]

end

mutual
/-- **Mounting what was created.** -/
theorem Component.Twin.mountCreated : (c c' : Component H) → (p : NodeId) → (anchor : Option NodeId) → (χ : Chart) →
    (w w' : World H) → c.Twin χ c' → χ.own p ∨ p = χ.target → (∀ a ∈ anchor, χ.mem a) →
      c.Steady ∨ c' = c ∧ w' = w ∧ χ.Fixed → World.Related χ w w' →
        (c.mountCreated p anchor w).Along χ Component.Twin w w'
          (c'.mountCreated (χ.rename p) (anchor.map χ.rename) w')
  | .mk core slots children, .mk core' slots' children', p, anchor, χ, w, w', h, hp, ha, hs, hr => by
    obtain ⟨hcore, hslots, hchildren⟩ := h
    have hphase := hcore.phase
    have hm := hr.document.own_mem
    rw [Component.mountCreated, Component.mountCreated]
    generalize hphase₁ : core.phase = phase, hphase₁' : core'.phase = phase' at hphase
    cases phase with
    | unmounted =>
      cases phase' with
      | unmounted => exact ⟨χ, .refl hr, ⟨hcore, hslots, hchildren⟩, rfl⟩
      | _ => exact hphase.elim
    | destroyed =>
      cases phase' with
      | destroyed => exact ⟨χ, .refl hr, ⟨hcore, hslots, hchildren⟩, rfl⟩
      | _ => exact hphase.elim
    | mounted =>
      cases phase' with
      | mounted => exact ⟨χ, .refl hr, ⟨hcore, hslots, hchildren⟩, rfl⟩
      | _ => exact hphase.elim
    | created f =>
      cases phase' with
      | created f' =>
        have hf : χ.Names f f' := hphase
        -- if the two worlds are one, so are the two components and all that is in them
        have hsame : Component.mk core' slots' children' = .mk core slots children ∧ w' = w ∧ χ.Fixed →
            core' = core ∧ slots' = slots ∧ children' = children ∧ w' = w ∧ f' = f := by
          rintro ⟨hc, hw, hfixed⟩
          obtain ⟨hc, hc', hc''⟩ := Component.mk.inj hc
          exact ⟨hc, hc', hc'', hw, hf.eq_of_fixed hm hfixed⟩
        obtain ⟨hbind, hown, hres⟩ := hcore.bind hf (hs.imp (fun h => h.1) fun e => ⟨(hsame e).1, e.2⟩) hr
        have hr₁ := hbind.related hr
        have hgive : ∀ fault, Outcome.Along χ Component.Twin w w'
            (Component.abandon fault (.mk (core.bind f w).self slots children) (core.bind f w).world)
            (Component.abandon fault (.mk (core'.bind f' w').self slots' children') (core'.bind f' w').world) := by
          intro fault
          have htwin : (Component.mk (core.bind f w).self slots children).Twin χ
              (.mk (core'.bind f' w').self slots' children') := ⟨hown, hslots, hchildren⟩
          obtain ⟨χ₁, hfollow, hgiven, hresult⟩ := htwin.abandon fault hr₁
          exact ⟨χ₁, hbind.trans hfollow, hgiven, hresult⟩
        dsimp only
        rw [hres, hcore.template]
        cases (core.bind f w).result with
        | error fault => exact hgive fault
        | ok _ =>
          dsimp only
          rcases hr₁.spots hf .slot (indicesOf core.template.placeholders .slot) with
            ⟨fault, hslot, hslot'⟩ | ⟨slotSpots, slotSpots', hslot, hslot', hspots⟩
          · rw [hslot, hslot']
            exact hgive fault
          rcases hr₁.spots hf .child (indicesOf core.template.placeholders .child) with
            ⟨fault, hchild, hchild'⟩ | ⟨childSpots, childSpots', hchild, hchild', hspots'⟩
          · rw [hslot, hslot', hchild, hchild']
            exact hgive fault
          rw [hslot, hslot', hchild, hchild']
          dsimp only
          obtain ⟨χ₁, hfollow, hmounted, hresult⟩ := hown.mountBlocks hf hslots hchildren hspots hspots'
            (mountRow_twin slots slots') (mountRow_twin children children') hp ha
            (hs.imp (fun h => h.2) fun e => by
              obtain ⟨hc, hc', hc'', hw, hf'⟩ := hsame e
              exact ⟨by rw [hc, hw, hf'], hc', hc'', by rw [hc, hw, hf'], e.2.2⟩) hr₁
          exact ⟨χ₁, hbind.trans hfollow, hmounted, hresult⟩
      | _ => exact hphase.elim
theorem mountRow_twin : (row row' : List (Nested H)) → (χ : Chart) → (w w' : World H) → (f f' : NodeId) →
    (held held' later later' : List NodeId) → (spots spots' : List (Nat × NodeId)) → twinAll χ row row' →
      χ.Names f f' → List.Forall₂ χ.Names held held' → List.Forall₂ χ.Names later later' →
        List.Forall₂ χ.Spots spots spots' →
          eachOf (·.template.Steady) (fun _ => True) row ∨ row' = row ∧ w' = w ∧ χ.Fixed → World.Related χ w w' →
            (mountRow f held later row spots w).Along χ twinAll w w' (mountRow f' held' later' row' spots' w')
  | [], [], χ, w, w', f, f', held, held', later, later', spots, spots', _, _, hheld, hlater, hspots, _, hr => by
    exact ⟨χ, hr.discardAll (Chart.names_append hheld hlater) hspots, trivial, rfl⟩
  | .mk index atRoot block :: row, .mk index' atRoot' block' :: row', χ, w, w', f, f', held, held', later, later',
      spots, spots', h, hf, hheld, hlater, hspots, hs, hr => by
    obtain ⟨rfl, rfl, hblock, hrow⟩ := h
    have hm := hr.document.own_mem
    obtain ⟨hempty, hahead⟩ := Chart.spots_cut hspots index'
    have hkept := Chart.names_append (Chart.names_append hheld (Chart.names_of_spots hahead)) hlater
    have hfirst := hr.discardAll hkept hempty
    have hr₁ := hfirst.related hr
    -- if the two worlds are one, so are the two rows, and nothing in them goes by another name
    have hsame : Nested.mk index' atRoot' block' :: row' = .mk index' atRoot' block :: row ∧ w' = w ∧ χ.Fixed →
        block' = block ∧ row' = row ∧
          w'.discardAll (held' ++ (spots'.dropWhile (·.1 ≠ index')).map (·.2) ++ later')
              (spots'.takeWhile (·.1 ≠ index')) =
            w.discardAll (held ++ (spots.dropWhile (·.1 ≠ index')).map (·.2) ++ later)
              (spots.takeWhile (·.1 ≠ index')) ∧ χ.Fixed := by
      rintro ⟨hrows, hw, hfixed⟩
      obtain ⟨hn, hrest⟩ := List.cons.inj hrows
      refine ⟨(Nested.mk.inj hn).2.2, hrest, ?_, hfixed⟩
      rw [hw, Chart.eq_of_fixed hheld hm hfixed, Chart.eq_of_fixed hlater hm hfixed,
        Chart.spots_eq_of_fixed hspots hm hfixed]
    have hs₁ := hs.imp_right hsame
    rw [mountRow, mountRow]
    dsimp only
    generalize w.discardAll (held ++ (spots.dropWhile (·.1 ≠ index')).map (·.2) ++ later)
      (spots.takeWhile (·.1 ≠ index')) = w₁ at hfirst hr₁ hs₁ ⊢
    generalize w'.discardAll (held' ++ (spots'.dropWhile (·.1 ≠ index')).map (·.2) ++ later')
      (spots'.takeWhile (·.1 ≠ index')) = w₁' at hfirst hr₁ hs₁ ⊢
    generalize spots.dropWhile (·.1 ≠ index') = ahead, spots'.dropWhile (·.1 ≠ index') = ahead' at hahead
    cases hahead with
    | nil =>
      obtain ⟨χ₁, hfollow, hothers, hres⟩ := mountRow_twin row row' χ w₁ w₁' f f' held held' later later' [] [] hrow hf
        hheld hlater .nil (hs₁.imp (fun h => h.2) fun e => e.2) hr₁
      refine ⟨χ₁, hfirst.trans hfollow, ⟨rfl, rfl, ?_, hothers⟩, hres⟩
      exact Block.Twin.mono hfollow.document.extend hm block block' hblock
    | @cons a a' after after' ha hafter =>
      obtain ⟨i, spot⟩ := a
      obtain ⟨i', spot'⟩ := a'
      have hspot : χ.Names spot spot' := ha.2
      obtain ⟨hown, rfl⟩ := hspot
      have hpending := Chart.names_append (Chart.names_of_spots hafter) hlater
      have hne : spot ≠ χ.target := fun e => hr.document.target_own (e ▸ hown)
      have hup := hr₁.document.own_up spot hown
      dsimp only
      rw [hr₁.document.parent spot (hm spot hown) hne]
      cases hfind : w₁.document.parent? spot with
      | none =>
        have hheld₁ := Chart.names_append hheld hpending
        have hgone := hr₁.discard ⟨hown, rfl⟩ hheld₁
        obtain ⟨χ₁, hfollow, hothers, hres⟩ := mountRow_twin row row' χ _ _ f f' held held' later later' after after'
          hrow hf hheld hlater hafter (hs₁.imp (fun h => h.2) fun ⟨_, hrows, hw, hfixed⟩ => ⟨hrows, by
            rw [hw, hfixed spot (hm spot hown)]
            exact congrArg (w₁.discard · spot) (Chart.eq_of_fixed hheld₁ hm hfixed), hfixed⟩) (hgone.related hr₁)
        refine ⟨χ₁, (hfirst.trans hgone).trans hfollow, ⟨rfl, rfl, ?_, hothers⟩, hres⟩
        exact Block.Twin.mono hfollow.document.extend hm block block' hblock
      | some parent =>
        have hp := hup parent hfind
        have hroot : (χ.rename parent == f') = (parent == f) := by
          rw [hf.2, Bool.eq_iff_iff, beq_iff_eq, beq_iff_eq]
          exact hr.document.injective.eq_iff
        obtain ⟨χ₁, hmount, hnow, hres⟩ := Block.Twin.mountCreated block block' parent (some spot) χ w₁ w₁' hblock hp
          (fun x hx => Option.some.inj hx ▸ hm spot hown)
          (hs₁.imp (fun h => h.1) fun ⟨hblocks, _, hw, hfixed⟩ => ⟨hblocks, hw, hfixed⟩) hr₁
        have he := hmount.document.extend
        have hm₁ := hmount.document.relates.own_mem
        have hsecond := hfirst.trans hmount
        have hrow₁ := twinAll.mono he hm row row' hrow
        have hlast : block' = block ∧ w₁' = w₁ ∧ χ.Fixed →
            block'.mountCreated (χ.rename parent) (some (χ.rename spot)) w₁' =
              block.mountCreated parent (some spot) w₁ := by
          rintro ⟨hblocks, hw, hfixed⟩
          rw [hblocks, hw, hfixed spot (hm spot hown),
            hfixed parent (hp.elim (hm parent) fun e => e ▸ hr.document.target_mem)]
        rw [Option.map_some] at hmount hnow hres ⊢
        dsimp only
        rw [hres, hroot]
        cases (block.mountCreated parent (some spot) w₁).result with
        | error fault => exact ⟨χ₁, hsecond, ⟨rfl, rfl, hnow, hrow₁⟩, rfl⟩
        | ok _ =>
          have hheld₁ := Chart.names_append (Chart.names_mono he hm hheld) (Block.Twin.handles _ _ hnow)
          have hlater₁ := Chart.names_mono he hm hlater
          have hafter₁ := Chart.spots_mono he hm hafter
          have hall₁ := Chart.names_append hheld₁ (Chart.names_append (Chart.names_of_spots hafter₁) hlater₁)
          have hspot₁ : χ₁.Names spot (χ.rename spot) := Chart.Names.mono ⟨hown, rfl⟩ he hm
          have hgone := (hmount.related hr₁).discard hspot₁ hall₁
          obtain ⟨χ₂, hfollow, hothers, hres'⟩ := mountRow_twin row row' χ₁ _ _ f f' _ _ later later' after after' hrow₁
            (hf.mono he hm) hheld₁ hlater₁ hafter₁ (hs₁.imp (fun h => h.2) fun ⟨hblocks, hrows, hw, hfixed⟩ => ⟨hrows, by
              rw [Chart.eq_of_fixed hall₁ hm₁ (hmount.fixed hw hfixed), hlast ⟨hblocks, hw, hfixed⟩,
                hfixed spot (hm spot hown)], hmount.fixed hw hfixed⟩) (hgone.related (hmount.related hr₁))
          refine ⟨χ₂, (hsecond.trans hgone).trans hfollow, ⟨rfl, rfl, ?_, hothers⟩, hres'⟩
          exact Block.Twin.mono hfollow.document.extend hm₁ _ _ hnow
theorem Block.Twin.mountCreated : (b b' : Block H) → (p : NodeId) → (anchor : Option NodeId) → (χ : Chart) →
    (w w' : World H) → b.Twin χ b' → χ.own p ∨ p = χ.target → (∀ a ∈ anchor, χ.mem a) →
      b.Each (·.template.Steady) (fun _ => True) ∨ b' = b ∧ w' = w ∧ χ.Fixed → World.Related χ w w' →
        (b.mountCreated p anchor w).Along χ Block.Twin w w' (b'.mountCreated (χ.rename p) (anchor.map χ.rename) w')
  | .text t, .text t', p, anchor, χ, w, w', h, hp, ha, _, hr => by
    obtain ⟨χ₁, hf, ht⟩ := TextBlock.Twin.mount h hp ha hr
    exact ⟨χ₁, hf, ht, rfl⟩
  | .component c, .component c', p, anchor, χ, w, w', h, hp, ha, hs, hr => by
    obtain ⟨χ₁, hf, hc, hres⟩ := Component.Twin.mountCreated c c' p anchor χ w w' h hp ha
      (hs.imp_right fun e => ⟨Block.component.inj e.1, e.2⟩) hr
    exact ⟨χ₁, hf, hc, hres⟩
end

/-- **Mounting.** -/
theorem Component.Twin.mount {c c' : Component H} (h : c.Twin χ c') {anchor : Option NodeId}
    (ha : ∀ a ∈ anchor, χ.mem a) (hs : c.Steady ∨ c' = c ∧ w' = w ∧ χ.Fixed) (hr : World.Related χ w w') :
    (c.mount χ.target anchor w).Along χ Component.Twin w w'
      (c'.mount (χ.rename χ.target) (anchor.map χ.rename) w') := by
  have hphase : c.core.phase.Twin χ c'.core.phase := by
    cases c
    cases c'
    exact h.1.phase
  have hbuild : (o : Outcome H (Component H)) → o = c.create w → (o' : Outcome H (Component H)) → o' = c'.create w' →
      Outcome.Along χ Component.Twin w w'
        (match o.result with
          | .error _ => o
          | .ok _ => o.self.mountCreated χ.target anchor o.world)
        (match o'.result with
          | .error _ => o'
          | .ok _ => o'.self.mountCreated (χ.rename χ.target) (anchor.map χ.rename) o'.world) := by
    rintro o ho o' ho'
    obtain ⟨χ₁, hfollow, hcreated, hres⟩ := Component.Twin.create c c' χ w w' h hr
    have hsteady : o.self.Steady ∨ o'.self = o.self ∧ o'.world = o.world ∧ χ₁.Fixed := by
      refine hs.imp (fun hs => ?_) fun ⟨hc, hw, hfixed⟩ => ?_
      · rw [ho]
        exact (c.create_values w).each (fun _ _ hv => by rw [Core.SameValues.template hv]; exact id) (fun _ _ _ => id) hs
      · rw [ho, ho', hc, hw]
        exact ⟨rfl, rfl, hfollow.fixed hw hfixed⟩
    rw [← ho, ← ho'] at hfollow hcreated hres
    rw [hres]
    cases hok : o.result with
    | error fault => exact ⟨χ₁, hfollow, hcreated, hres⟩
    | ok _ =>
      have he := hfollow.document.extend
      have htarget := hr.document.target_mem
      obtain ⟨χ₂, hmount, hmounted, hresult⟩ := Component.Twin.mountCreated o.self o'.self χ.target anchor χ₁ _ _
        hcreated (.inr he.target.symm) (fun a hin => he.mem a (ha a hin)) hsteady (hfollow.related hr)
      rw [he.rename _ htarget, show anchor.map χ₁.rename = anchor.map χ.rename from
        Option.map_congr fun a hin => he.rename a (ha a hin)] at hmount hmounted hresult
      exact ⟨χ₂, hfollow.trans hmount, hmounted, hresult⟩
  unfold Component.mount
  generalize c.core.phase = p, c'.core.phase = p' at hphase
  cases p with
  | unmounted =>
    cases p' with
    | unmounted => exact hbuild _ rfl _ rfl
    | _ => exact hphase.elim
  | destroyed =>
    cases p' with
    | destroyed => exact hbuild _ rfl _ rfl
    | _ => exact hphase.elim
  | created f =>
    cases p' with
    | created f' => exact Component.Twin.mountCreated c c' χ.target anchor χ w w' h (.inr rfl) ha hs hr
    | _ => exact hphase.elim
  | mounted =>
    cases p' with
    | mounted => exact ⟨χ, .refl hr, h, rfl⟩
    | _ => exact hphase.elim

def Call.rename {N : Type} (ρ : N → N) : Call N → Call N
  | .mount target anchor => .mount (ρ target) (anchor.map ρ)
  | call => call

/-- **Any call**, if it mounts the component into the target, before a node of the chart or at the end. -/
theorem Component.Twin.call {c c' : Component H} (h : c.Twin χ c') {call : Call NodeId}
    (hcall : ∀ target anchor, call = .mount target anchor → target = χ.target ∧ ∀ a ∈ anchor, χ.mem a)
    (hs : c.Steady ∨ c' = c ∧ w' = w ∧ χ.Fixed) (hr : World.Related χ w w') :
    (c.call w call).Along χ Component.Twin w w' (c'.call w' (call.rename χ.rename)) := by
  cases call with
  | create => exact Component.Twin.create c c' χ w w' h hr
  | mount target anchor =>
    obtain ⟨rfl, ha⟩ := hcall target anchor rfl
    exact h.mount ha hs hr
  | update changed => exact Component.Twin.update c c' changed χ w w' h hr
  | set incoming => exact h.tick incoming none hr
  | tick incoming context => exact h.tick incoming context hr
  | transition t isLocal =>
    obtain ⟨h1, h2⟩ := Component.Twin.transition c c' t isLocal w w' h
    show Outcome.Along χ Component.Twin w w' (.ok (c.transition t isLocal w).1 (c.transition t isLocal w).2)
      (.ok (c'.transition t isLocal w').1 (c'.transition t isLocal w').2)
    rw [h1, h2]
    exact ⟨χ, .refl hr, h, rfl⟩
  | destroy detaching => exact Component.Twin.destroy c c' detaching χ w w' h hr

end LiveMarkup
