/-
Instances of a template, and creating them.

- `ofTemplate_stands`: an instance is unmounted, with all its children, and has nothing in the document;
- `Core.Blank.create`: a component with texts for its slots is created if its children are;
- `Stands.create`: creating succeeds, and adds to the document what the component has while it waits.
-/
import LiveMarkup.Proofs.Component.Instance
import LiveMarkup.Proofs.Component.Stands

namespace LiveMarkup

open Markup Marker Forest

variable {H : Host}

/-! ## Instances -/

/-- an instance is unmounted and has nothing in the document -/
theorem Component.InstanceOf.stands {t : Template (Action H)} {props : Props} {c : Component H}
    (h : c.InstanceOf t props) : Stands .unmounted (.start props) c nil := by
  induction h with
  | @mk t props channel children indices flags placed kids ih =>
    let nested : Nat × Bool × Component H → Nested H := fun e => .mk e.1 e.2.1 (.component e.2.2)
    let kid : Nat × Bool × Component H → Kid H := fun e => ⟨e.1, e.2.1, e.2.2, nil⟩
    have hchildren : children ∈ Set.range (List.map nested) := by
      rw [Set.range_list_map]
      intro n hn
      obtain ⟨u, bindings, child, -, hblock⟩ := placed n hn
      obtain ⟨index, atRoot, block⟩ := n
      exact ⟨(index, atRoot, child), congrArg (Nested.mk index atRoot) hblock.symm⟩
    obtain ⟨entries, rfl⟩ := hchildren
    have hrow : (entries.map kid).map Kid.nested = entries.map nested := List.map_map
    have hplaced : ∀ k ∈ entries.map kid, ∃ bindings,
        (Core.initial t props channel).template.placeholders[k.index]? =
            some (.child k.component.core.template bindings) ∧
          Stands .unmounted (.start (childProps bindings props)) k.component k.ground := by
      intro k hk
      obtain ⟨e, he, rfl⟩ := List.mem_map.1 hk
      have hn : nested e ∈ entries.map nested := List.mem_map_of_mem he
      obtain ⟨u, bindings, child, hp, hblock⟩ := placed _ hn
      obtain rfl := Block.component.inj hblock
      have htemplate := (kids _ hn u bindings _ hp rfl).template
      exact ⟨bindings, htemplate.symm ▸ hp, ih _ hn u bindings _ hp rfl⟩
    rw [← hrow]
    refine .mk rfl ⟨?_, fun k hk => ?_⟩ ⟨rfl, ⟨rfl, rfl, rfl, rfl⟩, rfl⟩ fun k hk => ?_
    · rw [← hrow, List.map_map] at indices
      exact indices
    · obtain ⟨bindings, hp, -⟩ := hplaced k hk
      exact ⟨bindings, hp⟩
    · obtain ⟨bindings, hp, hstands⟩ := hplaced k hk
      rw [Core.handed, bindingsAt_eq hp]
      exact hstands

/-- making an instance leaves the document alone -/
theorem Component.ofTemplate_alike (t : Template (Action H)) (props : Props) (w : World H) :
    w.Alike (ofTemplate t props w).2 := by
  refine (ofTemplate.mutual_induct (fun t props w => w.Alike (ofTemplate t props w).2)
    (fun index ps props w => w.Alike (childrenOf index ps props w).2) ?_ ?_ ?_ ?_).1 t props w
  · intro segments placeholders skeleton props w opened channel hopened children made hchildren ih
    obtain rfl : w.openChannel.1 = opened := congrArg Prod.fst hopened
    exact ⟨ih.document, ih.backend⟩
  · exact fun _ _ w => .refl w
  · intro index t bindings ps props w c made hc children rest hchildren ihc ihps
    rw [hc] at ihc
    rw [childrenOf, hc]
    exact ihc.trans ihps
  · intro index p ps props w hp ih
    rw [childrenOf_of_not_child hp]
    exact ih

/-- an instance is unmounted and has nothing in the document, which is left alone -/
theorem ofTemplate_stands (t : Template (Action H)) (props : Props) (w : World H) :
    Stands .unmounted (.start props) (Component.ofTemplate t props w).1 nil ∧
      (Component.ofTemplate t props w).1.core.template = t ∧ (Component.ofTemplate t props w).1.props = props ∧
      w.Alike (Component.ofTemplate t props w).2 := by
  have h := Component.ofTemplate_instance t props w
  exact ⟨h.stands, h.template, h.props, Component.ofTemplate_alike t props w⟩

/-! ## Cells -/

section

variable {T : Type}

/-- new text cells follow the text placeholders, and their nodes are added in order -/
theorem textCellsFor_spec (props : Props) (ps : List (Placeholder (Action H) T)) (index : Nat) (w : World H)
    {F : Forest Bare} (hw : w.document.Holds F) :
    (textCellsFor props index ps w).1.map (fun cell => (cell.index, cell.prop)) = spotsOf Placeholder.text? index ps ∧
      (textCellsFor props index ps w).2.backend = w.backend ∧
      (textCellsFor props index ps w).2.document.Holds
        (F ++ join ((textCellsFor props index ps w).1.map (TextCell.ground props.text))) := by
  induction ps generalizing index w F with
  | nil => exact ⟨rfl, rfl, by rw [textCellsFor, List.map_nil, join, List.foldr_nil, append_nil]; exact hw⟩
  | cons p ps ih =>
    rw [spotsOf_cons]
    cases p with
    | text prop =>
      have hadd := hw.add (.text (props.text prop))
      obtain ⟨h1, h2, h3⟩ := ih (index + 1) (w.addText (props.text prop)).1 hadd
      rw [textCellsFor]
      dsimp only
      refine ⟨by rw [List.map_cons, h1]; rfl, h2, ?_⟩
      rw [append_assoc] at h3
      exact h3
    | _ => exact ih (index + 1) w hw

/-- an attribute cell is of an attribute placeholder -/
theorem attribute_mem_of_cell {props : Props} {index : Nat} {ps : List (Placeholder (Action H) T)} {cell : AttributeCell}
    (h : cell ∈ attributeCellsFor props index ps) : .attribute cell.prop cell.name ∈ ps := by
  induction ps generalizing index with
  | nil => cases h
  | cons p ps ih =>
    cases p with
    | «attribute» prop name =>
      rcases List.mem_cons.1 h with rfl | h
      · exact List.mem_cons_self
      · exact List.mem_cons_of_mem _ (ih h)
    | _ => exact List.mem_cons_of_mem _ (ih h)

/-- new attribute cells follow the attribute placeholders -/
theorem attributeCellsFor_spec (props : Props) (ps : List (Placeholder (Action H) T)) (index : Nat) :
    (attributeCellsFor props index ps).map (fun cell => (cell.index, cell.prop, cell.name)) =
        spotsOf Placeholder.attribute? index ps ∧
      ∀ cell ∈ attributeCellsFor props index ps, cell.value = props.text cell.prop ∧ cell.element = none := by
  induction ps generalizing index with
  | nil => exact ⟨rfl, fun _ h => absurd h List.not_mem_nil⟩
  | cons p ps ih =>
    obtain ⟨h1, h2⟩ := ih (index + 1)
    rw [spotsOf_cons]
    cases p with
    | «attribute» prop name =>
      rw [attributeCellsFor]
      exact ⟨by rw [List.map_cons, h1]; rfl, List.forall_mem_cons.2 ⟨⟨rfl, rfl⟩, h2⟩⟩
    | _ => exact ⟨h1, h2⟩

end

/-! ## Creating -/

variable [ForeignBlocks H]

/-- creating this component succeeds and adds to the document what it then has -/
structure Creates (g : History) (c : Component H) (w : World H) (F : Forest Bare) : Prop where
  ok : (c.create w).result = .ok ()
  template : (c.create w).self.core.template = c.core.template
  props : (c.create w).self.props = c.props
  backend : (c.create w).world.backend = w.backend
  stands : ∃ X, Stands .created g (c.create w).self X ∧ (c.create w).world.document.Holds (F ++ X)

/-- a row of children is created one after another -/
theorem createAll_spec {g : Nat → History} {row : List (Kid H)}
    (hc : ∀ k ∈ row, ∀ (w : World H) (F : Forest Bare), w.document.Holds F → Creates (g k.index) k.component w F) (w : World H)
    {F : Forest Bare} (hw : w.document.Holds F) :
    (createAll (row.map Kid.nested) w).result = .ok () ∧
      (createAll (row.map Kid.nested) w).world.backend = w.backend ∧
      ∃ row' : List (Kid H), (createAll (row.map Kid.nested) w).self = row'.map Kid.nested ∧
        List.Forall₂ Kid.Alike row row' ∧ (∀ k ∈ row', Stands .created (g k.index) k.component k.ground) ∧
        (createAll (row.map Kid.nested) w).world.document.Holds (F ++ join (row'.map Kid.ground)) := by
  induction row generalizing w F with
  | nil =>
    refine ⟨rfl, rfl, [], rfl, .nil, fun _ h => absurd h List.not_mem_nil, ?_⟩
    rw [List.map_nil, List.map_nil, createAll, join, List.foldr_nil, append_nil]
    exact hw
  | cons k row ih =>
    rw [List.forall_mem_cons] at hc
    have hk := hc.1 w F hw
    obtain ⟨X, hX, hholds⟩ := hk.stands
    obtain ⟨hok, hb, row', hself, halike, hstands, hw'⟩ := ih hc.2 (k.component.create w).world hholds
    have hstep : createAll ((k :: row).map Kid.nested) w =
        (createAll (row.map Kid.nested) (k.component.create w).world).map
          (.mk k.index k.atRoot (.component (k.component.create w).self) :: ·) := by
      rw [List.map_cons, Kid.nested, createAll, Block.create]
      dsimp only [Outcome.map]
      rw [hk.ok]
    rw [hstep]
    refine ⟨hok, hb.trans hk.backend, ⟨k.index, k.atRoot, (k.component.create w).self, X⟩ :: row', ?_, ?_, ?_, ?_⟩
    · rw [Outcome.map, hself]
      rfl
    · exact .cons ⟨rfl, hk.template⟩ halike
    · exact List.forall_mem_cons.2 ⟨hX, hstands⟩
    · rw [append_assoc] at hw'
      exact hw'

/-- a component with a fragment and cells of its own -/
def Core.prepared (c : Core H) (w : World H) : Core H :=
  { (c.prepare w).1 with phase := .created w.document.fresh }

/-- a text for the slot at a placeholder, before it has a node -/
def textAt (e : Nat × String) : Nested H := .mk e.1 false (.text (.fixed e.2))

/-- texts for slots are created one after another -/
theorem createAll_texts (texts : List (Nat × String)) (w : World H) {F : Forest Bare} (hw : w.document.Holds F) :
    (createAll (texts.map textAt) w).result = .ok () ∧ (createAll (texts.map textAt) w).world.backend = w.backend ∧
      ∃ insets : List Inset, insets.map (fun a => (a.index, a.data)) = texts ∧
        (createAll (texts.map textAt) w).self = insets.map Inset.nested ∧
        (createAll (texts.map textAt) w).world.document.Holds (F ++ join (insets.map Inset.ground)) := by
  induction texts generalizing w F with
  | nil =>
    refine ⟨rfl, rfl, [], rfl, rfl, ?_⟩
    rw [List.map_nil, List.map_nil, createAll, join, List.foldr_nil, append_nil]
    exact hw
  | cons e texts ih =>
    obtain ⟨index, data⟩ := e
    obtain ⟨hok, hb, insets, htexts, hself, hholds⟩ := ih (w.addText data).1 (hw.add (.text data))
    refine ⟨hok, hb, ⟨index, data, (w.addText data).2⟩ :: insets, congrArg ((index, data) :: ·) htexts, ?_, ?_⟩
    · exact congrArg (Nested.mk index false (.text ⟨none, data, some (w.addText data).2⟩) :: ·) hself
    · rw [append_assoc] at hholds
      exact hholds

/-- a component that has nothing in the document is created, with texts for its slots, if its children are -/
theorem Core.Blank.create {core : Core H} (hblank : core.Blank) (hphase : core.phase = .unmounted ∨ core.phase = .destroyed)
    {row : List (Kid H)} (embeds : core.Embeds row) {g : Nat → History}
    (hkids : ∀ k ∈ row, ∀ (w : World H) (F : Forest Bare), w.document.Holds F → Creates (g k.index) k.component w F)
    (texts : List (Nat × String)) (w : World H) {F : Forest Bare} (hw : w.document.Holds F) :
    ∃ (row' : List (Kid H)) (insets : List Inset) (w' : World H),
      (Component.mk core (texts.map textAt) (row.map Kid.nested)).create w =
        .ok (.mk (core.prepared w) (insets.map Inset.nested) (row'.map Kid.nested)) w' ∧
      insets.map (fun a => (a.index, a.data)) = texts ∧ w'.backend = w.backend ∧ (core.prepared w).Embeds row' ∧
      (core.prepared w).Waits w.document.fresh row' ∧ (∀ k ∈ row', Stands .created (g k.index) k.component k.ground) ∧
      w'.document.Holds (F ++ ((core.prepared w).waiting w.document.fresh row' ++ join (insets.map Inset.ground))) := by
  obtain ⟨htexts, hb, htextsHold⟩ := textCellsFor_spec core.props core.template.placeholders 0
    (w.addFragment core.template.skeleton).1 (hw.addFragment core.template.skeleton)
  obtain ⟨hattributes, hvalues⟩ := attributeCellsFor_spec core.props core.template.placeholders 0
  obtain ⟨hok, hb', row', hself, halike, hstands, hhold⟩ := createAll_spec hkids (core.prepare w).2.2 htextsHold
  obtain ⟨hok', hb'', insets, hinsets, hself', hhold'⟩ := createAll_texts texts _ hhold
  have hstep : (Component.mk core (texts.map textAt) (row.map Kid.nested)).create w =
      .ok (.mk (core.prepared w) (insets.map Inset.nested) (row'.map Kid.nested))
        (createAll (texts.map textAt) (createAll (row.map Kid.nested) (core.prepare w).2.2).world).world := by
    rw [Component.create]
    rcases hphase with hp | hp <;>
    · rw [hp]
      dsimp only
      rw [hok]
      dsimp only
      rw [hok', hself, hself']
      rfl
  rw [append_assoc, append_assoc, append_assoc] at hhold'
  have hground : (createAll (texts.map textAt)
      (createAll (row.map Kid.nested) (core.prepare w).2.2).world).world.document.Holds
        (F ++ ((core.prepared w).waiting w.document.fresh row' ++ join (insets.map Inset.ground))) := by
    rw [Core.waiting, append_assoc, append_assoc]
    exact hhold'
  -- the nodes are distinct since the document's are
  have hdistinct := (List.nodup_append.1 (ids_append F _ ▸ hground.nodup)).2.1
  rw [ids_append, Core.ids_waiting] at hdistinct
  have hdistinct := (List.nodup_append.1 hdistinct).1
  refine ⟨row', insets, _, hstep, hinsets, hb''.trans (hb'.trans hb), embeds.of_alike rfl halike, ?_, hstands, hground⟩
  exact ⟨rfl, ⟨htexts, hattributes, fun cell hc => (hvalues cell hc).1⟩, (List.nodup_cons.1 hdistinct).2,
    (List.nodup_cons.1 hdistinct).1, fun cell hc => (hvalues cell hc).2, hblank.cleanups, hblank.updateHooks⟩

/-- creating a component that has nothing in the document succeeds -/
theorem Stands.create {s : State} (hs : s = .unmounted ∨ s = .destroyed) {g : History} {c : Component H} {X : Forest Bare}
    (h : Stands s g c X) (w : World H) (F : Forest Bare) (hw : w.document.Holds F) : Creates g c w F := by
  induction h generalizing w F with
  | @mk g core row X props embeds own kids ih =>
    obtain ⟨hphase, hblank⟩ : (core.phase = .unmounted ∨ core.phase = .destroyed) ∧ core.Blank := by
      rcases hs with rfl | rfl
      · exact ⟨.inl own.1, own.2.1⟩
      · exact ⟨.inr own.1, own.2.1⟩
    obtain ⟨row', insets, w', hstep, hnone, hb, hembeds, hwaits, hstands, hground⟩ :=
      hblank.create hphase embeds ih [] w hw
    obtain rfl := List.map_eq_nil_iff.1 hnone
    have hstep : Component.create (.mk core [] (row.map Kid.nested)) w =
        .ok (.mk (core.prepared w) [] (row'.map Kid.nested)) w' := hstep
    rw [List.map_nil, join, List.foldr_nil, append_nil] at hground
    refine ⟨by rw [hstep]; rfl, by rw [hstep]; rfl, by rw [hstep]; rfl, by rw [hstep]; exact hb, ?_⟩
    rw [hstep]
    exact ⟨_, .mk props hembeds ⟨w.document.fresh, hwaits, rfl⟩ hstands, hground⟩

end LiveMarkup
