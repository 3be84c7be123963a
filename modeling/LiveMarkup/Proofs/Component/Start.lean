/-
Starting a component in a document.

The template is instantiated and mounted in one go. Whether that succeeds is said of the template by `Template.Findable`,
and what it comes to by `Template.render`.

- `start_innerHtml`: for templates without stems, what is in an empty target is what rendering writes;
- `start_ok`: it succeeds if all markers are found at every depth, and only if those of the template are, and of all
  templates embedded in it whose markers have no marker around them.
-/
import LiveMarkup.Script.Stage
import LiveMarkup.Proofs.Component.Mount

namespace LiveMarkup

open Markup Marker Forest

variable {H : Host}

/-! ## Where a component is started -/

/-- an existing target, an anchor that exists if there is one, and no slot contents -/
structure Options.Fit (options : Options H) (w : World H) (target : NodeId) : Prop where
  mounted : options.target = some target
  exists_target : w.document.find? target ≠ none
  anchor : ∀ a ∈ options.anchor, w.document.find? a ≠ none
  slots : options.slots = []

theorem Template.framed_quiet : (Template.framed : Template (Action H)).Everywhere Template.Quiet := by
  refine ⟨fun run param h => ?_, ⟨fun run param h => ?_, trivial⟩, trivial⟩
  · cases h with
    | tail _ h => cases h
  · cases h with
    | tail _ h => cases h with
      | tail _ h => cases h

theorem Template.stacked_quiet : (Template.stacked : Template (Action H)).Everywhere Template.Quiet := by
  refine ⟨fun run param h => ?_, ⟨fun run param h => ?_, trivial⟩, trivial⟩
  · cases h with
    | tail _ h => cases h with
      | tail _ h => cases h
  · cases h with
    | tail _ h => cases h with
      | tail _ h => cases h

theorem Template.commentedOut_quiet : (Template.commentedOut : Template (Action H)).Everywhere Template.Quiet := by
  refine ⟨fun run param h => ?_, trivial⟩
  cases h with
  | tail _ h => cases h

/-- a document with nothing but an empty body -/
def World.blank : World Script.host := (Script.Stage.initial [] true).world

theorem World.blank_valid : World.blank.document.Valid := by
  have hnil : (∅ : Document (Listener Script.Reaction)).Holds nil :=
    ⟨Same.refl _, List.nodup_nil, fun _ h => absurd h List.not_mem_nil⟩
  exact hnil.add (.element "body" [])

def Options.inBody (props : Props) : Options Script.host := { Options.default with props, target := some 0 }

theorem Options.inBody_fit (props : Props) : (inBody props).Fit World.blank 0 :=
  ⟨rfl, Option.some_ne_none _, fun _ h => absurd h (Option.not_mem_none _), rfl⟩

/-! ## Before mounting -/

/-- a template's instance before it is mounted -/
def Component.fresh (t : Template (Action H)) (options : Options H) (w : World H) : Component H :=
  .mk { (Component.ofTemplate t options.props w).1.core with slotContext := options.slotContext } []
    (Component.ofTemplate t options.props w).1.children

/-- an instance with the contents of its slots -/
def Component.furnished (t : Template (Action H)) (options : Options H) (w : World H) : Component H :=
  .mk { (Component.ofTemplate t options.props w).1.core with slotContext := options.slotContext }
    (fillSlots 0 t.placeholders options.slots).1 (Component.ofTemplate t options.props w).1.children

theorem Component.furnished_of_empty {t : Template (Action H)} {options : Options H} (hs : options.slots = [])
    (w : World H) : furnished t options w = fresh t options w := by
  rw [furnished, hs, fillSlots_nil]
  rfl

/-- the world before an instance is mounted in this target -/
def World.cleared (w : World H) (t : Template (Action H)) (options : Options H) (target : NodeId) : World H :=
  if options.hydrate then
    (serverRendered t options.props (Component.ofTemplate t options.props w).2 target options.anchor).foldl
      (fun w id => w.edit (·.detach id)) (Component.ofTemplate t options.props w).2
  else (Component.ofTemplate t options.props w).2

section

variable {t : Template (Action H)} {options : Options H} {target : NodeId} {w : World H} {F : Forest Bare}

/-- nodes that are taken out first are still there -/
theorem World.cleared_spec (t : Template (Action H)) (options : Options H) (target : NodeId) (hw : w.document.Holds F) :
    (w.cleared t options target).backend = w.backend ∧
      ∃ F', (w.cleared t options target).document.Holds F' ∧ F'.ids.Perm F.ids := by
  have halike := (ofTemplate_stands t options.props w).2.2.2
  have hw' : (Component.ofTemplate t options.props w).2.document.Holds F := halike.document ▸ hw
  rw [World.cleared]
  split
  · rw [← halike.backend]
    generalize serverRendered t options.props _ target options.anchor = ids
    generalize (Component.ofTemplate t options.props w).2 = w1 at hw'
    clear hw
    induction ids generalizing w1 F with
    | nil => exact ⟨rfl, F, hw', .refl _⟩
    | cons id ids ih =>
      obtain ⟨G, hG, hperm⟩ := hw'.detach_ids id
      obtain ⟨hb, F', hF', hperm'⟩ := ih (w1.edit (·.detach id)) hG
      exact ⟨hb, F', hF', hperm'.trans hperm⟩
  · exact ⟨halike.backend, F, hw', .refl _⟩

/-- there is nothing to take out of an empty target -/
theorem serverRendered_of_empty (he : w.document.children target = []) (anchor : Option NodeId) :
    serverRendered t options.props w target anchor = [] := by
  cases anchor with
  | none => exact he
  | some a =>
    unfold serverRendered
    dsimp only
    rw [he]
    rfl

theorem World.cleared_of_empty (he : w.document.children target = []) :
    (w.cleared t options target).document = w.document := by
  have halike := (ofTemplate_stands t options.props w).2.2.2
  have he' : (Component.ofTemplate t options.props w).2.document.children target = [] := halike.document ▸ he
  rw [World.cleared, serverRendered_of_empty he', List.foldl_nil, ite_self, halike.document]

/-- what was mounted in an empty target is all that is written there -/
theorem MountedAs.innerHtml {P : Component H → Forest Bare → Prop} {c : Component H} {X : Forest Bare}
    {anchor : Option NodeId} {u : World H} {o : Outcome H (Component H)} (h : MountedAs P c X F target anchor u o)
    (hs : c.core.template.Everywhere Template.Sound) (hF : w.document.Holds F) (hin : target ∈ F.ids)
    (hempty : w.document.children target = []) {tag : String} (htag : w.document.tag? target = some tag)
    (hraw : isRawText tag = false) :
    ∃ M, P o.self M ∧ o.world.document.innerHtml target = print M.toMarkup := by
  obtain ⟨M, G, hM, -, hstands⟩ := h.stands
  refine ⟨M, hstands hs, ?_⟩
  -- the target is still there, and was empty
  obtain ⟨m, hm, rfl⟩ := List.mem_map.1 hin
  obtain ⟨ms, hsub⟩ := exists_subtree hm
  have hchildren := hF.children hsub
  rw [hempty] at hchildren
  have hnil : ms = nil := by
    cases ms with
    | nil => rfl
    | cons a cs rest => cases hchildren
  rw [hnil] at hsub
  have hafter := subtree_graft_of_pick (Document.count_of_subtree hF hsub)
    (g := Forest.insertBefore (isAnchor anchor) M) hsub (Document.isNode_iff.2 rfl)
  have hafter' : (m, M) ∈
      (F.graft (Document.isNode m.id) (Forest.insertBefore (isAnchor anchor) M) ++ G).subtrees := by
    rw [subtrees_append]
    exact List.mem_append_left _ hafter
  have htag' : o.world.document.tag? m.id = some tag := (hM.tag? hafter').trans ((hF.tag? hsub).symm.trans htag)
  rw [Document.innerHtml, htag', ← toMarkup_bare]
  refine (congrArg (fun f : Forest Bare => printAll (some tag) f.toMarkup) (hM.childForest hafter')).trans ?_
  exact printAll_parent (show (some tag).any isRawText = false from hraw) _

variable [ForeignBlocks H]

theorem Component.start_eq (ht : options.target = some target) : Component.start t options w =
    match ((furnished t options w).mount target options.anchor (w.cleared t options target)).result with
    | .ok _ => (dropEntries (fillSlots 0 t.placeholders options.slots).2
          ((furnished t options w).mount target options.anchor (w.cleared t options target)).world,
        .ok ((furnished t options w).mount target options.anchor (w.cleared t options target)).self)
    | .error fault => (dropEntries (fillSlots 0 t.placeholders options.slots).2
          (((furnished t options w).mount target options.anchor (w.cleared t options target)).self.drop
            ((furnished t options w).mount target options.anchor (w.cleared t options target)).world),
        .error fault) := by
  rw [Component.start, ht]
  rfl

/-! ## Starting -/

/-- starting a component comes down to mounting its instance -/
theorem Component.start_cases (hm : t.Everywhere Template.Marked) (hq : t.Everywhere Template.Quiet)
    (hb : w.backend = .faithful) (hw : w.document.Valid) (ho : options.Fit w target) :
    (∃ c X F, (Component.start t options w).2 = .ok c ∧ (w.cleared t options target).document.Holds F ∧ target ∈ F.ids ∧
        Mounted (.start options.props) (fresh t options w) X F target options.anchor (w.cleared t options target)
          (.ok c (Component.start t options w).1)) ∨
      (∃ fault, (Component.start t options w).2 = .error fault) ∧ ¬ t.Everywhere Template.Findable := by
  obtain ⟨hstands, htemplate, -, -⟩ := ofTemplate_stands t options.props w
  have hfresh : Stands .unmounted (.start options.props) (fresh t options w) nil := hstands.withContext options.slotContext
  have hfreshTemplate : (fresh t options w).core.template = t := htemplate
  obtain ⟨hcb, F, hF, hperm⟩ := World.cleared_spec t options target hw
  have hin : ∀ id, w.document.find? id ≠ none → id ∈ F.ids := fun id hid => hperm.mem_iff.2 (hw.mem_ids_of_find? hid)
  have htarget := hin target ho.exists_target
  rw [start_eq ho.mounted, furnished_of_empty ho.slots, ho.slots, fillSlots_nil]
  rcases hfresh.mount State.noConfusion (by rw [hfreshTemplate]; exact hm) (by rw [hfreshTemplate]; exact hq)
    (hcb.trans hb) (by rw [append_nil]; exact hF) htarget (fun a ha => hin a (ho.anchor a ha)) with ⟨X, hmounted⟩ | ⟨⟨fault, herr⟩, hno⟩
  · rw [hmounted.ok]
    exact .inl ⟨_, X, F, rfl, hF, htarget, rfl, hmounted.template, hmounted.props, hmounted.backend, hmounted.found,
      hmounted.stands⟩
  · rw [herr]
    exact .inr ⟨⟨fault, rfl⟩, hfreshTemplate ▸ hno⟩

/-- **What is mounted is what is rendered.** For an accepted template without stems, whose actions leave the document
alone, starting in an empty target succeeds, and the target then holds what rendering writes. -/
theorem Component.start_innerHtml (ha : t.Everywhere Template.Accepted) (hf : t.Everywhere Template.MarkerFree)
    (hq : t.Everywhere Template.Quiet) (hb : w.backend = .faithful) (hw : w.document.Valid) (ho : options.Fit w target)
    (hempty : w.document.children target = []) {tag : String} (htag : w.document.tag? target = some tag)
    (hraw : isRawText tag = false) : ∃ c, (Component.start t options w).2 = .ok c ∧
      (Component.start t options w).1.document.innerHtml target = t.render options.props SlotMarkup.none := by
  have hs : t.Everywhere Template.Sound := ha.sound hf
  have hm : t.Everywhere Template.Marked := Template.Everywhere.imp (fun _ h _ => h.marked) t ha ha
  have hfindable : t.Everywhere Template.Findable := Template.Everywhere.imp (fun _ h _ => h.findable) t hs hs
  rcases start_cases hm hq hb hw ho with ⟨c, X, F, hok, hF, hin, hmounted⟩ | ⟨-, hno⟩
  · refine ⟨c, hok, ?_⟩
    obtain ⟨-, htemplate, hprops, -⟩ := ofTemplate_stands t options.props w
    have hct : c.core.template = t := hmounted.template.trans htemplate
    have hcp : c.props = options.props := hmounted.props.trans hprops
    have hcleared : (w.cleared t options target).document = w.document := World.cleared_of_empty hempty
    obtain ⟨M, hstands, hhtml⟩ := hmounted.innerHtml
      (by rw [show (fresh t options w).core.template = t from htemplate]; exact hs) hF hin (by rw [hcleared]; exact hempty)
      (by rw [hcleared]; exact htag) hraw
    have hshows := Stands.toMarkup_start (c := c) hstands (hct.symm ▸ hs)
    refine hhtml.trans ?_
    rw [hshows, hct, hcp, Template.render_eq_print t (Template.Everywhere.imp (fun _ h _ => h.wellFormed) t hs hs)]
  · exact absurd hfindable hno

theorem Component.start_innerHtml_framed : ∃ c,
    (Component.start Template.framed (.inBody (Props.ofList [("name", .str "a \"b\" <c>")])) World.blank).2 = .ok c ∧
      (Component.start Template.framed (.inBody (Props.ofList [("name", .str "a \"b\" <c>")]))
        World.blank).1.document.innerHtml 0 =
        "<div><p title=\"a &quot;b&quot; &lt;c&gt;\">a \"b\" &lt;c&gt;</p></div>" := by
  obtain ⟨c, hok, h⟩ := start_innerHtml Template.framed_accepted Template.framed_markerFree Template.framed_quiet rfl
    World.blank_valid (Options.inBody_fit (Props.ofList [("name", .str "a \"b\" <c>")])) rfl rfl rfl
  exact ⟨c, hok, h.trans (by decide +kernel)⟩

/-- **When mounting succeeds.** For an accepted template whose actions leave the document alone: starting succeeds if all
markers are found, at every depth, and only if those of all templates are that are exposed; so exactly if all markers are
found, where each child's marker is exposed. -/
theorem Component.start_ok (ha : t.Everywhere Template.Accepted) (hq : t.Everywhere Template.Quiet)
    (hb : w.backend = .faithful) (hw : w.document.Valid) (ho : options.Fit w target) :
    (t.Everywhere Template.Findable → ∃ c, (Component.start t options w).2 = .ok c) ∧
      ((∃ c, (Component.start t options w).2 = .ok c) → ∀ u, t.Exposed u → u.Findable) ∧
      (t.Everywhere Template.Open → ((∃ c, (Component.start t options w).2 = .ok c) ↔ t.Everywhere Template.Findable)) := by
  have hm : t.Everywhere Template.Marked := Template.Everywhere.imp (fun _ h _ => h.marked) t ha ha
  have hif : t.Everywhere Template.Findable → ∃ c, (Component.start t options w).2 = .ok c := by
    intro hf
    rcases start_cases hm hq hb hw ho with ⟨c, X, F, hok, -⟩ | ⟨-, hno⟩
    · exact ⟨c, hok⟩
    · exact absurd hf hno
  have honly : (∃ c, (Component.start t options w).2 = .ok c) → ∀ u, t.Exposed u → u.Findable := by
    rintro ⟨c, hok⟩ u hu
    rcases start_cases hm hq hb hw ho with ⟨c, X, F, -, -, -, hmounted⟩ | ⟨⟨fault, herr⟩, -⟩
    · refine hmounted.found u ?_
      rw [show (fresh t options w).core.template = t from (ofTemplate_stands t options.props w).2.1]
      exact hu
    · rw [herr] at hok
      cases hok
  exact ⟨hif, honly, fun hopen => ⟨fun h => Template.Everywhere.of_exposed t hopen (honly h), hif⟩⟩

/-- a definition that is accepted and cannot be mounted -/
theorem Component.start_ok_commentedOut :
    ¬ ∃ c, (Component.start Template.commentedOut (.inBody ∅) World.blank).2 = .ok c := fun h =>
  Template.commentedOut_not_findable ((start_ok Template.commentedOut_accepted Template.commentedOut_quiet rfl
    World.blank_valid (Options.inBody_fit ∅)).2.1 h _ (.self _))

end

end LiveMarkup
