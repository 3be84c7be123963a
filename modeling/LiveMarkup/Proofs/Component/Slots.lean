/-
Starting a component with texts in its slots.

A component is given each slot's content once: the first placeholder of the slot takes it, and the others stay empty. What
is mounted is therefore what `Template.renderOnce` writes. Rendering fills every placeholder of a slot, so the two agree
exactly if no slot with several placeholders has a text that is not empty.

- `Component.start_texts`: what is in an empty target after a component with texts in its slots was started; `twofold` is a
  template on which it is not what is rendered.
-/
import LiveMarkup.Proofs.Component.Built
import LiveMarkup.Proofs.Template.Slots

namespace LiveMarkup

open Markup Marker Forest

variable {H : Host}

/-! ## A template with two placeholders of one slot -/

namespace Template

variable {A : Type}

/-- two elements, each with the same slot in it -/
def twofold : Template A :=
  ⟨["<a>", "</a><b>", "</b>"], [.slot "default", .slot "default"],
    [.element "a" [] [.element "mc-slot-0" [] []], .element "b" [] [.element "mc-slot-1" [] []]]⟩

theorem twofold_accepted : (twofold : Template A).Everywhere Accepted := by
  refine ⟨⟨["<a>", "</a><b>", "</b>"], [.directive (.slot none), .directive (.slot none)],
    define_eq_ok (c := ⟨["<a>", "</a><b>", "</b>"], [.slot "default", .slot "default"]⟩) rfl ?_ rfl⟩, trivial⟩
  rw [skeletonSource_congr ([.slot "", .slot ""] : List (Placeholder Unit Unit)) rfl]
  show read (skeletonSource 0 ["<a>", "</a><b>", "</b>"] _) = _
  decide +kernel

theorem twofold_markerFree : (twofold : Template A).Everywhere MarkerFree := by
  have hall : ∀ segment ∈ ["<a>", "</a><b>", "</b>"], ∀ category ∈ Category.all,
      ¬ (stem category).toList <:+: lowerChars segment.toList := by
    decide +kernel
  exact ⟨fun segment h category => hall segment h category (by cases category <;> decide), trivial⟩

theorem twofold_quiet : (twofold : Template (Action H)).Everywhere Template.Quiet := by
  refine ⟨fun run param h => ?_, trivial⟩
  cases h with
  | tail _ h => cases h with
    | tail _ h => cases h

end Template

/-! ## Texts as contents -/

def textBlocks (texts : Entries String) : Entries (Block H) := texts.map fun e => (e.1, .text (.fixed e.2))

def Options.withTexts (options : Options H) (texts : Entries String) : Options H :=
  { options with slots := textBlocks texts }

theorem get?_textBlocks (texts : Entries String) (name : String) :
    Entries.get? (textBlocks (H := H) texts) name = (texts.get? name).map fun data => .text (.fixed data) := by
  induction texts with
  | nil => rfl
  | cons e texts ih =>
    obtain ⟨n, data⟩ := e
    rw [textBlocks, List.map_cons, Entries.get?_cons, Entries.get?_cons]
    split
    · rfl
    · exact ih

theorem erase_textBlocks (texts : Entries String) (name : String) :
    Entries.erase name (textBlocks (H := H) texts) = textBlocks (texts.erase name) := by
  rw [Entries.erase, textBlocks, List.filter_map]
  rfl

/-- texts are handed out to the slot placeholders, and other texts are left over -/
theorem fillSlots_textBlocks (ps : List (Placeholder (Action H) (Template (Action H)))) (index : Nat)
    (texts : Entries String) : ∃ left, fillSlots index ps (textBlocks (H := H) texts) =
      ((handOut index ps texts).map textAt, textBlocks left) := by
  induction ps generalizing index texts with
  | nil => exact ⟨texts, rfl⟩
  | cons p ps ih =>
    cases p with
    | slot name =>
      rw [fillSlots, handOut, get?_textBlocks]
      cases texts.get? name with
      | none => exact ih (index + 1) texts
      | some data =>
        obtain ⟨left, hleft⟩ := ih (index + 1) (texts.erase name)
        refine ⟨left, ?_⟩
        dsimp only [Option.map_some]
        rw [erase_textBlocks, hleft]
        rfl
    | _ => exact ih (index + 1) texts

theorem sublist_handOut (ps : List (Placeholder (Action H) (Template (Action H)))) (texts : Entries String) :
    ((handOut 0 ps texts).map (·.1)).Sublist (indicesOf ps .slot) := by
  obtain ⟨left, hleft⟩ := fillSlots_textBlocks ps 0 texts
  have hindices := fillSlots_indices ps 0 (textBlocks texts)
  rw [hleft, List.map_map] at hindices
  exact hindices

/-- nothing happens when texts are dropped -/
theorem dropEntries_textBlocks (texts : Entries String) (w : World H) : dropEntries (textBlocks texts) w = w := by
  induction texts generalizing w with
  | nil => rfl
  | cons e texts ih => exact ih w

/-! ## What is written -/

/-- what stands in the place of a slot is the text that it was given -/
theorem toMarkup_contentAt (insets : List Inset) (i : Nat) : (contentAt insets i).toMarkup =
    (((insets.map fun a => (a.index, a.data)).lookup i).map .text).toList := by
  induction insets with
  | nil => rfl
  | cons a insets ih =>
    rw [List.map_cons, List.lookup_cons]
    by_cases h : a.index = i
    · rw [← h, contentAt_cons_self, beq_self_eq_true]
      rfl
    · rw [contentAt_cons_of_ne h, beq_false_of_ne (Ne.symm h), ih]

/-- without changes, what is shown is what there is for the first props -/
theorem Placeholder.latestPart_start (props : Props) (index : Nat) (p : Placeholder (Action H) (Template (Action H))) :
    p.latestPart (.start props) index = p.part props := by
  cases p with
  | child t bindings => exact congrArg Part.child (t.latest_start (childProps bindings props))
  | _ => rfl

/-- what a component with texts in its slots has in the document is its skeleton with each text in the place of the first
marker of its slot -/
theorem Carries.toMarkup {insets : List Inset} {props : Props} {c : Component H} {X : Forest Bare}
    (h : Carries insets (.start props) c X) (hs : c.core.template.Everywhere Template.Sound) (texts : Entries String)
    (hinsets : insets.map (fun a => (a.index, a.data)) = handOut 0 c.core.template.placeholders texts) :
    X.toMarkup = fillNodes (partsOnce props texts c.core.template.placeholders) c.core.template.skeleton := by
  cases h with
  | @mk core row slots start hprops embeds contents own kids =>
    rw [Component.core] at hs hinsets ⊢
    have hsound : core.template.Sound := hs.self
    have hkids : ∀ k ∈ row, k.ground.toMarkup = k.component.core.template.latest (core.handed (.start props) k.index) := by
      intro k hk
      obtain ⟨bindings, hi⟩ := embeds.child k hk
      exact (kids k hk).toMarkup (Template.Everywhere.child hs hi)
    have hfills : ∀ m ∈ markersOfAll core.template.skeleton, m.category.inTag = false →
        ∃ y, (core.fillsWith (contentAt insets) row).lookup m = some y ∧
          y.toMarkup = markerNodes (partsOnce props texts core.template.placeholders) m := by
      intro m hm hc
      refine own.celled.fillsWith embeds hprops hkids (fun i p hp hslot => ?_) (fun i hi => ?_) (hsound.markers ▸ hm) hc
      · rw [Placeholder.latestPart_start]
        rcases p.slot?_cases with ⟨name, rfl⟩ | hp'
        · exact absurd rfl hslot
        · exact getElem?_partsOnce hp hp'
      · obtain ⟨p, hp, hcat⟩ := mem_indicesOf.1 hi
        obtain ⟨name, rfl⟩ := Placeholder.category_eq_slot_iff.1 hcat
        rw [toMarkup_contentAt, hinsets]
        simp only [markerNodes]
        rw [getElem?_partsOnce_slot 0 hp, Nat.zero_add]
    refine (toMarkup_planted core.template.skeleton start hfills).trans (furnishNodes_eq _ fun as _ => ?_)
    refine (latestAttributes_eq (fun _ h => absurd h List.not_mem_nil) props).trans ?_
    exact fillAttributes_congr fun name _ => (bindingOf?_partsOnce props texts name).symm

/-! ## Starting -/

variable [ForeignBlocks H] {t : Template (Action H)} {options : Options H} {target : NodeId} {anchor : Option NodeId}
  {w : World H} {F : Forest Bare}

/-- a component of a sound template that has nothing in the document is created and mounted, with texts in its slots -/
theorem Core.Blank.mount {core : Core H} (hblank : core.Blank) (hphase : core.phase = .unmounted) {props : Props}
    (hprops : core.props = props) {row : List (Kid H)} (embeds : core.Embeds row)
    (kids : ∀ k ∈ row, Stands .unmounted (core.handed (.start props) k.index) k.component k.ground)
    (hs : core.template.Everywhere Template.Sound) (hq : core.template.Everywhere Template.Quiet)
    {texts : List (Nat × String)} (htexts : (texts.map (·.1)).Sublist (indicesOf core.template.placeholders .slot))
    (hb : w.backend = .faithful) (hw : w.document.Holds F) (ht : target ∈ F.ids) (ha : ∀ a ∈ anchor, a ∈ F.ids) :
    ∃ (insets : List Inset) (c : Component H) (X : Forest Bare) (u : World H), c.core.template = core.template ∧
      insets.map (fun a => (a.index, a.data)) = texts ∧ MountedAs (Carries insets (.start props)) c X F target anchor u
        ((Component.mk core (texts.map textAt) (row.map Kid.nested)).mount target anchor w) := by
  obtain ⟨row', insets, u, hcreate, hinsets, hub, hembeds, hwaits, hkids, hu⟩ := hblank.create (.inl hphase) embeds
    (g := core.handed (.start props)) (fun k hk w F hw => (kids k hk).create (.inl rfl) w F hw) texts w hw
  have hmount : (Component.mk core (texts.map textAt) (row.map Kid.nested)).mount target anchor w =
      (Component.mk (core.prepared w) (insets.map Inset.nested) (row'.map Kid.nested)).mountCreated target anchor u := by
    rw [Component.mount, Component.core, hphase]
    dsimp only
    rw [hcreate]
    rfl
  have hindices : insets.map Inset.index = texts.map (·.1) := by
    rw [← hinsets, List.map_map]
    rfl
  have hexposed : ∀ a ∈ insets, Exposes ⟨.slot, a.index⟩ core.template.skeleton := by
    intro a ha
    have hin : a.index ∈ indicesOf core.template.placeholders .slot :=
      htexts.subset (hindices ▸ List.mem_map_of_mem ha)
    refine exposes_of_clean rfl _ hs.self.clean ?_
    rw [hs.self.markers]
    exact mem_markersFor_zero.2 (mem_indicesOf.1 hin)
  have hmounts : ∀ k ∈ row', Mounts ((core.prepared w).handed (.start props) k.index) k.component k.ground := by
    intro k hk
    obtain ⟨bindings, hi⟩ := hembeds.child k hk
    exact (hkids k hk).mounts
      (Template.Everywhere.imp (fun _ h _ => Template.Sound.marked h) _ (hs.child hi) (hs.child hi)) (hq.child hi)
  have hout : ∀ a ∈ anchor, a ∉ ((core.prepared w).waiting w.document.fresh row' ++ join (insets.map Inset.ground)).ids :=
    fun a haa hin => (List.nodup_append.1 (ids_append F _ ▸ hu.nodup)).2.2 a (ha a haa) a hin rfl
  rw [hmount]
  rcases hwaits.mounts (g := .start props) hprops hembeds hs.self.marked hq.self hmounts insets
    (hindices ▸ htexts) hexposed target anchor (hub.trans hb) hu ht hout with hmounted | ⟨-, hno⟩
  · exact ⟨insets, _, _, u, rfl, hinsets, hmounted⟩
  · exact absurd (Template.Everywhere.imp (fun _ h _ => Template.Sound.findable h) _ hs hs) hno

/-- an instance is mounted wherever it is put, with texts in its slots -/
theorem Component.furnished_mount (hs : t.Everywhere Template.Sound) (hq : t.Everywhere Template.Quiet)
    (options : Options H) (texts : Entries String) (anchor : Option NodeId) (w₀ : World H) (hb : w.backend = .faithful) (hw : w.document.Holds F) (ht : target ∈ F.ids)
    (ha : ∀ a ∈ anchor, a ∈ F.ids) :
    ∃ (insets : List Inset) (c : Component H) (X : Forest Bare) (u : World H), c.core.template = t ∧
      insets.map (fun a => (a.index, a.data)) = handOut 0 t.placeholders texts ∧
      MountedAs (Carries insets (.start options.props)) c X F target anchor u
        ((furnished t (options.withTexts texts) w₀).mount target anchor w) := by
  obtain ⟨hstands, htemplate, -, -⟩ := ofTemplate_stands t options.props w₀
  obtain ⟨left, hfill⟩ := fillSlots_textBlocks t.placeholders 0 texts
  have hfurnished : furnished t (options.withTexts texts) w₀ =
      .mk { (ofTemplate t options.props w₀).1.core with slotContext := options.slotContext }
        ((handOut 0 t.placeholders texts).map textAt) (ofTemplate t options.props w₀).1.children := by
    rw [furnished, show (options.withTexts texts).slots = textBlocks texts from rfl, hfill]
    rfl
  rw [hfurnished]
  generalize (ofTemplate t options.props w₀).1 = c at hstands htemplate
  cases hstands with
  | @mk _ core row _ hprops embeds own kids =>
    obtain rfl : core.template = t := htemplate
    obtain ⟨hphase, hblank, -⟩ := own
    have hblank' : ({ core with slotContext := options.slotContext } : Core H).Blank :=
      ⟨hblank.textCells, hblank.attributeCells, hblank.cleanups, hblank.updateHooks⟩
    exact hblank'.mount hphase hprops
      ⟨embeds.indices, embeds.child⟩ kids hs hq (sublist_handOut core.template.placeholders texts) hb hw ht ha

/-- **Texts in slots.** For an accepted template without stems, whose actions leave the document alone, starting with any
texts for slots in an empty target succeeds. The target then holds what rendering writes if the text of each slot is
written once. That is what rendering writes at every placeholder iff each slot whose text is not empty has one placeholder
at most. -/
theorem Component.start_texts (ha : t.Everywhere Template.Accepted) (hf : t.Everywhere Template.MarkerFree)
    (hq : t.Everywhere Template.Quiet) (hb : w.backend = .faithful) (hw : w.document.Valid) (ho : options.Fit w target)
    (hempty : w.document.children target = []) {tag : String} (htag : w.document.tag? target = some tag)
    (hraw : isRawText tag = false) (texts : Entries String) :
    ∃ c, (Component.start t (options.withTexts texts) w).2 = .ok c ∧
      (Component.start t (options.withTexts texts) w).1.document.innerHtml target =
        t.renderOnce options.props (textMarkup texts) ∧
      ((Component.start t (options.withTexts texts) w).1.document.innerHtml target =
          t.render options.props (textMarkup texts) ↔
        ∀ name data, texts.get? name = some data → data ≠ "" → (slotNames t.placeholders).count name ≤ 1) := by
  have hs : t.Everywhere Template.Sound := ha.sound hf
  obtain ⟨hcb, F, hF, hperm⟩ := World.cleared_spec t options target hw
  have hin : ∀ id, w.document.find? id ≠ none → id ∈ F.ids := fun id hid => hperm.mem_iff.2 (hw.mem_ids_of_find? hid)
  have htarget := hin target ho.exists_target
  have hcleared : (w.cleared t options target).document = w.document := World.cleared_of_empty hempty
  obtain ⟨insets, c, X, u, hct, hinsets, hmounted⟩ := furnished_mount hs hq options texts options.anchor w (hcb.trans hb) hF htarget fun a haa => hin a (ho.anchor a haa)
  obtain ⟨M, hcarries, hhtml⟩ := hmounted.innerHtml (hct.symm ▸ hs) hF htarget (by rw [hcleared]; exact hempty)
    (by rw [hcleared]; exact htag) hraw
  obtain ⟨left, hleft⟩ := fillSlots_textBlocks t.placeholders 0 texts
  have hstart : Component.start t (options.withTexts texts) w =
      (((furnished t (options.withTexts texts) w).mount target options.anchor (w.cleared t options target)).world,
        .ok ((furnished t (options.withTexts texts) w).mount target options.anchor (w.cleared t options target)).self) := by
    rw [start_eq (show (options.withTexts texts).target = some target from ho.mounted),
      show (options.withTexts texts).slots = textBlocks texts from rfl, hleft, dropEntries_textBlocks]
    rw [show ((furnished t (options.withTexts texts) w).mount target (options.withTexts texts).anchor
      (w.cleared t (options.withTexts texts) target)).result = .ok () from hmounted.ok]
    rfl
  have hself := hmounted.template.trans hct
  have hwritten : (Component.start t (options.withTexts texts) w).1.document.innerHtml target =
      t.renderOnce options.props (textMarkup texts) := by
    rw [hstart, hhtml, hcarries.toMarkup (hself.symm ▸ hs) texts (by rw [hself]; exact hinsets), hself,
      Template.renderOnce_eq_print (Template.Everywhere.imp (fun _ h _ => Template.Sound.wellFormed h) t hs hs)]
  refine ⟨_, by rw [hstart], hwritten, ?_⟩
  rw [hwritten, Template.renderOnce_eq_render_iff hs.self]
  constructor
  · intro h name data hget hne
    exact h name (escape .content data) (by rw [textMarkup, hget]; rfl) fun e =>
      hne (escape_eq_empty_iff.1 (String.toList_eq_nil_iff.2 e))
  · intro h name markup hmarkup hne
    obtain ⟨data, hget, rfl⟩ := Option.map_eq_some_iff.1 hmarkup
    exact h name data hget fun e => hne (by rw [e]; rfl)

/-- both placeholders are of the same slot: what is mounted has the text once, and what is rendered twice -/
theorem Component.start_texts_twofold : ∃ c,
    (Component.start Template.twofold ((Options.inBody ∅).withTexts [("default", "<")]) World.blank).2 = .ok c ∧
      (Component.start Template.twofold ((Options.inBody ∅).withTexts [("default", "<")])
        World.blank).1.document.innerHtml 0 = "<a>&lt;</a><b></b>" ∧
      (Template.twofold : Template (Action Script.host)).render ∅ (textMarkup [("default", "<")]) =
        "<a>&lt;</a><b>&lt;</b>" := by
  obtain ⟨c, hok, h, -⟩ := start_texts Template.twofold_accepted Template.twofold_markerFree Template.twofold_quiet rfl
    World.blank_valid (Options.inBody_fit ∅) rfl rfl rfl [("default", "<")]
  exact ⟨c, hok, h.trans (by decide +kernel), by decide +kernel⟩

end LiveMarkup
