/-
Binding a component's own placeholders.

After the texts come the changes of attributes: attribute cells, then listeners, then actions. Each of the three goes
through its placeholders in order and has the same two outcomes, so they are put together in `Waits.bind_spec`: every
search comes to something and the fragment is rewritten, or one comes to nothing and the call fails.
-/
import LiveMarkup.Proofs.Component.Change

namespace LiveMarkup

open Markup Marker Forest

variable {H : Host}

/-! ## Changes, one after another -/

/-- where a component's own placeholders are bound: the skeleton, its texts, the fragment, and what else there is -/
structure Site where
  data : String → String
  nodes : List Markup.Node
  start : NodeId
  texts : List TextCell
  fragment : Bare
  others : Forest Bare
  sound : TextCells nodes start texts

namespace Site

/-- the texts in the place of their markers -/
def fills (s : Site) : List (Marker × Forest Bare) := s.texts.map (TextCell.fill s.data)

def skeleton (s : Site) : Forest Bare := (planted s.nodes s.start).fillBy s.fills

/-- the changes in `done` have been made, and nothing else -/
def Reached (s : Site) (done : List Change) (w : World H) : Prop :=
  w.backend = .faithful ∧ ∃ α, w.document.Holds
    (tree s.fragment (((planted s.nodes s.start).attrs α).fillBy s.fills) ++ s.others) ∧
      Rewritten s.nodes s.start s.fills done α

variable {s : Site} {done : List Change}

/-- one change: its marker is not found, or the changes are one more -/
theorem Reached.step {w : World H} (h : s.Reached done w) {c : Change} (hcs : Changes s.nodes (done ++ [c])) :
    ((∃ fault, w.marker s.fragment.id c.marker = .error fault) ∧ ¬ Found s.skeleton done c.marker) ∨
      ∃ n ∈ (planted s.nodes s.start).labels, w.marker s.fragment.id c.marker = .ok n.id ∧
        Found s.skeleton done c.marker ∧
        (Change.Tidy done → c.marker.name ∈ Entries.names n.kind.attributes) ∧
        ∀ w' : World H, w'.backend = w.backend →
          (∀ F, (w.document.updateAttributes n.id c.apply).Holds F → w'.document.Holds F) →
            s.Reached (done ++ [c]) w' := by
  obtain ⟨hb, α, hw, hr⟩ := h
  rcases change_step s.sound hcs hb hw hr with ⟨herr, hno⟩ | ⟨n, hn, hm, hf, ht, hw', hr'⟩
  · exact .inl ⟨herr, hno⟩
  · exact .inr ⟨n, hn, hm, hf, ht, fun w' hb' hd => ⟨hb'.trans hb, _, hd _ hw', hr'⟩⟩

/-- a cell with the element that carries its marker -/
structure Binds (s : Site) (tidy : Prop) (cell cell' : AttributeCell) : Prop where
  index : cell'.index = cell.index
  prop : cell'.prop = cell.prop
  name : cell'.name = cell.name
  value : cell'.value = cell.value
  element : ∃ n ∈ (planted s.nodes s.start).labels, cell'.element = some n.id ∧
    (tidy → Marker.name ⟨.attribute, cell.index⟩ ∈ Entries.names n.kind.attributes)

theorem bindAttributes_spec (cells : List AttributeCell) (done : List Change)
    (hcs : Changes s.nodes (done ++ cells.map Change.bind)) (w : World H) (h : s.Reached done w) :
    ((bindAttributes s.fragment.id cells w).result = .ok () ∧ AllFound s.skeleton done (cells.map Change.bind) ∧
        s.Reached (done ++ cells.map Change.bind) (bindAttributes s.fragment.id cells w).world ∧
        List.Forall₂ (s.Binds (Change.Tidy (done ++ cells.map Change.bind))) cells
          (bindAttributes s.fragment.id cells w).self) ∨
      (∃ fault, (bindAttributes s.fragment.id cells w).result = .error fault) ∧
        ¬ AllFound s.skeleton done (cells.map Change.bind) := by
  induction cells generalizing done w with
  | nil =>
    rw [List.map_nil, List.append_nil]
    exact .inl ⟨rfl, trivial, h, .nil⟩
  | cons cell cells ih =>
    rw [List.map_cons, List.append_cons] at hcs
    rw [bindAttributes, List.map_cons, List.append_cons]
    rcases h.step hcs.left with ⟨⟨fault, hm⟩, hno⟩ | ⟨n, hn, hm, hf, ht, hnext⟩
    · rw [show w.marker s.fragment.id ⟨.attribute, cell.index⟩ = .error fault from hm]
      exact .inr ⟨⟨_, rfl⟩, fun h => hno h.1⟩
    · rw [show w.marker s.fragment.id ⟨.attribute, cell.index⟩ = .ok n.id from hm]
      have hstep : s.Reached (done ++ [Change.bind cell])
          (w.renameAttribute n.id (Marker.name ⟨.attribute, cell.index⟩) cell.name cell.value) := by
        refine hnext _ rfl fun F hF => ?_
        rw [World.renameAttribute, h.1]
        exact hF
      rcases ih _ hcs _ hstep with ⟨hok, hfound, hreach, hcells⟩ | ⟨herr, hno⟩
      · refine .inl ⟨hok, ⟨hf, hfound⟩, hreach, .cons ⟨rfl, rfl, rfl, rfl, n, hn, rfl, fun htidy => ?_⟩ hcells⟩
        refine ht fun c hc => htidy c ?_
        rw [List.append_assoc]
        exact List.mem_append_left _ hc
      · exact .inr ⟨herr, fun h => hno h.2⟩

section

variable {T : Type}

theorem attachListeners_spec (channel : Nat) (ps : List (Placeholder (Action H) T)) (index : Nat) (done : List Change)
    (hcs : Changes s.nodes (done ++ Change.drops .event index ps)) (w : World H) (h : s.Reached done w) :
    ((attachListeners s.fragment.id channel index ps w).result = .ok () ∧
        AllFound s.skeleton done (Change.drops .event index ps) ∧
        s.Reached (done ++ Change.drops .event index ps) (attachListeners s.fragment.id channel index ps w).world ∧
        ∀ cleanup ∈ (attachListeners s.fragment.id channel index ps w).self, cleanup.Quiet) ∨
      (∃ fault, (attachListeners s.fragment.id channel index ps w).result = .error fault) ∧
        ¬ AllFound s.skeleton done (Change.drops .event index ps) := by
  induction ps generalizing index done w with
  | nil =>
    refine .inl ⟨rfl, trivial, ?_, fun _ h => absurd h List.not_mem_nil⟩
    rw [show Change.drops .event index ([] : List (Placeholder (Action H) T)) = [] from rfl, List.append_nil]
    exact h
  | cons p ps ih =>
    by_cases hp : p.category = .event
    · rw [Change.drops_cons_of_eq hp, List.append_cons] at hcs
      rw [Change.drops_cons_of_eq hp, List.append_cons]
      cases p with
      | event event topic =>
        rw [attachListeners]
        dsimp only
        rcases h.step hcs.left with ⟨⟨fault, hm⟩, hno⟩ | ⟨n, hn, hm, hf, -, hnext⟩
        · rw [show w.marker s.fragment.id ⟨.event, index⟩ = .error fault from hm]
          exact .inr ⟨⟨_, rfl⟩, fun h => hno h.1⟩
        · rw [show w.marker s.fragment.id ⟨.event, index⟩ = .ok n.id from hm]
          have hstep : s.Reached (done ++ [Change.drop ⟨.event, index⟩])
              ((w.edit (·.removeAttribute n.id (Marker.name ⟨.event, index⟩))).listen n.id event
                (.channel channel topic)).1 := hnext _ rfl fun F hF => hF.listen _ _ _
          rcases ih _ _ hcs _ hstep with ⟨hok, hfound, hreach, hquiet⟩ | ⟨herr, hno⟩
          · refine .inl ⟨hok, ⟨hf, hfound⟩, hreach, ?_⟩
            exact List.forall_mem_cons.2 ⟨trivial, hquiet⟩
          · exact .inr ⟨herr, fun h => hno h.2⟩
      | _ => cases hp
    · have hskip : attachListeners s.fragment.id channel index (p :: ps) w =
          attachListeners s.fragment.id channel (index + 1) ps w := by
        cases p with
        | event => exact absurd rfl hp
        | _ => rfl
      rw [Change.drops_cons_of_ne hp] at hcs
      rw [Change.drops_cons_of_ne hp, hskip]
      exact ih _ _ hcs _ h

theorem runActions_spec (props : Props) (ps : List (Placeholder (Action H) T))
    (hquiet : ∀ run param, .action run param ∈ ps → Action.Quiet run) (index : Nat) (done : List Change)
    (hcs : Changes s.nodes (done ++ Change.drops .action index ps)) (w : World H) (h : s.Reached done w) :
    ((runActions s.fragment.id props index ps w).result = .ok () ∧
        AllFound s.skeleton done (Change.drops .action index ps) ∧
        s.Reached (done ++ Change.drops .action index ps) (runActions s.fragment.id props index ps w).world ∧
        (∀ cleanup ∈ (runActions s.fragment.id props index ps w).self.1, cleanup.Quiet) ∧
        ∀ hook ∈ (runActions s.fragment.id props index ps w).self.2, hook.Quiet) ∨
      (∃ fault, (runActions s.fragment.id props index ps w).result = .error fault) ∧
        ¬ AllFound s.skeleton done (Change.drops .action index ps) := by
  induction ps generalizing index done w with
  | nil =>
    refine .inl ⟨rfl, trivial, ?_, fun _ h => absurd h List.not_mem_nil, fun _ h => absurd h List.not_mem_nil⟩
    rw [show Change.drops .action index ([] : List (Placeholder (Action H) T)) = [] from rfl, List.append_nil]
    exact h
  | cons p ps ih =>
    have hrest : ∀ run param, .action run param ∈ ps → Action.Quiet run :=
      fun run param hin => hquiet run param (List.mem_cons_of_mem _ hin)
    by_cases hp : p.category = .action
    · rw [Change.drops_cons_of_eq hp, List.append_cons] at hcs
      rw [Change.drops_cons_of_eq hp, List.append_cons]
      cases p with
      | action run param =>
        rw [runActions]
        dsimp only
        rcases h.step hcs.left with ⟨⟨fault, hm⟩, hno⟩ | ⟨n, hn, hm, hf, -, hnext⟩
        · rw [show w.marker s.fragment.id ⟨.action, index⟩ = .error fault from hm]
          exact .inr ⟨⟨_, rfl⟩, fun h => hno h.1⟩
        · rw [show w.marker s.fragment.id ⟨.action, index⟩ = .ok n.id from hm]
          obtain ⟨halike, hhandle⟩ := hquiet run param List.mem_cons_self n.id (param.bind props.get?)
            (w.edit (·.removeAttribute n.id (Marker.name ⟨.action, index⟩)))
          have hstep : s.Reached (done ++ [Change.drop ⟨.action, index⟩])
              (run n.id (param.bind props.get?)
                (w.edit (·.removeAttribute n.id (Marker.name ⟨.action, index⟩)))).1 := by
            refine hnext _ halike.backend fun F hF => ?_
            rw [halike.document]
            exact hF
          rcases ih hrest _ _ hcs _ hstep with ⟨hok, hfound, hreach, hclean, hhooks⟩ | ⟨herr, hno⟩
          · refine .inl ⟨hok, ⟨hf, hfound⟩, hreach, fun cleanup hin => ?_, fun hook hin => ?_⟩
            · rcases List.mem_append.1 hin with hin | hin
              · rw [Option.mem_toList] at hin
                obtain ⟨f, hf, rfl⟩ := Option.map_eq_some_iff.1 hin
                exact hhandle.destroy f hf
              · exact hclean cleanup hin
            · rcases List.mem_append.1 hin with hin | hin
              · rw [Option.mem_toList] at hin
                obtain ⟨f, hf, rfl⟩ := Option.map_eq_some_iff.1 hin
                exact hhandle.update f hf
              · exact hhooks hook hin
          · exact .inr ⟨herr, fun h => hno h.2⟩
      | _ => cases hp
    · have hskip : runActions s.fragment.id props index (p :: ps) w =
          runActions s.fragment.id props (index + 1) ps w := by
        cases p with
        | action => exact absurd rfl hp
        | _ => rfl
      rw [Change.drops_cons_of_ne hp] at hcs
      rw [Change.drops_cons_of_ne hp, hskip]
      exact ih hrest _ _ hcs _ h

end

end Site

/-! ## All of them -/

namespace Core

variable {c : Core H} {fragment : NodeId} {row : List (Kid H)}

/-- the changes that binding a component makes, in order -/
def changes (c : Core H) : List Change :=
  c.attributeCells.map Change.bind ++
    (Change.drops .event 0 c.template.placeholders ++ Change.drops .action 0 c.template.placeholders)

theorem drops_eq {A T : Type} (category : Category) (ps : List (Placeholder A T)) :
    Change.drops category 0 ps = (indicesOf ps category).map fun i => Change.drop ⟨category, i⟩ := by
  rw [Change.drops, indicesOf, List.map_map]
  rfl

theorem markers_changes (c : Core H) : c.changes.map (·.marker) =
    (c.attributeCells.map (·.index)).map (Marker.mk .attribute) ++
      ((indicesOf c.template.placeholders .event).map (Marker.mk .event) ++
        (indicesOf c.template.placeholders .action).map (Marker.mk .action)) := by
  rw [changes, drops_eq, drops_eq]
  simp only [List.map_append, List.map_map]
  rfl

theorem Celled.mem_changes (h : c.Celled) {m : Marker} : m ∈ c.changes.map (·.marker) ↔
    m ∈ markersFor 0 c.template.placeholders ∧ m.category.inTag = true := by
  have hindices : ∀ category, m ∈ (indicesOf c.template.placeholders category).map (Marker.mk category) ↔
      m ∈ markersFor 0 c.template.placeholders ∧ m.category = category := by
    intro category
    rw [List.mem_map, mem_markersFor_zero]
    constructor
    · rintro ⟨i, hi, rfl⟩
      obtain ⟨p, hp, hc⟩ := mem_indicesOf.1 hi
      exact ⟨⟨p, hp, hc⟩, rfl⟩
    · rintro ⟨⟨p, hp, hc⟩, rfl⟩
      exact ⟨m.index, mem_indicesOf.2 ⟨p, hp, hc⟩, rfl⟩
  have hcells : m ∈ (c.attributeCells.map (·.index)).map (Marker.mk .attribute) ↔
      m ∈ markersFor 0 c.template.placeholders ∧ m.category = .attribute := by
    rw [← hindices .attribute, List.mem_map, List.mem_map]
    refine exists_congr fun i => and_congr_left fun _ => ?_
    rw [List.mem_map, mem_indicesOf]
    constructor
    · rintro ⟨cell, hc, rfl⟩
      exact ⟨_, h.attribute hc, rfl⟩
    · rintro ⟨p, hp, hc⟩
      cases p with
      | «attribute» prop name =>
        obtain ⟨cell, hc, hi, -⟩ := h.exists_attribute hp
        exact ⟨cell, hc, hi⟩
      | _ => cases hc
  rw [markers_changes, List.mem_append, List.mem_append, hcells, hindices, hindices, ← and_or_left, ← and_or_left]
  refine and_congr_right fun _ => ?_
  cases m.category <;> simp [Category.inTag]

theorem Celled.changes (h : c.Celled) (hm : c.template.Marked) : Changes c.template.skeleton c.changes := by
  refine ⟨fun d hd => ?_, fun d hd => ?_, ?_⟩
  · rcases List.mem_append.1 hd with hd | hd
    · obtain ⟨cell, -, rfl⟩ := List.mem_map.1 hd
      exact Change.lawful_bind cell
    · rcases List.mem_append.1 hd with hd | hd
      · exact Change.lawful_drops rfl _ _ d hd
      · exact Change.lawful_drops rfl _ _ d hd
  · exact hm _ (h.mem_changes.1 (List.mem_map_of_mem hd)).1
  · rw [markers_changes]
    refine List.nodup_append.2 ⟨nodup_map_mk h.nodup_attributes, List.nodup_append.2
      ⟨nodup_map_mk (nodup_indicesOf _ _), nodup_map_mk (nodup_indicesOf _ _), ?_⟩, ?_⟩
    · intro a ha b hb e
      obtain ⟨i, -, rfl⟩ := List.mem_map.1 ha
      obtain ⟨j, -, rfl⟩ := List.mem_map.1 hb
      cases e
    · intro a ha b hb e
      obtain ⟨i, -, rfl⟩ := List.mem_map.1 ha
      rcases List.mem_append.1 hb with hb | hb
      · obtain ⟨j, -, rfl⟩ := List.mem_map.1 hb
        cases e
      · obtain ⟨j, -, rfl⟩ := List.mem_map.1 hb
        cases e

theorem Waits.textCells (h : c.Waits fragment row) (hm : c.template.Marked) :
    TextCells c.template.skeleton (fragment + 1) c.textCells := by
  refine ⟨fun cell hc => hm _ (mem_markersFor_zero.2 ⟨_, h.celled.text hc, rfl⟩), h.celled.nodup_texts, ?_⟩
  intro cell hc hin
  refine (List.nodup_append.1 h.distinct).2.2 _ hin cell.node (List.mem_append_left _ ?_) rfl
  exact List.mem_map_of_mem hc

def site (c : Core H) (fragment : NodeId) (others : Forest Bare)
    (sound : TextCells c.template.skeleton (fragment + 1) c.textCells) : Site :=
  ⟨c.props.text, c.template.skeleton, fragment + 1, c.textCells, fragmentNode fragment, others, sound⟩

def skeletonWithTexts (c : Core H) (start : NodeId) : Forest Bare :=
  (planted c.template.skeleton start).fillBy (c.textCells.map (TextCell.fill c.props.text))

/-- everything that the component binds itself is found -/
def Located (c : Core H) (start : NodeId) : Prop :=
  TextsFound c.props.text c.template.skeleton start [] c.textCells ∧
    AllFound (c.skeletonWithTexts start) [] c.changes

structure IsBound (c c' : Core H) (start : NodeId) : Prop where
  rest : ∃ cells cleanups hooks,
    c' = { c with attributeCells := cells, cleanups := cleanups, updateHooks := hooks }
  cells : List.Forall₂ (fun cell cell' : AttributeCell => cell'.index = cell.index ∧ cell'.prop = cell.prop ∧
    cell'.name = cell.name ∧ cell'.value = cell.value ∧
    ∃ n ∈ (planted c.template.skeleton start).labels, cell'.element = some n.id ∧
      (Change.Tidy c.changes → Marker.name ⟨.attribute, cell.index⟩ ∈ Entries.names n.kind.attributes))
    c.attributeCells c'.attributeCells
  cleanups : ∀ cleanup ∈ c'.cleanups, cleanup.Quiet
  updateHooks : ∀ hook ∈ c'.updateHooks, hook.Quiet

/-- a waiting component is bound if everything is found -/
theorem Waits.bind_spec (h : c.Waits fragment row) (hm : c.template.Marked) (hq : c.template.Quiet) {w : World H}
    (hb : w.backend = .faithful) {R : Forest Bare}
    (hw : w.document.Holds (tree (fragmentNode fragment) (planted c.template.skeleton (fragment + 1)) ++
      (join (c.textCells.map (TextCell.ground c.props.text)) ++ R))) :
    ((c.bind fragment w).result = .ok () ∧ c.Located (fragment + 1) ∧
        c.IsBound (c.bind fragment w).self (fragment + 1) ∧
        ∃ g, (c.site fragment (R ++ g) (h.textCells hm)).Reached c.changes (c.bind fragment w).world) ∨
      (∃ fault, (c.bind fragment w).result = .error fault) ∧ ¬ c.Located (fragment + 1) := by
  have htexts : TextCells c.template.skeleton (fragment + 1) ([] ++ c.textCells) := h.textCells hm
  have hchanges := h.celled.changes hm
  rw [Core.bind]
  dsimp only
  rcases bindTexts_spec c.textCells [] htexts w hb (by rw [List.map_nil, fillBy_nil]; exact hw) with
    ⟨hok, hfound, hb1, g, hw1⟩ | ⟨⟨fault, herr⟩, hno⟩
  · rw [show (bindTexts fragment c.textCells w).result = .ok () from hok]
    dsimp only
    have h1 : (c.site fragment (R ++ g) (h.textCells hm)).Reached [] (bindTexts fragment c.textCells w).world :=
      ⟨hb1, _, by rw [attrs_id]; exact hw1, .nil _ _ _⟩
    rcases Site.bindAttributes_spec c.attributeCells [] hchanges.left _ h1 with
      ⟨hok2, hfound2, h2, hcells⟩ | ⟨⟨fault, herr⟩, hno⟩
    · rw [show (bindAttributes fragment c.attributeCells (bindTexts fragment c.textCells w).world).result = .ok () from hok2]
      dsimp only
      rw [Core.changes, ← List.append_assoc] at hchanges
      rcases Site.attachListeners_spec c.channel c.template.placeholders 0 _ hchanges.left _ h2 with
        ⟨hok3, hfound3, h3, hclean⟩ | ⟨⟨fault, herr⟩, hno⟩
      · rw [show (attachListeners fragment c.channel 0 c.template.placeholders (bindAttributes fragment
          c.attributeCells (bindTexts fragment c.textCells w).world).world).result = .ok () from hok3]
        dsimp only
        rcases Site.runActions_spec c.props c.template.placeholders hq 0 _ hchanges _ h3 with
          ⟨hok4, hfound4, h4, hclean', hhooks⟩ | ⟨⟨fault, herr⟩, hno⟩
        · refine .inl ⟨hok4, ⟨hfound, ?_⟩, ⟨⟨_, _, _, rfl⟩, ?_, ?_, ?_⟩, g, ?_⟩
          · rw [Core.changes, allFound_append, allFound_append]
            exact ⟨hfound2, hfound3, hfound4⟩
          · refine hcells.imp fun cell cell' hcell => ⟨hcell.index, hcell.prop, hcell.name, hcell.value, ?_⟩
            obtain ⟨n, hn, he, ht⟩ := hcell.element
            refine ⟨n, hn, he, fun htidy => ht fun d hd => htidy d ?_⟩
            exact List.mem_append_left _ hd
          · intro cleanup hin
            rcases List.mem_append.1 hin with hin | hin
            · rcases List.mem_append.1 hin with hin | hin
              · rw [h.cleanups] at hin
                cases hin
              · exact hclean cleanup hin
            · exact hclean' cleanup hin
          · intro hook hin
            rcases List.mem_append.1 hin with hin | hin
            · rw [h.updateHooks] at hin
              cases hin
            · exact hhooks hook hin
          · rw [Core.changes, ← List.append_assoc]
            exact h4
        · refine .inr ⟨⟨fault, herr⟩, fun hl => hno ?_⟩
          have := hl.2
          rw [Core.changes, allFound_append, allFound_append] at this
          exact this.2.2
      · rw [show (attachListeners fragment c.channel 0 c.template.placeholders (bindAttributes fragment
          c.attributeCells (bindTexts fragment c.textCells w).world).world).result = .error fault from herr]
        refine .inr ⟨⟨fault, rfl⟩, fun hl => hno ?_⟩
        have := hl.2
        rw [Core.changes, allFound_append, allFound_append] at this
        exact this.2.1
    · rw [show (bindAttributes fragment c.attributeCells (bindTexts fragment c.textCells w).world).result = .error fault from herr]
      refine .inr ⟨⟨fault, rfl⟩, fun hl => hno ?_⟩
      have := hl.2
      rw [Core.changes, allFound_append] at this
      exact this.1
  · rw [show (bindTexts fragment c.textCells w).result = .error fault from herr]
    exact .inr ⟨⟨fault, rfl⟩, fun hl => hno hl.1⟩

end Core

end LiveMarkup
