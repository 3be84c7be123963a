/-
Setting and updating agree.

An update applies all its entries, a set only those that are not what the component has. Both come to the same as long as
the component shows what it has and has handed it on (`Component.Sure`), which every call keeps that does not fail to find
its markers. Equal values have equal effects but for the two zeros, which are equal and read differently.

Blocks of the host are told of both. What is asked of them is that they keep to themselves and refuse nothing that is
given to them (`ForeignBlocks.Obliging`); a recorder that is not made to fail there is such a block (`Script.obliging`).

- `Component.Handed.update`, `Component.Handed.tick`: what is given to a component is handed on;
- `Component.Sure.run`: what a component is like after any calls;
- `Component.set_agrees`: setting against updating; `Component.set_disagrees`: where a zero takes the other's place.
-/
import LiveMarkup.Proofs.Component.Appear
import LiveMarkup.Proofs.Component.Lifecycle
import LiveMarkup.Proofs.Component.Thinned

namespace LiveMarkup

open Document

variable {H : Host}

/-! ## What is handed on -/

/-- what a child is made with is what its bindings say -/
theorem get?_childProps_of_mem {bindings : List Binding} (hn : (bindings.map Binding.child).Nodup) {b : Binding}
    (hb : b ∈ bindings) (props : Props) : (childProps bindings props).get? b.child = props.get? b.outer := by
  rw [childProps, get?_ofList_bindings (p := props) hn fun name value => ?_]
  · have hfind : bindings.find? (·.child == b.child) = some b := by
      cases hf : bindings.find? (·.child == b.child) with
      | none => exact absurd (beq_self_eq_true _) (List.find?_eq_none.1 hf b hb)
      | some a =>
        have hc : a.child = b.child := eq_of_beq (List.find?_some (p := fun x : Binding => x.child == b.child) hf)
        rw [List.inj_on_of_nodup_map hn (List.mem_of_find?_eq_some hf) hb hc]
    rw [outerOf?, hfind]
    rfl
  · rw [List.mem_filterMap]
    refine exists_congr fun b => and_congr_right fun _ => ?_
    rw [Option.map_eq_some_iff]
    constructor
    · rintro ⟨v, hv, he⟩
      obtain ⟨rfl, rfl⟩ := Prod.mk.inj he
      exact ⟨rfl, hv⟩
    · rintro ⟨rfl, hv⟩
      exact ⟨value, hv, rfl⟩

/-- an instance has handed on what it was made with -/
theorem Component.InstanceOf.handed {t : Template (Action H)} {props : Props} {c : Component H}
    (h : c.InstanceOf t props) (ht : t.Everywhere Template.Tame) : c.Handed := by
  induction h with
  | @mk t props channel children indices flags placed kids ih =>
    refine .mk ht.self.once (fun index atRoot child hin u bindings hp b hb _ => ?_) placed fun n hn child hc => ?_
    · have hprops : child.props = childProps bindings props := (kids _ hin u bindings child hp rfl).props
      rw [hprops]
      exact get?_childProps_of_mem (ht.self.once _ _ (List.mem_of_getElem? hp)) hb props
    · obtain ⟨u, bindings, made, hp, hblock⟩ := placed n hn
      obtain rfl := Block.component.inj (hc.symm.trans hblock)
      exact ih n hn u bindings child hp hblock (ht.child hp)

namespace Component

/-- what is in the slots has nothing to do with what is handed on to children -/
theorem Handed.of_children {c c' : Component H} (h : c.Handed) (ht : c'.core.template = c.core.template)
    (hp : c'.props = c.props) (hc : c'.children = c.children) : c'.Handed := by
  cases h with
  | mk once follows placed kids =>
    refine .mk (fun u bindings hu => once u bindings (ht ▸ hu)) ?_ (by rw [hc, ht]; exact placed) (hc ▸ kids)
    intro index atRoot child hin t bindings hplace b hb hlate
    rw [hp]
    exact follows index atRoot child (hc ▸ hin) t bindings (ht ▸ hplace) b hb hlate

/-- calls that change no values leave what has been handed on -/
theorem Handed.of_values {c c' : Component H} (h : c.Handed) (hl : c.Like values c') : c'.Handed := by
  induction h generalizing c' with
  | @mk c once follows placed kids ih =>
    obtain ⟨hcore, -, hchildren⟩ := Component.like_iff.1 hl
    rw [likeAll_iff] at hchildren
    refine .mk (fun u bindings hu => once u bindings (hcore.template ▸ hu)) ?_ (fun n' hn' => ?_)
      fun n' hn' child' hblock' => ?_
    · intro index atRoot child' hin' t bindings hplace b hb hlate
      obtain ⟨⟨i, r, block⟩, hn, hindex, hlike⟩ := mem_of_forall₂ hchildren hin'
      obtain ⟨-, -, child, -, hblock⟩ := placed _ hn
      obtain rfl : block = .component child := hblock
      obtain rfl : index = i := hindex
      have hlike : child.Like values child' := hlike
      have hprops : child'.props = child.props := (Component.like_iff.1 hlike).1.props
      have hown : c'.props = c.props := hcore.props
      rw [hprops, hown]
      exact follows index r child hn t bindings (hcore.template ▸ hplace) b hb hlate
    · obtain ⟨n, hn, hindex, hlike⟩ := mem_of_forall₂ hchildren hn'
      obtain ⟨t, bindings, child, hplace, hblock⟩ := placed n hn
      rw [hblock] at hlike
      obtain ⟨child', hblock', -⟩ := Block.like_component hlike
      rw [hcore.template, hindex]
      exact ⟨t, bindings, child', hplace, hblock'⟩
    · obtain ⟨n, hn, -, hlike⟩ := mem_of_forall₂ hchildren hn'
      obtain ⟨-, -, child, -, hblock⟩ := placed n hn
      rw [hblock, hblock'] at hlike
      exact ih n hn child hblock hlike

variable [ForeignBlocks H]

/-- new values are handed on, if every child accepts them -/
theorem Handed.of_given {c c' : Component H} (h : c.Handed) {changed : Props} {all : Prop} (hall : all)
    (ht : c'.core.template = c.core.template) (hp : c'.props = c.props.extend changed.entries)
    (hg : List.Forall₂ (Given (forwardedTo c.core.template.placeholders changed) all) c.children c'.children)
    (hkids : ∀ n ∈ c.children, ∀ child, n.block = .component child → ∀ given (w : World H),
      (child.update given w).result = .ok () → (child.update given w).self.Handed) : c'.Handed := by
  cases h with
  | mk once follows placed kids =>
    -- each child is what it was, or what an update made of it
    have hnow : ∀ n' ∈ c'.children, ∃ u bindings child', c'.core.template.placeholders[n'.index]? =
        some (.child u bindings) ∧ n'.block = .component child' ∧ child'.Handed := by
      intro n' hn'
      rw [ht]
      obtain ⟨n, hn, hgiven⟩ := mem_of_forall₂ hg hn'
      cases hgiven with
      | left _ _ =>
        obtain ⟨u, bindings, child, hplace, hblock⟩ := placed _ hn
        exact ⟨u, bindings, child, hplace, hblock, kids _ hn child hblock⟩
      | given atRoot block w _ hok =>
        obtain ⟨u, bindings, child, hplace, hblock⟩ := placed _ hn
        obtain rfl : block = .component child := hblock
        exact ⟨u, bindings, _, hplace, rfl, hkids _ hn child rfl _ w (hok hall)⟩
    refine .mk (fun u bindings hu => once u bindings (ht ▸ hu)) ?_ (fun n' hn' => ?_) fun n' hn' child' hblock' => ?_
    · intro index atRoot child' hin' t bindings hplace b hb hlate
      have hplace : c.core.template.placeholders[index]? = some (.child t bindings) := ht ▸ hplace
      obtain ⟨n, hn, hgiven⟩ := mem_of_forall₂ hg hin'
      obtain ⟨old, rfl, hchild⟩ := hgiven.child
      rw [hchild b.child (.inl hall), get?_forwardedTo hplace (once t bindings (List.mem_of_getElem? hplace)) hb changed,
        hp, Props.get?_extend, follows index atRoot old hn t bindings hplace b hb hlate]
    · obtain ⟨u, bindings, child, hplace, hblock, -⟩ := hnow n' hn'
      exact ⟨u, bindings, child, hplace, hblock⟩
    · obtain ⟨-, -, child, -, hblock, hhanded⟩ := hnow n' hn'
      obtain rfl := Block.component.inj (hblock'.symm.trans hblock)
      exact hhanded

theorem Handed.update {c : Component H} (h : c.Handed) (changed : Props) (w : World H)
    (hok : (c.update changed w).result = .ok ()) : (c.update changed w).self.Handed := by
  induction h generalizing changed w with
  | @mk c once follows placed kids ih =>
    obtain ⟨core, slots, children⟩ := c
    have hp : core.phase ≠ .destroyed := by
      intro hp
      rw [Component.update_mk, if_pos hp] at hok
      cases hok
    rw [Component.update_mk, if_neg hp] at hok ⊢
    obtain ⟨hprops, -, htemplate, -⟩ := core.applyEntries_fields w changed
    exact Handed.of_given (.mk once follows placed kids) hok htemplate hprops (updateRow_given _ children _)
      fun n hn child hblock given w => ih n hn child hblock given w

theorem Handed.tick {c : Component H} (h : c.Handed) (incoming : Props) (context : Option Props) (w : World H)
    (hok : (c.tick incoming context w).result = .ok ()) : (c.tick incoming context w).self.Handed := by
  have hp : c.core.phase ≠ .destroyed := by
    intro hp
    obtain ⟨core, slots, children⟩ := c
    have hp : core.phase = .destroyed := hp
    rw [Component.tick_mk, if_pos hp] at hok
    cases hok
  obtain ⟨hcore, -, -, hchildren⟩ := Component.tick_given hp incoming context w
  obtain ⟨hprops, -, htemplate, -⟩ := c.core.taking_fields incoming context w
  refine h.of_given hok (by rw [hcore, htemplate]) ?_ hchildren fun n hn child hblock given w => ?_
  · show (c.tick incoming context w).self.core.props = _
    rw [hcore, hprops]
    rfl
  · cases h with
    | mk _ _ _ kids => exact (kids n hn child hblock).update given w

end Component

/-! ## What a component is like after any calls -/

mutual
/-- a component that has nothing in a document shows all that it has -/
theorem Component.Idle.nothing : {c : Component H} → c.Idle →
    c.attributes = [] ∧ ∀ d : Document (Listener H.Handler), c.Shown d
  | .mk core slots children, ⟨h, hs, hc⟩ => by
    have hcore : core.Idle := h
    obtain ⟨hattributes, hshown⟩ := eachOf_idle_nothing hs
    obtain ⟨hattributes', hshown'⟩ := eachOf_idle_nothing hc
    rw [Component.attributes, Core.attributes, hcore.attributeCells, hattributes, hattributes']
    refine ⟨rfl, fun d => ⟨⟨?_, ?_⟩, hshown d, hshown' d⟩⟩
    · rw [hcore.textCells]
      exact List.forall_mem_nil _
    · rw [hcore.attributeCells]
      exact List.forall_mem_nil _
theorem eachOf_idle_nothing : {row : List (Nested H)} → eachOf Core.Idle (·.node = none) row →
    attributesIn row = [] ∧ ∀ d : Document (Listener H.Handler), shownAll row d
  | [], _ => ⟨rfl, fun _ => trivial⟩
  | .mk _ _ _ :: _, ⟨h, hr⟩ => by
    obtain ⟨hattributes, hshown⟩ := Block.Idle.nothing h
    obtain ⟨hattributes', hshown'⟩ := eachOf_idle_nothing hr
    rw [attributesIn, hattributes, hattributes']
    exact ⟨rfl, fun d => ⟨hshown d, hshown' d⟩⟩
theorem Block.Idle.nothing : {b : Block H} → b.Idle →
    b.attributes = [] ∧ ∀ d : Document (Listener H.Handler), b.Shown d
  | .text _, _ => ⟨rfl, fun _ => trivial⟩
  | .foreign _, _ => ⟨rfl, fun _ => trivial⟩
  | .component _, h => Component.Idle.nothing h
end

section

variable [ForeignBlocks H]

/-- and it has no texts, if the blocks of the host that are nested in it hold nothing -/
theorem Block.Idle.texts_eq_nil {b : Block H} (h : b.Idle) (hg : b.Guests fun f => ForeignBlocks.handles f = []) :
    b.texts = [] := by
  have hrow : ∀ row : List (Nested H), (∀ n ∈ row, n.block.texts = []) → textsIn row = [] := by
    intro row
    induction row with
    | nil => exact fun _ => rfl
    | cons n row ih =>
      obtain ⟨index, atRoot, block⟩ := n
      rw [List.forall_mem_cons]
      intro hrow
      have hblock : block.texts = [] := hrow.1
      rw [textsIn, hblock, ih hrow.2]
      rfl
  refine Block.guests_induct (P := fun b => b.texts = []) (fun t ht => ?_) (fun f hf => ?_)
    (fun core slots children hcore hs hc => ?_) hg h
  · rw [Block.texts, ht]
    rfl
  · rw [Block.texts, hf]
    rfl
  · rw [Block.texts, Component.texts, Core.texts, hcore.textCells, hrow slots hs, hrow children hc]
    rfl

/-- what a component is like in its world as long as no marker is lost: it is as its template says, has handed on what it
was given, has its texts and attributes in the document, and shows what it has if no attribute is bound twice -/
structure Component.Sure (guest : H.Foreign → Prop) (c : Component H) (w : World H) : Prop where
  intact : w.document.Intact
  guests : c.Guests guest
  primed : (Block.component c).Primed
  handed : c.Handed
  phase : c.Active ∨ c.Idle ∧ ∃ s, c.In s
  texts : c.texts.Nodup
  known : w.document.Known c.texts c.attributes
  shown : c.attributes.Nodup → c.Shown w.document

namespace Component.Sure

variable {guest : H.Foreign → Prop} {c c' : Component H} {w w' : World H}

/-- a component that has nothing in a document -/
theorem of_idle (hd : w.document.Intact) (hg : c.Guests guest) (ht : c.Each (·.template.Tame) fun _ => True)
    (hh : c.Handed) (hi : c.Idle) (hs : ∃ s, c.In s) (htexts : c.texts.Nodup) (hk : w.document.Known c.texts []) :
    c.Sure guest w := by
  obtain ⟨hattributes, hshown⟩ := hi.nothing
  have hprimed : (Block.component c).Primed := by
    refine Component.Each.imp (fun core h => ?_) (fun _ _ => trivial) (hi.and ht)
    obtain ⟨hidle, htame⟩ := h
    exact ⟨⟨by rw [hidle.cleanups]; exact List.forall_mem_nil _, by rw [hidle.updateHooks]; exact List.forall_mem_nil _⟩,
      htame, fun _ => by rw [hidle.attributeCells]; exact List.forall_mem_nil _⟩
  exact ⟨hd, hg, hprimed, hh, .inr ⟨hi, hs⟩, htexts, hattributes ▸ hk, fun _ => hshown _⟩

/-- after a turn -/
theorem goes (h : c.Sure guest w) (hg : (Block.component c).Goes (.component c') w w') (hguests : c'.Guests guest)
    (hh : c'.Handed) (hp : c'.Active ∨ c'.Idle ∧ ∃ s, c'.In s) : c'.Sure guest w' := by
  obtain ⟨hknown, htexts⟩ := hg.turns.known h.texts h.known
  exact ⟨hg.turns.writes.intact, hguests, hg.primed, hh, hp, htexts, hknown, fun hS =>
    hg.turns.keeps h.texts hS h.known (h.shown (hg.turns.spots.nodup hS))⟩

theorem tame (h : c.Sure guest w) : c.Each (·.template.Tame) fun _ => True :=
  Component.Each.imp (fun _ hc => hc.tame) (fun _ h => h) h.primed

theorem mild (h : c.Sure guest w) : (Block.component c).Mild guest :=
  ⟨h.guests, Component.Each.imp (fun _ hc => hc.hushed) (fun _ h => h) h.primed⟩

/-- no component of it is destroyed unless it is itself -/
theorem alive (h : c.Sure guest w) (hs : c.state ≠ .destroyed) : c.Alive := by
  rcases h.phase with ha | ⟨-, s, hin⟩
  · exact ha.alive
  · exact hin.alive fun heq => hs (hin.phase.trans heq)

/-- new values are shown and handed on -/
theorem give (h : c.Sure guest w) {o : Outcome H (Component H)} (hl : c.Like footing o.self)
    (ht : c.Turns o.self w o.world) (hg : o.self.Guests guest) (hh : o.self.Handed) : o.self.Sure guest o.world := by
  refine h.goes ⟨ht, ?_⟩ hg hh ?_
  · exact hl.each (fun a b (hab : a.SameFooting b) ha => hab.primed ha) (fun _ _ _ h => h) h.primed
  · refine h.phase.imp (hl.each (fun a b (hab : a.SameFooting b) ha => hab.phase ▸ ha) fun _ _ _ h => h) ?_
    rintro ⟨hi, s, hin⟩
    exact ⟨hl.each (fun a b (hab : a.SameFooting b) ha => ha.of_footing hab)
      (fun t t' (hab : t'.node = t.node) ha => hab.trans ha) hi, s, hl.inState hin⟩

variable (hf : ForeignBlocks.Obliging guest)
include hf

theorem create (h : c.Sure guest w) : (c.create w).self.Sure guest (c.create w).world ∧
    (c.state ≠ .mounted → (c.create w).self.Active) := by
  have hv := c.create_values w
  rcases h.phase with ha | ⟨hi, s, hin⟩
  · obtain ⟨core, slots, children⟩ := c
    rw [Component.create]
    cases hp : core.phase with
    | created fragment => exact ⟨h, fun _ => ha⟩
    | mounted => exact ⟨h, fun hno => absurd (congrArg Phase.state hp) hno⟩
    | unmounted | destroyed =>
      have hactive : core.phase.Active := ha.1
      rw [hp] at hactive
      exact hactive.elim
  · have hs : s = .unmounted ∨ s = .destroyed := by
      have hidle : ¬ c.core.phase.Active := by
        cases c
        exact hi.1.phase
      have hphase := hin.phase
      cases hp : c.core.phase with
      | created | mounted =>
        rw [hp] at hidle
        exact absurd trivial hidle
      | unmounted | destroyed =>
        rw [hp] at hphase
        rw [← hphase]
        simp [Phase.state]
    have hactive := (hin.create hs hf.willing h.guests w).2.active (.inl rfl)
    have hgoes := Block.Idle.goes_create (b := .component c) hf hi h.guests h.primed h.intact
    exact ⟨h.goes hgoes ((hf.lasting.create c w).stays h.guests) (h.handed.of_values hv) (.inl hactive), fun _ => hactive⟩

theorem mountCreated (h : c.Sure guest w) (ha : c.Active) {target : NodeId} {anchor : Option NodeId}
    (hok : (c.mountCreated target anchor w).result = .ok ()) :
    (c.mountCreated target anchor w).self.Sure guest (c.mountCreated target anchor w).world := by
  have hv := c.mountCreated_values target anchor w
  have hgoes := Block.goes_mountCreated (b := .component c) hf h.guests h.primed target anchor h.intact hok
  exact h.goes hgoes ((hf.lasting.mountCreated target anchor c w).stays h.guests) (h.handed.of_values hv)
    (.inl ((ha.mounting target anchor w).ok hok).1)

theorem mount (h : c.Sure guest w) {target : NodeId} {anchor : Option NodeId}
    (hm : c.state = .mounted ∨ (c.mount target anchor w).result = .ok ()) :
    (c.mount target anchor w).self.Sure guest (c.mount target anchor w).world := by
  by_cases hs : c.state = .mounted
  · rw [Component.mount, Phase.eq_mounted_of hs]
    exact h
  · have hok := hm.resolve_left hs
    obtain ⟨hcreated, hactive⟩ := h.create hf
    have hactive := hactive hs
    rw [Component.mount] at hok ⊢
    cases hp : c.core.phase with
    | mounted => exact absurd (congrArg Phase.state hp) hs
    | created fragment =>
      rw [hp] at hok
      have hsame : c.create w = .ok c w := by
        obtain ⟨core, slots, children⟩ := c
        have hp : core.phase = .created fragment := hp
        rw [Component.create, hp]
      rw [hsame] at hactive
      exact h.mountCreated hf hactive hok
    | unmounted | destroyed =>
      rw [hp] at hok
      dsimp only at hok ⊢
      cases hc : (c.create w).result with
      | error fault =>
        rw [hc] at hok
        have hok : (c.create w).result = .ok () := hok
        rw [hc] at hok
        cases hok
      | ok =>
        rw [hc] at hok
        exact hcreated.mountCreated hf hactive hok

theorem destroy (h : c.Sure guest w) (detaching : Bool) :
    (c.destroy detaching w).self.Sure guest (c.destroy detaching w).world := by
  have hv := c.destroy_values detaching w
  have hclears : Clears c.texts (c.destroy detaching w).self.texts w.document (c.destroy detaching w).world.document :=
    h.mild.clears_destroy hf detaching h.intact
  have ht : (c.destroy detaching w).self.Each (·.template.Tame) fun _ => True :=
    hv.each (fun a b (hab : a.SameValues b) ha => hab.template ▸ ha) (fun _ _ _ h => h) h.tame
  have hidle : (c.destroy detaching w).self.Idle ∧ ∃ s, (c.destroy detaching w).self.In s := by
    rcases h.phase with ha | ⟨hi, hs⟩
    · exact ⟨ha.destroy detaching w, .destroyed, ha.destroy_in detaching w⟩
    · rw [hi.destroy detaching w]
      exact ⟨hi, hs⟩
  obtain ⟨hknown, htexts⟩ := hclears.known h.texts ⟨h.known.texts, List.forall_mem_nil _⟩
  exact of_idle hclears.writes.intact ((hf.lasting.destroy detaching c w).stays h.guests) ht (h.handed.of_values hv)
    hidle.1 hidle.2 htexts hknown

theorem update (h : c.Sure guest w) (changed : Props) :
    (c.update changed w).self.Sure guest (c.update changed w).world := by
  by_cases hs : c.state = .destroyed
  · obtain ⟨core, slots, children⟩ := c
    have hp : core.phase = .destroyed := Phase.eq_destroyed_of hs
    rw [Component.update_mk, if_pos hp]
    exact h
  · exact h.give (c.update_footing changed w) (h.mild.turn_update hf changed h.intact)
      ((hf.lasting.update changed c w).stays h.guests)
      (h.handed.update changed w ((h.alive hs).update hf.willing h.guests changed w))

theorem tick (h : c.Sure guest w) (incoming : Props) (context : Option Props) :
    (c.tick incoming context w).self.Sure guest (c.tick incoming context w).world := by
  by_cases hs : c.state = .destroyed
  · obtain ⟨core, slots, children⟩ := c
    have hp : core.phase = .destroyed := Phase.eq_destroyed_of hs
    rw [Component.tick_mk, if_pos hp]
    exact h
  · exact h.give (c.tick_footing incoming context w) (Component.turn_tick hf h.mild incoming context h.intact)
      ((hf.lasting.tick incoming context c w).stays h.guests)
      (h.handed.tick incoming context w ((h.alive hs).tick hf.willing h.guests incoming context w))

theorem transition (h : c.Sure guest w) (t : Transition) (isLocal : Bool) :
    (c.transition t isLocal w).1.Sure guest (c.transition t isLocal w).2 :=
  h.give (o := .ok (c.transition t isLocal w).1 (c.transition t isLocal w).2) (c.transition_footing t isLocal w)
    (h.mild.turn_transition hf t isLocal h.intact) ((hf.lasting.transition t isLocal c w).stays h.guests)
    (h.handed.of_values (c.transition_values t isLocal w))

/-- **One call.** Every call but a mount that fails leaves a component as it has to be. -/
theorem call (h : c.Sure guest w) (call : Call NodeId)
    (hm : ∀ target anchor, call = .mount target anchor → c.state = .mounted ∨ (c.mount target anchor w).result = .ok ()) :
    (c.call w call).self.Sure guest (c.call w call).world := by
  cases call with
  | create => exact (h.create hf).1
  | mount target anchor => exact h.mount hf (hm target anchor rfl)
  | destroy detaching => exact h.destroy hf detaching
  | update changed => exact h.update hf changed
  | set incoming => exact h.tick hf incoming none
  | tick incoming context => exact h.tick hf incoming context
  | transition t isLocal => exact h.transition hf t isLocal

end Component.Sure

end

/-! ## Setting against updating -/

/-- values that are equal are the same, but for the two zeros -/
theorem Value.eq_of_same {v v' : Value} (h : v.same v' = true)
    (hz : ∀ x y, v = .float x → v' = .float y → x.isZero = true → y.isZero = true → x = y) : v = v' := by
  cases v <;> cases v' <;> first | cases h | skip
  · rfl
  · exact congrArg Value.bool (eq_of_beq h)
  · exact congrArg Value.int (eq_of_beq h)
  · next x y =>
    have h : x.same y = true := h
    rw [Binary64.same, Bool.and_eq_true, Bool.or_eq_true, Bool.and_eq_true (x.isZero), decide_eq_true_iff] at h
    exact congrArg Value.float (h.2.elim id fun hzeros => hz x y rfl rfl hzeros.1 hzeros.2)
  · exact congrArg Value.str (eq_of_beq h)

/-- no prop that is a zero is given the other zero -/
def Props.KeepsZeros (current incoming : Props) : Prop :=
  ∀ e ∈ incoming.entries, ∀ x y, current.get? e.1 = some (.float x) → e.2 = .float y → x.isZero = true →
    y.isZero = true → x = y

theorem Props.KeepsZeros.thinned {current incoming : Props} (h : current.KeepsZeros incoming) :
    Thinned current.get? incoming.entries (current.changes incoming).entries := by
  refine thinned_filter fun e he hkeep => ?_
  dsimp only at hkeep
  cases hv : current.get? e.1 with
  | none =>
    rw [hv] at hkeep
    cases hkeep
  | some v =>
    rw [hv] at hkeep
    have hsame : v.same e.2 = true := by simpa using hkeep
    rw [Value.eq_of_same hsame fun x y hx hy => h e he x y (hx ▸ hv) hy]

section

variable [ForeignBlocks H]

/-- setting and updating come to the same -/
structure Component.Agrees (c : Component H) (w : World H) (p : Props) : Prop where
  set_ok : (c.set p w).result = .ok ()
  update_ok : (c.update p w).result = .ok ()
  component : (c.set p w).self = (c.update p w).self
  document : (c.set p w).world.document = (c.update p w).world.document

/-- no mount among these calls fails, but for mounts of what is mounted already -/
def Component.MountsAll (c : Component H) (w : World H) : List (Call NodeId) → Prop
  | [] => True
  | call :: calls =>
    (∀ target anchor, call = .mount target anchor → c.state = .mounted ∨ (c.mount target anchor w).result = .ok ()) ∧
      (c.call w call).self.MountsAll (c.call w call).world calls

/-- the contents of the slots are texts, instances and such blocks of the host to which nothing has happened yet -/
structure Options.Untouched (guest : H.Foreign → Prop) (options : Options H) : Prop where
  guests : ∀ e ∈ options.slots, e.2.Guests guest
  unheld : ∀ e ∈ options.slots, e.2.Guests fun f => ForeignBlocks.handles f = []
  idle : ∀ e ∈ options.slots, e.2.Idle
  unmounted : ∀ e ∈ options.slots, e.2.In .unmounted
  tame : ∀ e ∈ options.slots, e.2.Each (·.template.Tame) fun _ => True

section

variable {guest : H.Foreign → Prop}

theorem Component.furnished_sure {t : Template (Action H)} (ht : t.Everywhere Template.Tame) {options : Options H}
    (ho : options.Untouched guest) (w₀ : World H) {w : World H} (hd : w.document.Intact) :
    (furnished t options w₀).Sure guest w := by
  have hidle := furnished_idle (t := t) ho.idle w₀
  have htexts : (furnished t options w₀).texts = [] :=
    Block.Idle.texts_eq_nil (b := .component (furnished t options w₀)) hidle (furnished_guests ho.unheld w₀)
  refine .of_idle hd (furnished_guests ho.guests w₀) (furnished_each ht ho.tame w₀)
    (((ofTemplate_instance t options.props w₀).handed ht).of_children rfl rfl rfl) hidle
    ⟨.unmounted, furnished_in ho.unmounted w₀⟩ ?_ ?_
  · rw [htexts]
    exact List.nodup_nil
  · rw [htexts]
    exact ⟨List.forall_mem_nil _, List.forall_mem_nil _⟩

variable (hf : ForeignBlocks.Obliging guest)
include hf

theorem Component.Sure.agrees {c : Component H} {w : World H} (h : c.Sure guest w) (hs : c.state ≠ .destroyed)
    (ha : c.attributes.Nodup) {p : Props} (hp : c.props.KeepsZeros p) : c.Agrees w p := by
  have halive := h.alive hs
  obtain ⟨hself, hdocument⟩ := h.handed.update_thinned hf h.mild halive
    ⟨h.intact, h.texts, ha, h.known, h.shown ha⟩ (rfl : w.document = w.document) hp.thinned
  exact ⟨halive.tick hf.willing h.guests p none w, halive.update hf.willing h.guests p w, c.set_eq p w ▸ hself,
    c.set_eq p w ▸ hdocument⟩

theorem Component.Sure.run {c : Component H} {w : World H} (h : c.Sure guest w) {calls : List (Call NodeId)}
    (hm : c.MountsAll w calls) : (c.run w calls).1.Sure guest (c.run w calls).2 := by
  induction calls generalizing c w with
  | nil => exact h
  | cons call calls ih => exact ih (h.call hf call hm.1) hm.2

/-- **Setting agrees with updating.** For every template, every instance of it and everything that has been done with
it, as long as no mount has failed and it is not destroyed: if no attribute is bound twice, setting props and updating
them both succeed and leave the same component, with all that is nested in it, and the same document, whatever the props
are, unless a zero is given for the other. Its slots may hold texts, other instances, and blocks of the host that write
into no attributes and into no texts but their own, and that refuse neither to be created nor to be updated. -/
theorem Component.set_agrees {t : Template (Action H)} (ht : t.Everywhere Template.Tame) {options : Options H}
    (ho : options.Untouched guest) (w₀ : World H) {w : World H} (hd : w.document.Intact) {calls : List (Call NodeId)}
    (hm : (furnished t options w₀).MountsAll w calls) :
    let now := (furnished t options w₀).run w calls
    now.1.state ≠ .destroyed → now.1.attributes.Nodup → ∀ p, now.1.props.KeepsZeros p → now.1.Agrees now.2 p :=
  fun hs ha _ hp => ((furnished_sure ht ho w₀ hd).run hf hm).agrees hf hs ha hp

end

end

/-! ## Zeros -/

theorem Marker.free_title : Marker.Free "title" := by
  intro m hm hname
  have hlist : (stem m.category).toList ++ (toString m.index).toList = "title".toList := by
    rw [← String.toList_append]
    exact congrArg String.toList hname
  cases hc : m.category with
  | «attribute» | event | action =>
    rw [hc] at hlist
    exact absurd (List.cons.inj hlist).1 (by decide)
  | text | slot | child =>
    rw [hc] at hm
    cases hm

theorem Template.paragraph_tame : (Template.paragraph : Template (Action H)).Tame := by
  refine ⟨fun run param h => ?_, fun prop name h => ?_, fun u bindings h => ?_⟩
  · cases h with
    | tail _ h => cases h with
      | tail _ h => cases h
  · cases h with
    | head => exact Marker.free_title
    | tail _ h => cases h with
      | tail _ h => cases h
  · cases h with
    | tail _ h => cases h with
      | tail _ h => cases h

theorem Template.stacked_tame : (Template.stacked : Template (Action H)).Everywhere Template.Tame := by
  refine ⟨⟨fun run param h => ?_, fun prop name h => ?_, fun u bindings h => ?_⟩,
    ⟨paragraph_tame, trivial⟩, trivial⟩
  · cases h with
    | tail _ h => cases h with
      | tail _ h => cases h
  · cases h with
    | tail _ h => cases h with
      | tail _ h => cases h
  · cases h with
    | tail _ h => cases h with
      | head => decide
      | tail _ h => cases h

namespace Script

/-- a recorder that is created and updated without fail -/
def Recorder.Steady (r : Recorder) : Prop := r.fails.contains .create = false ∧ r.fails.contains .update = false

/-- what becomes of the element that a recorder holds is all that a call on it has to do with texts -/
theorem Recorder.turns {r r' : Recorder} {w w' : ScriptWorld}
    (h : Clears r.element.toList.dedup r'.element.toList.dedup w.document w'.document) :
    (Block.foreign r : Block host).Turns (.foreign r') w w' :=
  Turn.imp h (fun _ _ => trivial) fun _ _ => trivial

/-- what a steady recorder does is written to the log, and goes on unless it is to fail -/
theorem Recorder.abides_record {r₀ r : Recorder} (hr : r.Steady) {w₀ w : ScriptWorld}
    (hbefore : w₀.document.Intact → Clears r₀.element.toList.dedup r.element.toList.dedup w₀.document w.document)
    (call : RecordedCall) (detail : Detail) {go : ScriptWorld → Recorder × ScriptWorld} (hsteady : ∀ u, (go u).1.Steady)
    (hgo : ∀ u : ScriptWorld, u.document = w.document → w₀.document.Intact →
      Clears r₀.element.toList.dedup (go u).1.element.toList.dedup w₀.document (go u).2.document) :
    ForeignBlocks.Abides (H := host) Recorder.Steady r₀ (r.record w call detail go).self w₀
      (r.record w call detail go).world := by
  rw [record]
  dsimp only
  split
  · exact ⟨hr, fun hd => Recorder.turns (hbefore hd)⟩
  · exact ⟨hsteady _, fun hd => Recorder.turns (hgo _ rfl hd)⟩

theorem Recorder.record_ok {r : Recorder} {call : RecordedCall} (hr : r.fails.contains call = false) (w : ScriptWorld)
    (detail : Detail) (go : ScriptWorld → Recorder × ScriptWorld) : (r.record w call detail go).result = .ok () := by
  rw [record]
  dsimp only
  rw [if_neg (by rw [hr]; exact Bool.false_ne_true)]
  rfl

theorem obliging : ForeignBlocks.Obliging (H := host) Recorder.Steady where
  willing := ⟨fun _ hr _ => Recorder.record_ok hr.1 _ _ _, fun _ hr _ _ => Recorder.record_ok hr.2 _ _ _⟩
  create r hr w := by
    refine Recorder.abides_record hr (fun hd => .refl hd _) .create .nothing (fun _ => hr) fun u hu hd => ?_
    have hnew := clears_add hd (.element "i" [("id", r.label)])
    rw [← hu] at hd hnew ⊢
    exact (Clears.of_writes (.refl hd) _).trans hnew
  mount r hr target anchor w := by
    refine Recorder.abides_record hr (fun hd => .refl hd _) .mount _ (fun _ => hr) fun u hu hd => ?_
    dsimp only
    cases r.element with
    | none => rw [hu]; exact .refl hd _
    | some id =>
      have hmoved := writes_insertBefore hd target id anchor
      rw [← hu] at hmoved ⊢
      exact Turn.of_writes hmoved fun _ _ _ _ _ _ _ _ _ => trivial
  update r hr changed w := by
    refine Recorder.abides_record hr (fun hd => .refl hd _) .update _ (fun _ => hr) fun u hu hd => ?_
    dsimp only
    rw [hu]
    exact .refl hd _
  transition r hr t isLocal w := ⟨hr, fun hd => Turn.refl hd _ _ _⟩
  destroy r hr detaching w := by
    obtain ⟨label, fails, element⟩ := r
    have hrecorded : ∀ u : ScriptWorld, (w.document.Intact → Document.Writes [] [] w.document u.document) →
        ForeignBlocks.Abides (H := host) Recorder.Steady ⟨label, fails, element⟩
          (Recorder.record ⟨label, fails, none⟩ u .destroy (.flag detaching) (⟨label, fails, none⟩, ·)).self w
          (Recorder.record ⟨label, fails, none⟩ u .destroy (.flag detaching) (⟨label, fails, none⟩, ·)).world := by
      intro u h
      have hlast : Recorder.Steady ⟨label, fails, none⟩ := hr
      refine Recorder.abides_record hlast (fun hd => .of_writes (h hd) _) .destroy _ (fun _ => hlast) fun v hv hd => ?_
      rw [hv]
      exact .of_writes (h hd) _
    cases element with
    | none => exact hrecorded w fun hd => .refl hd
    | some id =>
      cases detaching with
      | false => exact hrecorded w fun hd => .refl hd
      | true => exact hrecorded _ fun hd => writes_detach hd id

end Script

def Props.zero : Props := ofList [("name", .float ⟨0⟩)]

/-- a stack with a recorder in its slot that fails to be destroyed -/
def Component.attended : Component Script.host :=
  furnished Template.stacked (Options.around (.foreign ⟨"guest", [.destroy], none⟩)) World.blank

/-- the stack is mounted, destroyed and mounted again; a zero is given to it, and again -/
theorem Component.set_agrees_attended :
    let now := attended.run World.blank [.mount 0 none, .destroy true, .mount 0 none, .update Props.zero]
    now.1.Agrees now.2 Props.zero := by
  have huntouched : Options.Untouched Script.Recorder.Steady
      (Options.around (.foreign ⟨"guest", [.destroy], none⟩) : Options Script.host) :=
    ⟨List.forall_mem_singleton.2 ⟨by decide, by decide⟩, List.forall_mem_singleton.2 rfl,
      List.forall_mem_singleton.2 trivial, List.forall_mem_singleton.2 trivial, List.forall_mem_singleton.2 trivial⟩
  have hmounts : attended.MountsAll World.blank [.mount 0 none, .destroy true, .mount 0 none, .update Props.zero] := by
    refine And.intro (fun target anchor h => .inr ?_) (And.intro (fun _ _ h => nomatch h)
      (And.intro (fun target anchor h => .inr ?_) (And.intro (fun _ _ h => nomatch h) trivial)))
    · obtain ⟨rfl, rfl⟩ := Call.mount.inj h
      decide +kernel
    · obtain ⟨rfl, rfl⟩ := Call.mount.inj h
      decide +kernel
  have hintact : World.blank.document.Intact := intact_empty.add (.element "body" [])
  refine set_agrees Script.obliging Template.stacked_tame huntouched World.blank hintact hmounts ?_ ?_ Props.zero ?_
  · decide +kernel
  · decide +kernel
  · intro e he x y hx hy _ _
    obtain rfl : e = ("name", .float ⟨0⟩) := List.mem_singleton.1 he
    obtain rfl : x = ⟨0⟩ := Value.float.inj (Option.some.inj (hx.symm.trans (by decide +kernel)))
    exact Value.float.inj hy

/-- the other zero is equal to it, so it is not set; an update shows it -/
theorem Component.set_disagrees :
    let now := frame.run World.blank [.mount 0 none, .update Props.zero]
    let other := Props.ofList [("name", .float ⟨0x8000000000000000⟩)]
    now.1.state = .mounted ∧ (now.1.set other now.2).result = .ok () ∧ (now.1.update other now.2).result = .ok () ∧
      (now.1.set other now.2).world.document.html 0 = "<body><div><p title=\"0\">0</p></div></body>" ∧
      (now.1.update other now.2).world.document.html 0 = "<body><div><p title=\"-0\">-0</p></div></body>" ∧
      (now.1.set other now.2).self.props.text "name" = "0" ∧ (now.1.update other now.2).self.props.text "name" = "-0" := by
  decide +kernel

end LiveMarkup
