/-
What a tick tells, and whom.

A tick stores what is new and shows it, then tells the slot contents what is new in the slot context, and then gives the
children what is forwarded to them: one after another, each at most once, and nobody who is given nothing (`Told`). What is
new is what differs from what is stored, so a tick that is repeated comes to nothing.

- `Component.tick_repeated`: a tick, or a part of it, once more;
- `Component.Ready.call`: as long as no mount fails, the children of a component that is not destroyed are not destroyed
  either, so they take what they are given;
- `Component.Ready.tick`: one tick of a component after any such calls.
-/
import LiveMarkup.Proofs.Component.Lifecycle

namespace LiveMarkup

variable {H : Host}

/-! ## Nothing new -/

/-- where a change set changes nothing, no part of it does -/
theorem Props.changes_of_subset {current incoming part : Props} (h : current.changes incoming = ∅)
    (hsub : part.entries ⊆ incoming.entries) : current.changes part = ∅ := by
  refine changes_eq_empty fun e he => by_contra fun hnew => ?_
  have hin : e ∈ (current.changes incoming).entries := List.mem_filter.2 ⟨hsub he, by simpa using hnew⟩
  rw [h] at hin
  exact List.not_mem_nil hin

/-- the component with these update hooks, slot contents and children in the place of its own -/
def Component.withOthers (hooks : List (UpdateHook H)) (slots children : List (Nested H)) (c : Component H) : Component H :=
  .mk { c.core with updateHooks := hooks } slots children

theorem Component.withOthers_self (c : Component H) : c.withOthers c.core.updateHooks c.slots c.children = c := by
  obtain ⟨core, slots, children⟩ := c
  rfl

section

variable [ForeignBlocks H]

/-- such a tick succeeds and leaves the component and the world as they are -/
def Component.Ignores (c : Component H) (incoming : Props) (context : Option Props) : Prop :=
  ∀ u, c.tick incoming context u = .ok c u

/-- **A tick that is repeated.** After a tick of a component that is not destroyed, the same tick succeeds and leaves the
component and the world as they are, and so does setting a part of its props. It runs no update hook and updates no slot
content and no child: it comes to nothing with any others in their place. -/
theorem Component.tick_repeated {c : Component H} (hp : c.state ≠ .destroyed) {incoming : Props}
    {context : Option Props} (hi : incoming.Steady) (hc : ∀ p ∈ context, p.Steady) (w : World H) :
    let after := (c.tick incoming context w).self
    (after.Ignores incoming context ∧
      ∀ part : Props, part.entries ⊆ incoming.entries → ∀ u, after.set part u = .ok after u) ∧
    ∀ hooks slots children, (after.withOthers hooks slots children).Ignores incoming context ∧
      ∀ part : Props, part.entries ⊆ incoming.entries → (after.withOthers hooks slots children).Ignores part none := by
  intro after
  have hphase : c.core.phase ≠ .destroyed := fun h => hp (congrArg Phase.state h)
  obtain ⟨hprops, hdirty⟩ := tick_settles hphase hi hc w
  have hafter : after.core.phase ≠ .destroyed := by
    rw [(tick_given hphase incoming context w).1, (c.core.taking_fields incoming context w).2.2.2]
    exact hphase
  have hothers : ∀ hooks slots children, (after.withOthers hooks slots children).Ignores incoming context ∧
      ∀ part : Props, part.entries ⊆ incoming.entries → (after.withOthers hooks slots children).Ignores part none := by
    intro hooks slots children
    have hsettled := fun part context => @tick_of_settled _ _ (after.withOthers hooks slots children) hafter part context
    exact ⟨fun u => hsettled incoming context hprops hdirty u,
      fun part hpart u => hsettled part none (Props.changes_of_subset hprops hpart) rfl u⟩
  have hself := hothers after.core.updateHooks after.slots after.children
  rw [withOthers_self] at hself
  exact ⟨hself, hothers⟩

/-- a zero and a context are brought to a component with a component in its slot, and then once more -/
theorem Component.tick_repeated_crowded :
    let zero := Props.ofList [("name", .float ⟨0⟩)]
    let context := Props.ofList [("k", .int 1)]
    let after := (crowded.tick zero (some context) World.blank).self
    after.props.get? "name" = some (.float ⟨0⟩) ∧ after.core.slotContext.get? "k" = some (.int 1) ∧
      after.tick zero (some context) World.forgetful = .ok after World.forgetful := by
  obtain ⟨⟨hagain, -⟩, -⟩ := tick_repeated (c := crowded) (by decide +kernel)
    (show (Props.ofList [("name", .float ⟨0⟩)]).Steady by decide +kernel)
    (show ∀ p ∈ some (Props.ofList [("k", .int 1)]), p.Steady from fun p hp => Option.some.inj hp ▸ by decide +kernel)
    World.blank
  exact ⟨by decide +kernel, by decide +kernel, hagain World.forgetful⟩

/-! ## One after another -/

/-- the blocks of a row are told one after another: each that is given anything, once and just that, and it accepts; the
others are left alone -/
inductive Told (deliver : Nat → Option Props) : List (Nested H) → World H → List (Nested H) → World H → Prop
  | nobody (w : World H) : Told deliver [] w [] w
  | left {n : Nested H} {row row' : List (Nested H)} {w w' : World H} (hd : deliver n.index = none)
      (rest : Told deliver row w row' w') : Told deliver (n :: row) w (n :: row') w'
  | told {index : Nat} {atRoot : Bool} {block : Block H} {changed : Props} {row row' : List (Nested H)} {w w' : World H}
      (hd : deliver index = some changed) (accepted : (block.update changed w).result = .ok ())
      (rest : Told deliver row (block.update changed w).world row' w') :
      Told deliver (.mk index atRoot block :: row) w (.mk index atRoot (block.update changed w).self :: row') w'

/-- if all accept what they are given, all are told -/
theorem updateRow_told {deliver : Nat → Option Props} {row : List (Nested H)} {w : World H}
    (h : (updateRow deliver row w).result = .ok ()) :
    Told deliver row w (updateRow deliver row w).self (updateRow deliver row w).world := by
  induction row generalizing w with
  | nil => exact .nobody w
  | cons n row ih =>
    obtain ⟨index, atRoot, block⟩ := n
    rw [updateRow_cons] at h ⊢
    cases hd : deliver index with
    | none =>
      rw [hd] at h
      exact .left hd (ih h)
    | some changed =>
      rw [hd] at h
      dsimp only at h ⊢
      cases hr : (block.update changed w).result with
      | error fault =>
        rw [hr] at h
        cases h
      | ok =>
        rw [hr] at h
        exact .told hd hr (ih h)

omit [ForeignBlocks H] in
/-- what is new in a slot context: the entries that are absent from the stored one or different in it -/
theorem Core.mem_dirty {c : Core H} {context : Option Props} {e : String × Value} :
    e ∈ (c.dirty context).entries ↔
      ∃ incoming ∈ context, e ∈ incoming.entries ∧ ∀ old ∈ c.slotContext.get? e.1, old.same e.2 = false := by
  cases context with
  | none => simp [Core.dirty, show (∅ : Props).entries = [] from rfl]
  | some incoming => cases hold : c.slotContext.get? e.1 <;> simp [Core.dirty, Props.changes, Props.filter, hold]

/-- nothing is given where an empty table would be -/
theorem forwardedTo_bind {A T : Type} {placeholders : List (Placeholder A T)} {index : Nat} {t : T}
    {bindings : List Binding} (hp : placeholders[index]? = some (.child t bindings)) (changed : Props) (name : String) :
    (forwardedTo placeholders changed index).bind (·.get? name) = (forwarded bindings changed).get? name := by
  rw [forwardedTo, hp]
  dsimp only
  split
  · next he =>
    rw [Props.get?, List.isEmpty_iff.1 he]
    rfl
  · rfl

/-- a child whose props are bound once each is given those that are bound to what has changed, with the new values -/
theorem forwardedTo_iff {A T : Type} {placeholders : List (Placeholder A T)} {index : Nat} {t : T}
    {bindings : List Binding} (hp : placeholders[index]? = some (.child t bindings))
    (hn : (bindings.map Binding.child).Nodup) (changed : Props) (name : String) (value : Value) :
    (forwardedTo placeholders changed index).bind (·.get? name) = some value ↔
      ∃ b ∈ bindings, b.child = name ∧ changed.get? b.outer = some value := by
  rw [forwardedTo_bind hp, get?_forwarded hn]
  constructor
  · intro h
    obtain ⟨outer, houter, hvalue⟩ := Option.bind_eq_some_iff.1 h
    obtain ⟨b, hb, rfl⟩ := Option.map_eq_some_iff.1 houter
    exact ⟨b, List.mem_of_find?_eq_some hb, eq_of_beq (List.find?_some (p := fun b : Binding => b.child == name) hb), hvalue⟩
  · rintro ⟨b, hb, rfl, hvalue⟩
    rw [← get?_forwarded hn, get?_forwarded_of_mem hn hb, hvalue]

/-- and it is given nothing if none of that has changed -/
theorem forwardedTo_eq_none_iff {A T : Type} {placeholders : List (Placeholder A T)} {index : Nat} {t : T}
    {bindings : List Binding} (hp : placeholders[index]? = some (.child t bindings))
    (hn : (bindings.map Binding.child).Nodup) (changed : Props) :
    forwardedTo placeholders changed index = none ↔ ∀ b ∈ bindings, changed.get? b.outer = none := by
  constructor
  · intro h b hb
    rw [← get?_forwarded_of_mem hn hb, ← forwardedTo_bind hp, h]
    rfl
  · intro h
    rw [forwardedTo, hp]
    refine if_pos (List.isEmpty_iff.2 (List.eq_nil_iff_forall_not_mem.2 fun e he => ?_))
    have hvalue : (forwarded bindings changed).get? e.1 = some e.2 :=
      Entries.get?_of_mem (forwarded bindings changed).nodup he
    rw [← forwardedTo_bind hp] at hvalue
    obtain ⟨b, hb, -, hnew⟩ := (forwardedTo_iff hp hn changed e.1 e.2).1 hvalue
    rw [h b hb] at hnew
    cases hnew

/-! ## Lives in which no mount fails -/

/-- a mount succeeds, and a tick is refused by no slot content -/
def Component.Smooth (c : Component H) (w : World H) : Call NodeId → Prop
  | .mount target anchor => (c.mount target anchor w).result = .ok ()
  | .tick incoming context => c.state ≠ .destroyed →
      (updateRow (c.core.dirty context).offer c.slots (c.core.taking incoming context w).2).result = .ok ()
  | _ => True

/-- the same of calls that are made one after another, each in its world -/
def Component.SmoothOver (c : Component H) : List (Call NodeId × World H) → Prop
  | [] => True
  | e :: calls => c.Smooth e.2 e.1 ∧ (c.call e.2 e.1).self.SmoothOver calls

instance Component.decidableSmooth (c : Component H) (w : World H) : (call : Call NodeId) → Decidable (c.Smooth w call)
  | .mount target anchor => inferInstanceAs (Decidable ((c.mount target anchor w).result = .ok ()))
  | .tick incoming context => inferInstanceAs (Decidable (c.state ≠ .destroyed →
      (updateRow (c.core.dirty context).offer c.slots (c.core.taking incoming context w).2).result = .ok ()))
  | .create | .update _ | .set _ | .transition _ _ | .destroy _ => isTrue trivial

instance Component.decidableSmoothOver : (calls : List (Call NodeId × World H)) → (c : Component H) →
    Decidable (c.SmoothOver calls)
  | [], _ => isTrue trivial
  | e :: calls, c =>
    have := decidableSmoothOver calls (c.call e.2 e.1).self
    inferInstanceAs (Decidable (c.Smooth e.2 e.1 ∧ (c.call e.2 e.1).self.SmoothOver calls))

theorem createAll_alive {row : List (Nested H)}
    (h : ∀ n ∈ row, ∀ c, n.block = .component c → c.Alive → ∀ w, (c.create w).self.Alive)
    (halive : eachOf (·.phase ≠ .destroyed) (fun _ => True) row) (w : World H) :
    eachOf (·.phase ≠ .destroyed) (fun _ => True) (createAll row w).self := by
  induction row generalizing w with
  | nil => trivial
  | cons n row ih =>
    obtain ⟨index, atRoot, block⟩ := n
    rw [List.forall_mem_cons] at h
    have hblock : (block.create w).self.Each (·.phase ≠ .destroyed) fun _ => True := by
      cases block with
      | text t => trivial
      | foreign f => trivial
      | component c => exact h.1 c rfl halive.1 w
    rw [createAll]
    split
    · exact ⟨hblock, halive.2⟩
    · exact ⟨hblock, ih h.2 halive.2 _⟩

omit [ForeignBlocks H] in
theorem Component.Alive.children {c : Component H} (h : c.Alive) :
    eachOf (·.phase ≠ .destroyed) (fun _ => True) c.children := by
  obtain ⟨core, slots, children⟩ := c
  exact h.2.2

/-- creating destroys nothing, whatever it results in -/
theorem Component.Alive.create {c : Component H} (h : c.Alive) (w : World H) : (c.create w).self.Alive := by
  induction c using Component.induct generalizing w with
  | mk core slots children ihs ihc =>
    have hslots := createAll_alive (fun n hn c hb ha => ihs n hn c hb ha) h.2.1
    have hchildren := createAll_alive (fun n hn c hb ha => ihc n hn c hb ha) h.2.2
    have hphase : core.phase ≠ .destroyed := h.1
    rw [Component.create]
    split
    · exact h
    · exact h
    all_goals
      dsimp only
      split
      · exact ⟨hphase, h.2.1, hchildren _⟩
      · split
        · exact ⟨hphase, hslots _, hchildren _⟩
        · exact ⟨Phase.noConfusion, hslots _, hchildren _⟩

/-- after a mount that succeeded, a component is mounted with all that is nested in it -/
theorem Component.Orderly.mount_ok {c : Component H} (h : c.Orderly) {target : NodeId} {anchor : Option NodeId}
    {w : World H} (hok : (c.mount target anchor w).result = .ok ()) : (c.mount target anchor w).self.Active := by
  by_cases hp : c.core.phase.Active
  · have ha : c.Active := by
      cases h with
      | active ha => exact ha
      | resting own => exact absurd hp own.phase
    cases hphase : c.core.phase with
    | unmounted => rw [hphase] at hp; exact hp.elim
    | destroyed => rw [hphase] at hp; exact hp.elim
    | mounted =>
      rw [Component.mount, hphase] at hok
      cases hok
    | created fragment =>
      rw [Component.mount, hphase] at hok ⊢
      exact ((ha.mounting target anchor w).ok hok).1
  · cases hr : (c.create w).result with
    | error fault =>
      rw [Component.mount_of_error hp target anchor hr, hr] at hok
      cases hok
    | ok =>
      rw [Component.mount_of_ok hp target anchor hr] at hok ⊢
      exact ((((h.creating w).active hr).1.mounting target anchor (c.create w).world).ok hok).1

def Component.unslotted (c : Component H) : Component H := .mk c.core [] c.children

omit [ForeignBlocks H] in
theorem Component.Like.unslotted {R : Likeness H} {c c' : Component H} (h : c.Like R c') :
    c.unslotted.Like R c'.unslotted :=
  have h := Component.like_iff.1 h
  ⟨h.1, trivial, h.2.2⟩

/-- what a component is like as long as no mount fails: its children are built of templates alone, and none of them is
destroyed unless the component is -/
structure Component.Ready (t : Template (Action H)) (c : Component H) : Prop where
  template : c.core.template = t
  orderly : c.Orderly
  built : c.unslotted.Built
  alive : c.state ≠ .destroyed → eachOf (·.phase ≠ .destroyed) (fun _ => True) c.children

section

variable {t : Template (Action H)} {c : Component H}

omit [ForeignBlocks H] in
/-- children sit at the child placeholders -/
theorem Component.Ready.placed (h : c.Ready t) {n : Nested H} (hn : n ∈ c.children) :
    ∃ u bindings, t.placeholders[n.index]? = some (.child u bindings) := by
  have hindex : n.index ∈ indicesOf t.placeholders .child := by
    rw [← h.template, ← h.built.2.1]
    exact List.mem_map_of_mem hn
  obtain ⟨p, hp, hcategory⟩ := mem_indicesOf.1 hindex
  cases p with
  | child u bindings => exact ⟨u, bindings, hp⟩
  | _ => cases hcategory

omit [ForeignBlocks H] in
theorem Component.Ready.of_values {c' : Component H} (h : c.Ready t) (hlike : c.Like values c') (ho : c'.Orderly)
    (ha : c'.state ≠ .destroyed → eachOf (·.phase ≠ .destroyed) (fun _ => True) c'.children) : c'.Ready t :=
  ⟨(Component.like_iff.1 hlike).1.template.trans h.template, ho, hlike.unslotted.built_of_values h.built, ha⟩

omit [ForeignBlocks H] in
theorem Component.Ready.of_footing {c' : Component H} (h : c.Ready t) (hlike : c.Like footing c') : c'.Ready t := by
  have hcore := (Component.like_iff.1 hlike).1
  refine ⟨hcore.template.trans h.template, hlike.orderly h.orderly, hlike.unslotted.built_of_footing h.built,
    fun hs => ?_⟩
  have hstate : c.state ≠ .destroyed := by
    rw [Component.state, ← hcore.phase]
    exact hs
  by_cases hp : c.core.phase = .destroyed
  · exact absurd (congrArg Phase.state hp) hstate
  · have hboth : c.unslotted.Alive := ⟨hp, trivial, h.alive hstate⟩
    exact (hlike.unslotted.each (fun a b hab (ha : a.phase ≠ .destroyed) => by rwa [hab.phase]) (fun _ _ _ => id)
      hboth).2.2

theorem Component.create_children {core : Core H} {slots children : List (Nested H)} (w : World H)
    (h : eachOf (·.phase ≠ .destroyed) (fun _ => True) children) :
    eachOf (·.phase ≠ .destroyed) (fun _ => True) ((Component.mk core slots children).create w).self.children := by
  have hchildren := createAll_alive (fun n _ c _ (ha : c.Alive) w => ha.create w) h
  rw [create]
  split
  · exact h
  · exact h
  all_goals
    dsimp only
    split
    · exact hchildren _
    · split
      · exact hchildren _
      · exact hchildren _

/-- a call keeps a component ready, if it is not a mount that fails -/
theorem Component.Ready.call (h : c.Ready t) {call : Call NodeId} {w : World H} (hs : c.Smooth w call) :
    (c.call w call).self.Ready t := by
  cases call with
  | create =>
    have hcreating := h.orderly.creating w
    refine h.of_values (c.create_values w) hcreating.orderly fun hs => ?_
    by_cases hok : (c.create w).result = .ok ()
    · exact (hcreating.active hok).1.alive.children
    · have halive := h.alive (by rw [← hcreating.state hok]; exact hs)
      obtain ⟨core, slots, children⟩ := c
      exact create_children w halive
  | mount target anchor =>
    exact h.of_values (c.mount_values target anchor w) (h.orderly.mount target anchor w).1
      fun _ => (h.orderly.mount_ok hs).alive.children
  | destroy detaching =>
    refine h.of_values (c.destroy_values detaching w) (h.orderly.destroy detaching w) fun hs => ?_
    have halive := h.alive
    obtain ⟨core, slots, children⟩ := c
    -- a component that is not destroyed now was unmounted, and nothing has happened
    cases hp : core.phase with
    | unmounted =>
      have hsame : (Component.mk core slots children).destroy detaching w = .ok (.mk core slots children) w := by
        rw [destroy, hp]
      rw [call, callIn, hsame]
      exact halive fun hno => by
        rw [state, Component.core, hp] at hno
        cases hno
    | destroyed =>
      rw [call, callIn, destroy, hp, state, Outcome.fail, Component.core, hp] at hs
      exact absurd rfl hs
    | created fragment =>
      rw [call, callIn, destroy, hp] at hs
      exact absurd rfl hs
    | mounted =>
      rw [call, callIn, destroy, hp] at hs
      exact absurd rfl hs
  | update changed => exact h.of_footing (c.update_footing changed w)
  | set incoming => exact h.of_footing (c.tick_footing incoming none w)
  | tick incoming context => exact h.of_footing (c.tick_footing incoming context w)
  | transition t isLocal => exact h.of_footing (c.transition_footing t isLocal w)

theorem Component.Ready.over {calls : List (Call NodeId × World H)} (h : c.Ready t) (hs : c.SmoothOver calls) :
    (c.over calls).Ready t := by
  induction calls generalizing c with
  | nil => exact h
  | cons e calls ih => exact ih (h.call hs.1) hs.2

omit [ForeignBlocks H] in
/-- an instance is ready, whatever its slots were given -/
theorem Component.furnished_ready {options : Options H} (hslots : ∀ e ∈ options.slots, e.2.Orderly) (w : World H) :
    (furnished t options w).Ready t := by
  have horderly := (furnished_orderly (t := t) hslots w).1
  have hbuilt := (ofTemplate_instance t options.props w).built
  have hin := (ofTemplate_instance t options.props w).unmounted
  have htemplate := (ofTemplate_instance t options.props w).template
  unfold furnished at horderly ⊢
  generalize (ofTemplate t options.props w).1 = c at horderly hbuilt hin htemplate ⊢
  obtain ⟨core, slots, children⟩ := c
  exact ⟨htemplate, horderly, ⟨List.nil_sublist _, hbuilt.2.1, trivial, hbuilt.2.2.2⟩,
    fun _ => (hin.alive State.noConfusion).children⟩

/-! ## One tick -/

/-- what a tick does when nobody refuses: it stores what is new, and after the component itself it tells every slot content
what is new in the context, and then every child what is forwarded to it -/
structure Component.Delivers (c : Component H) (incoming : Props) (context : Option Props) (w : World H)
    (o : Outcome H (Component H)) : Prop where
  ok : o.result = .ok ()
  props : o.self.props = c.props.extend (c.props.changes incoming).entries
  slotContext : o.self.core.slotContext = c.core.slotContext.extend (c.core.dirty context).entries
  told : ∃ u, Told (c.core.dirty context).offer c.slots (c.core.applyEntries w (c.props.changes incoming)).2 o.self.slots u ∧
    Told (forwardedTo c.core.template.placeholders (c.props.changes incoming)) c.children u o.self.children o.world

theorem Component.Ready.tick (h : c.Ready t) {incoming : Props} {context : Option Props} {w : World H}
    (hd : c.state ≠ .destroyed) (hs : c.Smooth w (.tick incoming context)) :
    c.Delivers incoming context w (c.tick incoming context w) := by
  have halive := h.alive hd
  have hbuilt := h.built.2.2.2
  obtain ⟨core, slots, children⟩ := c
  have hp : core.phase ≠ .destroyed := fun hp => hd (congrArg Phase.state hp)
  have hslots : (updateRow (core.dirty context).offer slots (core.taking incoming context w).2).result = .ok () := hs hd
  have hfields := core.taking_fields incoming context w
  have hkids := updateRow_alive ForeignBlocks.willing_none hbuilt.guests halive
    (forwardedTo core.template.placeholders (core.props.changes incoming))
    (updateRow (core.dirty context).offer slots (core.taking incoming context w).2).world
  rw [tick_eq hp]
  dsimp only
  rw [hslots]
  exact ⟨hkids, hfields.1, hfields.2.1, _, updateRow_told hslots, updateRow_told hkids⟩

end

end

end LiveMarkup
