/-
Mounts that fail, and what they leave behind.

A mount that fails after the component was created destroys what was set up so far and calls the component unmounted
again. Its children went through that with it, but stay destroyed: an update that forwards something to one of them is
refused. Creating and mounting makes no difference between the two, so apart from that the component is as good as new.

- `Idle.mount`: an idle component is mounted as a new one with the same values;
- `Lineal.update_ok_iff`: an update succeeds if all that it is forwarded to take it; `Idle.over`: as long as they do, an
  idle component takes updates as a new one does;
- `mount_fails`: all that of a component whose mount failed, after any calls.
-/
import LiveMarkup.Proofs.Component.Orderly
import LiveMarkup.Proofs.Component.Start
import LiveMarkup.Proofs.Component.Tick

namespace LiveMarkup

variable {H : Host} [ForeignBlocks H]

/-! ## As good as new -/

mutual
/-- a new component with the same template and the same values, at every depth -/
def Component.renewed : Component H → Component H
  | .mk core slots children => .mk core.renewed (renewedAll slots) (renewedAll children)
def renewedAll : List (Nested H) → List (Nested H)
  | [] => []
  | .mk index atRoot block :: row => .mk index atRoot block.renewed :: renewedAll row
/-- a new block with the same values; a block of the host stays as it is -/
def Block.renewed : Block H → Block H
  | .text t => .text { t with node := none }
  | .foreign f => .foreign f
  | .component c => .component c.renewed
end

/-- two calls have the same outcome; what they leave behind is the same if they succeed -/
structure Outcome.Same {α : Type} (o o' : Outcome H α) : Prop where
  result : o'.result = o.result
  world : o'.world = o.world
  self : o.result = .ok () → o'.self = o.self

omit [ForeignBlocks H] in
theorem Outcome.Same.refl {α : Type} (o : Outcome H α) : o.Same o := ⟨rfl, rfl, fun _ => rfl⟩

omit [ForeignBlocks H] in
theorem Core.Idle.prepare {c : Core H} (h : c.Idle) (w : World H) : (c.renewed.prepare w).2 = (c.prepare w).2 ∧
    ∀ phase, { (c.renewed.prepare w).1 with phase } = { (c.prepare w).1 with phase } := by
  refine ⟨rfl, fun phase => ?_⟩
  obtain ⟨template, phase', props, slotContext, roots, textCells, attributeCells, cleanups, updateHooks, channel⟩ := c
  obtain rfl : roots = [] := h.roots
  obtain rfl : cleanups = [] := h.cleanups
  obtain rfl : updateHooks = [] := h.updateHooks
  rfl

theorem createAll_renewed {row : List (Nested H)}
    (h : ∀ n ∈ row, ∀ w, (n.block.create w).Same (n.block.renewed.create w)) (w : World H) :
    (createAll row w).Same (createAll (renewedAll row) w) := by
  induction row generalizing w with
  | nil => exact .refl _
  | cons n row ih =>
    obtain ⟨index, atRoot, block⟩ := n
    rw [List.forall_mem_cons] at h
    have hblock : (block.create w).Same (block.renewed.create w) := h.1 w
    rw [renewedAll, createAll, createAll]
    rw [hblock.result, hblock.world]
    cases hr : (block.create w).result with
    | error fault => exact ⟨rfl, rfl, fun hok => absurd hok error_ne_ok⟩
    | ok =>
      have hrow := ih h.2 (block.create w).world
      refine ⟨hrow.result, hrow.world, fun hok => ?_⟩
      show Nested.mk index atRoot _ :: _ = Nested.mk index atRoot _ :: _
      rw [hblock.self hr, hrow.self hok]

/-- an idle component is created as a new one is -/
theorem Component.Idle.create {c : Component H} (h : c.Idle) (w : World H) : (c.create w).Same (c.renewed.create w) := by
  induction c using Component.induct generalizing w with
  | mk core slots children ihs ihc =>
    have hrow : ∀ row : List (Nested H), (∀ n ∈ row, ∀ c, n.block = .component c → c.Idle → ∀ w,
        (c.create w).Same (c.renewed.create w)) → eachOf Core.Idle (·.node = none) row →
          ∀ n ∈ row, ∀ w, (n.block.create w).Same (n.block.renewed.create w) := by
      intro row ih h n hn w
      have hidle := eachOf_iff.1 h n hn
      cases hb : n.block with
      | text t =>
        rw [hb] at hidle
        obtain ⟨prop, data, node⟩ := t
        obtain rfl : node = none := hidle
        exact .refl _
      | foreign f => exact .refl _
      | component c =>
        rw [hb] at hidle
        have hc := ih n hn c hb hidle w
        exact ⟨hc.result, hc.world, fun hok => congrArg Block.component (hc.self hok)⟩
    have hown := h.1
    have hkids := createAll_renewed (hrow children ihc h.2.2) (core.prepare w).2.2
    obtain ⟨hworld, hcore⟩ := hown.prepare w
    have hfragment : (core.renewed.prepare w).2.1 = (core.prepare w).2.1 := by rw [hworld]
    rw [renewed, create_eq hown.phase, create_eq id, hworld]
    dsimp only
    rw [hkids.result, hkids.world]
    cases hr : (createAll children (core.prepare w).2.2).result with
    | error fault => exact ⟨rfl, rfl, fun hok => absurd hok error_ne_ok⟩
    | ok =>
      have hcontents := createAll_renewed (hrow slots ihs h.2.1) (createAll children (core.prepare w).2.2).world
      dsimp only
      rw [hcontents.result, hcontents.world]
      cases hr' : (createAll slots (createAll children (core.prepare w).2.2).world).result with
      | error fault => exact ⟨rfl, rfl, fun hok => absurd hok error_ne_ok⟩
      | ok =>
        refine ⟨rfl, rfl, fun _ => ?_⟩
        show Component.mk _ _ _ = Component.mk _ _ _
        rw [hcore, hkids.self hr, hcontents.self hr']

omit [ForeignBlocks H] in
theorem Component.phase_renewed (c : Component H) : c.renewed.core.phase = .unmounted := by
  obtain ⟨core, slots, children⟩ := c
  rfl

/-- an idle component is mounted as a new one is -/
theorem Component.Idle.mount {c : Component H} (h : c.Idle) (target : NodeId) (anchor : Option NodeId) (w : World H) :
    (c.mount target anchor w).Same (c.renewed.mount target anchor w) := by
  have hcreate := Component.Idle.create h w
  have hp : ¬ c.core.phase.Active := by
    obtain ⟨core, slots, children⟩ := c
    exact h.1.phase
  have hp' : ¬ c.renewed.core.phase.Active := by
    rw [c.phase_renewed]
    exact id
  cases hr : (c.create w).result with
  | error fault =>
    rw [mount_of_error hp target anchor hr, mount_of_error hp' target anchor (hcreate.result.trans hr)]
    exact hcreate
  | ok =>
    rw [mount_of_ok hp target anchor hr, mount_of_ok hp' target anchor (hcreate.result.trans hr), hcreate.self hr,
      hcreate.world]
    exact .refl _

/-! ## Updates -/

mutual
/-- no component that this comes to, directly or forwarded, is destroyed -/
def Component.Takes (changed : Props) : Component H → Prop
  | .mk core _ children => core.phase ≠ .destroyed ∧ takesAll (forwardedTo core.template.placeholders changed) children
def takesAll (deliver : Nat → Option Props) : List (Nested H) → Prop
  | [] => True
  | .mk index _ block :: row => (∀ changed, deliver index = some changed → block.Takes changed) ∧ takesAll deliver row
def Block.Takes (changed : Props) : Block H → Prop
  | .text _ | .foreign _ => True
  | .component c => c.Takes changed
end

/-- all children are components, and so are theirs -/
inductive Component.Lineal : Component H → Prop
  | mk {core : Core H} {slots children : List (Nested H)} (components : ∀ n ∈ children, ∃ c, n.block = .component c)
      (lineal : ∀ n ∈ children, ∀ c, n.block = .component c → Lineal c) : Lineal (.mk core slots children)

omit [ForeignBlocks H] in
theorem Component.Like.lineal {R : Likeness H} {c c' : Component H} (h : c.Like R c') (hc : c.Lineal) : c'.Lineal := by
  induction hc generalizing c' with
  | @mk core slots children hcomponents hlineal ih =>
    obtain ⟨core', slots', children'⟩ := c'
    have hback : ∀ n' ∈ children', ∃ n ∈ children, ∃ c c', n.block = .component c ∧ n'.block = .component c' ∧
        c.Like R c' := by
      intro n' hn'
      obtain ⟨n, hn, -, hblock⟩ := exists_of_forall₂ (likeAll_iff.1 h.2.2) n' hn'
      obtain ⟨c, hc⟩ := hcomponents n hn
      rw [hc] at hblock
      obtain ⟨c', hc', hlike⟩ := Block.like_component hblock
      exact ⟨n, hn, c, c', hc, hc', hlike⟩
    refine .mk (fun n' hn' => ?_) fun n' hn' x hx => ?_
    · obtain ⟨n, hn, c, c', hc, hc', hlike⟩ := hback n' hn'
      exact ⟨c', hc'⟩
    · obtain ⟨n, hn, c, c', hc, hc', hlike⟩ := hback n' hn'
      obtain rfl := Block.component.inj (hx.symm.trans hc')
      exact ih n hn c hc hlike

theorem Component.Lineal.call {c : Component H} (h : c.Lineal) (call : Call NodeId) (w : World H) :
    (c.call w call).self.Lineal := by
  cases call with
  | create => exact (c.create_values w).lineal h
  | mount target anchor => exact (c.mount_values target anchor w).lineal h
  | destroy detaching => exact (c.destroy_values detaching w).lineal h
  | update changed => exact (c.update_footing changed w).lineal h
  | set incoming => exact (c.tick_footing incoming none w).lineal h
  | tick incoming context => exact (c.tick_footing incoming context w).lineal h
  | transition t isLocal => exact (c.transition_footing t isLocal w).lineal h

theorem Component.Lineal.over {c : Component H} (h : c.Lineal) (calls : List (Call NodeId × World H)) :
    (c.over calls).Lineal := by
  induction calls generalizing c with
  | nil => exact h
  | cons e calls ih => exact ih (h.call e.1 e.2)

theorem updateRow_ok_iff {row : List (Nested H)} (deliver : Nat → Option Props)
    (h : ∀ n ∈ row, ∀ changed w, (n.block.update changed w).result = .ok () ↔ n.block.Takes changed) (w : World H) :
    (updateRow deliver row w).result = .ok () ↔ takesAll deliver row := by
  induction row generalizing w with
  | nil => exact ⟨fun _ => trivial, fun _ => rfl⟩
  | cons n row ih =>
    obtain ⟨index, atRoot, block⟩ := n
    rw [List.forall_mem_cons] at h
    rw [updateRow_cons, takesAll]
    cases hd : deliver index with
    | none => exact (ih h.2 w).trans ⟨fun hrow => ⟨fun _ h => absurd h.symm (Option.some_ne_none _), hrow⟩, And.right⟩
    | some changed =>
      have hblock : (block.update changed w).result = .ok () ↔ block.Takes changed := h.1 changed w
      have htakes : (∀ given, some changed = some given → block.Takes given) ↔ block.Takes changed :=
        ⟨fun h => h changed rfl, fun h given he => Option.some.inj he ▸ h⟩
      rw [htakes, ← hblock]
      dsimp only
      cases hr : (block.update changed w).result with
      | error fault => exact ⟨fun h => absurd h error_ne_ok, fun h => absurd h.1 error_ne_ok⟩
      | ok => exact (ih h.2 _).trans ⟨fun hrow => ⟨rfl, hrow⟩, And.right⟩

/-- an update succeeds if every component that it comes to takes it -/
theorem Component.Lineal.update_ok_iff {c : Component H} (h : c.Lineal) (changed : Props) (w : World H) :
    (c.update changed w).result = .ok () ↔ c.Takes changed := by
  induction h generalizing changed w with
  | @mk core slots children hcomponents _ ih =>
    have hblock : ∀ n ∈ children, ∀ changed w, (n.block.update changed w).result = .ok () ↔ n.block.Takes changed := by
      intro n hn changed w
      obtain ⟨c, hc⟩ := hcomponents n hn
      rw [hc]
      exact ih n hn c hc changed w
    rw [update_mk, Takes]
    split
    · next hp => exact ⟨fun h => absurd h error_ne_ok, fun h => absurd hp h.1⟩
    · next hp =>
      exact (updateRow_ok_iff _ hblock _).trans ⟨fun hrow => ⟨hp, hrow⟩, And.right⟩

/-- setting props is updating those that change -/
theorem Component.set_eq (incoming : Props) (c : Component H) (w : World H) :
    c.set incoming w = c.update (c.props.changes incoming) w := by
  obtain ⟨core, slots, children⟩ := c
  rw [set, tick_mk, update_mk]
  split
  · rfl
  · rfl

omit [ForeignBlocks H] in
theorem Core.renewed_idle (c : Core H) : c.renewed.Idle := ⟨id, rfl, rfl, rfl, rfl, rfl⟩

omit [ForeignBlocks H] in
/-- new values of a component that has nothing in a document -/
theorem Core.Idle.applyEntries {c : Core H} (h : c.Idle) (w : World H) (changed : Props) :
    c.applyEntries w changed = ({ c with props := c.props.extend changed.entries }, w) := by
  unfold Core.applyEntries Props.extend
  generalize changed.entries = es
  induction es generalizing c with
  | nil => rfl
  | cons e es ih =>
    have hentry : c.applyEntry w e.1 e.2 = ({ c with props := c.props.insert e.1 e.2 }, w) := by
      unfold applyEntry
      rw [h.textCells, h.attributeCells, h.updateHooks]
      rfl
    rw [List.foldl_cons]
    dsimp only
    rw [hentry]
    exact ih ⟨h.phase, h.roots, h.textCells, h.attributeCells, h.cleanups, h.updateHooks⟩

/-- an idle row is updated as a new one is -/
theorem updateRow_renewed {row : List (Nested H)} (deliver : Nat → Option Props)
    (h : ∀ n ∈ row, ∀ changed w, n.block.Takes changed → (n.block.update changed w).result = .ok () ∧
      (n.block.update changed w).world = w ∧
      n.block.renewed.update changed w = .ok (n.block.update changed w).self.renewed w)
    (ht : takesAll deliver row) (w : World H) :
    (updateRow deliver row w).result = .ok () ∧ (updateRow deliver row w).world = w ∧
      updateRow deliver (renewedAll row) w = .ok (renewedAll (updateRow deliver row w).self) w := by
  induction row with
  | nil => exact ⟨rfl, rfl, rfl⟩
  | cons n row ih =>
    obtain ⟨index, atRoot, block⟩ := n
    rw [List.forall_mem_cons] at h
    obtain ⟨htake, htakes⟩ := ht
    obtain ⟨hok, hworld, hrenewed⟩ := ih h.2 htakes
    rw [renewedAll, updateRow_cons, updateRow_cons]
    cases hd : deliver index with
    | none =>
      refine ⟨hok, hworld, ?_⟩
      dsimp only
      rw [hrenewed]
      rfl
    | some changed =>
      obtain ⟨hbok, hbworld, hbrenewed⟩ := h.1 changed w (htake changed hd)
      dsimp only [Nested.block] at hbok hbworld hbrenewed ⊢
      rw [hbok, hbworld, hbrenewed]
      refine ⟨hok, hworld, ?_⟩
      dsimp only [Outcome.ok]
      rw [hrenewed]
      rfl

/-- an idle component is updated as a new one is, if it takes the update -/
theorem Component.Idle.update {c : Component H} (h : c.Idle) (hl : c.Lineal) {changed : Props}
    (ht : c.Takes changed) (w : World H) : (c.update changed w).result = .ok () ∧ (c.update changed w).world = w ∧
      c.renewed.update changed w = .ok (c.update changed w).self.renewed w := by
  induction hl generalizing changed w with
  | @mk core slots children hcomponents _ ih =>
    have hblock : ∀ n ∈ children, ∀ changed w, n.block.Takes changed → (n.block.update changed w).result = .ok () ∧
        (n.block.update changed w).world = w ∧
        n.block.renewed.update changed w = .ok (n.block.update changed w).self.renewed w := by
      intro n hn changed w ht
      obtain ⟨c, hc⟩ := hcomponents n hn
      have hidle := eachOf_iff.1 h.2.2 n hn
      rw [hc] at hidle ht ⊢
      obtain ⟨hok, hworld, hrenewed⟩ := ih n hn c hc hidle ht w
      exact ⟨hok, hworld, congrArg (Outcome.map Block.component) hrenewed⟩
    have hown : core.Idle := h.1
    obtain ⟨hok, hworld, hrenewed⟩ :=
      updateRow_renewed (forwardedTo core.template.placeholders changed) hblock ht.2 w
    rw [renewed, Component.update_mk, Component.update_mk, if_neg ht.1,
      if_neg (show core.renewed.phase ≠ .destroyed from Phase.noConfusion), hown.applyEntries, core.renewed_idle.applyEntries]
    refine ⟨hok, hworld, ?_⟩
    dsimp only
    rw [show core.renewed.template = core.template from rfl, hrenewed]
    rfl

/-- a call that gives a component new values -/
def Call.Offers {N : Type} : Call N → Prop
  | .update _ | .set _ => True
  | _ => False

/-- every call succeeds -/
def Component.Accepts (c : Component H) : List (Call NodeId × World H) → Prop
  | [] => True
  | e :: calls => (c.call e.2 e.1).result = .ok () ∧ (c.call e.2 e.1).self.Accepts calls

theorem Component.over_cons (c : Component H) (e : Call NodeId × World H) (calls : List (Call NodeId × World H)) :
    c.over (e :: calls) = (c.call e.2 e.1).self.over calls := rfl

/-- the update that a call comes to -/
theorem Component.call_of_offers {call : Call NodeId} (h : call.Offers) (c : Component H) :
    ∃ changed, (∀ w, c.call w call = c.update changed w) ∧ ∀ w, c.renewed.call w call = c.renewed.update changed w := by
  have hprops : c.renewed.props = c.props := by
    obtain ⟨core, slots, children⟩ := c
    rfl
  cases call with
  | update changed => exact ⟨changed, fun _ => rfl, fun _ => rfl⟩
  | set incoming =>
    refine ⟨c.props.changes incoming, c.set_eq incoming, fun w => ?_⟩
    rw [← hprops]
    exact c.renewed.set_eq incoming w
  | _ => exact h.elim

/-- as long as an idle component takes what it is given, it takes it as a new one does -/
theorem Component.Idle.over {c : Component H} (h : c.Idle) (hl : c.Lineal) {calls : List (Call NodeId × World H)}
    (ho : ∀ e ∈ calls, e.1.Offers) (ha : c.Accepts calls) :
    (c.over calls).Idle ∧ c.renewed.Accepts calls ∧ c.renewed.over calls = (c.over calls).renewed := by
  induction calls generalizing c with
  | nil => exact ⟨h, trivial, rfl⟩
  | cons e calls ih =>
    rw [List.forall_mem_cons] at ho
    obtain ⟨changed, hcall, hrenewed⟩ := c.call_of_offers ho.1
    have ht : c.Takes changed := (hl.update_ok_iff changed e.2).1 (by rw [← hcall]; exact ha.1)
    obtain ⟨-, -, hnew⟩ := h.update hl ht e.2
    have hlike := c.update_footing changed e.2
    have hidle : (c.update changed e.2).self.Idle :=
      hlike.each (fun _ _ => Core.Idle.of_footing) (fun t t' he (ht : t.node = none) => Eq.trans he ht) h
    have haccepts := ha.2
    rw [hcall] at haccepts
    obtain ⟨hidle', haccepts', hover⟩ := ih hidle (hlike.lineal hl) ho.2 haccepts
    rw [over_cons, over_cons, hcall, hrenewed, hnew]
    refine ⟨hidle', ⟨?_, ?_⟩, hover⟩
    · rw [hrenewed, hnew]
      rfl
    · rw [hrenewed, hnew]
      exact haccepts'

/-! ## From the start -/

namespace Component.InstanceOf

variable {t : Template (Action H)} {props : Props} {c : Component H}

omit [ForeignBlocks H] in
/-- nothing of an instance is in a document -/
theorem idle (h : c.InstanceOf t props) : c.Idle := by
  induction h with
  | mk channel indices flags placed kids ih =>
    refine ⟨⟨id, rfl, rfl, rfl, rfl, rfl⟩, trivial, eachOf_iff.2 fun n hn => ?_⟩
    obtain ⟨u, bindings, child, hp, hblock⟩ := placed n hn
    rw [hblock]
    exact ih n hn u bindings child hp hblock

omit [ForeignBlocks H] in
/-- all children of an instance are components -/
theorem lineal (h : c.InstanceOf t props) : c.Lineal := by
  induction h with
  | mk channel indices flags placed kids ih =>
    refine .mk (fun n hn => ?_) fun n hn c hc => ?_
    · obtain ⟨u, bindings, child, -, hblock⟩ := placed n hn
      exact ⟨child, hblock⟩
    · obtain ⟨u, bindings, child, hp, hblock⟩ := placed n hn
      obtain rfl := Block.component.inj (hc.symm.trans hblock)
      exact ih n hn u bindings c hp hblock

end Component.InstanceOf

omit [ForeignBlocks H] in
theorem Component.furnished_orderly {t : Template (Action H)} {options : Options H}
    (hslots : ∀ e ∈ options.slots, e.2.Orderly) (w : World H) :
    (furnished t options w).Orderly ∧ (furnished t options w).Lineal := by
  have hidle := (ofTemplate_instance t options.props w).idle
  have hlineal := (ofTemplate_instance t options.props w).lineal
  unfold furnished
  generalize (ofTemplate t options.props w).1 = c at hidle hlineal
  obtain ⟨core, slots, children⟩ := c
  have hown : core.Idle := hidle.1
  refine ⟨.resting ⟨hown.phase, hown.roots, hown.cleanups, hown.updateHooks⟩ (fun n hn c hc => ?_) fun n hn => ?_, ?_⟩
  · obtain ⟨e, he, hb⟩ := mem_fillSlots hn
    exact hslots e he c (hb ▸ hc)
  · exact Block.Idle.orderly (eachOf_iff.1 hidle.2.2 n hn)
  · cases hlineal with
    | mk hcomponents hlineal => exact .mk hcomponents hlineal

/-! ## Failed mounts -/

/-- what an update gives to the children of a component that is not destroyed -/
theorem Component.update_given {c : Component H} (hp : c.state ≠ .destroyed) (changed : Props) (w : World H) :
    (c.update changed w).self.props = c.props.extend changed.entries ∧
      List.Forall₂ (Given (forwardedTo c.core.template.placeholders changed) ((c.update changed w).result = .ok ()))
        c.children (c.update changed w).self.children := by
  obtain ⟨core, slots, children⟩ := c
  have hp : core.phase ≠ .destroyed := fun h => hp (congrArg Phase.state h)
  rw [update_mk, if_neg hp]
  exact ⟨(core.applyEntries_fields w changed).1, updateRow_given _ _ _⟩

/-- **Failed mounts.** Whatever calls were made on a component, in whatever worlds: if mounting it fails, no value in it
changes, at any depth. If it failed after the component was created, the component is unmounted, and all its children but
at most one are destroyed; creating, updating and mounting it have the same outcomes as for a new component with the same
values, as long as no update is refused. An update stores its values in any case; it is refused if, and only if, it
forwards anything to a child that is destroyed, at any depth. -/
theorem Component.mount_fails {t : Template (Action H)} {options : Options H}
    (hslots : ∀ e ∈ options.slots, e.2.Orderly) (w₀ : World H) (calls : List (Call NodeId × World H))
    {target : NodeId} {anchor : Option NodeId} {w : World H}
    (hs : ((furnished t options w₀).over calls).state ≠ .mounted)
    (hf : (((furnished t options w₀).over calls).mount target anchor w).result ≠ .ok ()) :
    let c := (furnished t options w₀).over calls
    let failed := (c.mount target anchor w).self
    c.Like values failed ∧
    ((c.create w).result ≠ .ok () ∧ failed.state = c.state ∨
      failed.state = .unmounted ∧ failed.children.countP (·.block.unmounted) ≤ 1 ∧
        ∀ later, (∀ e ∈ later, e.1.Offers) → failed.Accepts later →
          failed.renewed.Accepts later ∧ (failed.renewed.over later) = (failed.over later).renewed ∧
          (∀ u, ((failed.over later).create u).Same ((failed.renewed.over later).create u)) ∧
          ∀ target anchor u, ((failed.over later).mount target anchor u).Same
            ((failed.renewed.over later).mount target anchor u)) ∧
    (failed.state ≠ .destroyed → ∀ changed u,
      (failed.update changed u).self.props = c.props.extend changed.entries ∧
      List.Forall₂ (Given (forwardedTo failed.core.template.placeholders changed)
        ((failed.update changed u).result = .ok ())) failed.children (failed.update changed u).self.children) ∧
    ∀ changed u, ((failed.update changed u).result = .ok () ↔ failed.Takes changed) ∧
      ((failed.set changed u).result = .ok () ↔ failed.Takes (c.props.changes changed)) := by
  intro c failed
  obtain ⟨horderly, hlineal⟩ := furnished_orderly (t := t) hslots w₀
  have hc : c.Orderly := horderly.over calls
  have hvalues : c.Like values failed := c.mount_values target anchor w
  have hfailed : failed.Lineal := hvalues.lineal (hlineal.over calls)
  have hprops : failed.props = c.props := (like_iff.1 hvalues).1.props
  refine ⟨hvalues, ?_, fun hd changed u => ?_, fun changed u => ⟨hfailed.update_ok_iff changed u, ?_⟩⟩
  · rcases (hc.mount target anchor w).2 hs hf with hcreate | hgone
    · exact .inl hcreate
    · refine .inr ⟨hgone.state, hgone.children, fun later ho ha => ?_⟩
      obtain ⟨hidle, haccepts, hover⟩ := hgone.idle.over hfailed ho ha
      rw [hover]
      exact ⟨haccepts, rfl, hidle.create, hidle.mount⟩
  · obtain ⟨hstored, hgiven⟩ := failed.update_given hd changed u
    exact ⟨hprops ▸ hstored, hgiven⟩
  · rw [failed.set_eq, ← hprops]
    exact hfailed.update_ok_iff _ u

/-- a document in which the marker of a first child is never found -/
def World.forgetful : World Script.host := { World.blank with backend := ⟨fun _ name => name != "mc-child-0", true⟩ }

/-- the mount fails; then an update is stored but refused, and the next mount shows the child as it was -/
theorem Component.mount_fails_forgetful :
    let options : Options Script.host := { Options.default with props := Props.ofList [("name", .str "old")] }
    let failed := ((furnished Template.framed options World.blank).mount 0 none World.forgetful).self
    let updated := failed.update (Props.ofList [("name", .str "new")]) World.blank
    failed.state = .unmounted ∧ ¬ failed.Takes (Props.ofList [("name", .str "new")]) ∧
      updated.result = .error .updateAfterDestroy ∧ updated.self.props.get? "name" = some (.str "new") ∧
      (updated.self.mount 0 none World.blank).result = .ok () ∧
      (updated.self.mount 0 none World.blank).world.document.innerHtml 0 = "<div><p title=\"old\">old</p></div>" := by
  obtain ⟨-, -, hstored, hok⟩ := @mount_fails _ _ Template.framed
    { Options.default with props := Props.ofList [("name", .str "old")] } (fun e he => absurd he List.not_mem_nil)
    World.blank [] 0 none World.forgetful (by decide +kernel) (by decide +kernel)
  have hrefused : ((((furnished Template.framed
      { Options.default with props := Props.ofList [("name", .str "old")] } World.blank).mount 0 none
        World.forgetful).self.update (Props.ofList [("name", .str "new")]) World.blank).result) =
      .error .updateAfterDestroy := by decide +kernel
  have hstored := (hstored (by decide +kernel) (Props.ofList [("name", .str "new")]) World.blank).1
  refine ⟨by decide +kernel, fun htakes => ?_, hrefused, ?_, by decide +kernel, by decide +kernel⟩
  · have := (hok (Props.ofList [("name", .str "new")]) World.blank).1.2 htakes
    exact error_ne_ok (hrefused.symm.trans this)
  · refine (congrArg (fun p : Props => p.get? "name") hstored).trans ?_
    rw [Props.get?_extend]
    decide +kernel

end LiveMarkup
