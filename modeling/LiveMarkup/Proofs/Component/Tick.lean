/-
Ticks that fail, and what they leave undelivered.

A tick stores what it brings before it tells anyone: the props, then the slot context. After that the slot contents are
told what changed in the context, one by one, and then the children are given what is forwarded to them. The first block
that refuses ends the tick. What the next tick delivers is what differs from what is stored, so a tick that is repeated
after it failed finds nothing to deliver.

- `Delivery`: a component with what its slot contents have been told, and with the names that are late: those whose last
  change came with a tick that failed;
- `Kept`: what is not late has been delivered; `Kept.tick` and `Kept.run`: ticks keep that;
- `tick_again`: a tick that is repeated succeeds and changes nothing;
- `run_delivers`: both of any run of ticks.
-/
import LiveMarkup.Proofs.Template.Once
import LiveMarkup.Component.Call
import LiveMarkup.Script.Stage

namespace LiveMarkup

variable {H : Host}

/-! ## What a tick finds changed -/

namespace Props

/-- every value equals itself, so none is a number that is none -/
def Steady (p : Props) : Prop := ∀ e ∈ p.entries, e.2.same e.2 = true

instance (p : Props) : Decidable p.Steady := inferInstanceAs (Decidable (∀ e ∈ p.entries, e.2.same e.2 = true))

theorem changes_eq_empty {current incoming : Props}
    (h : ∀ e ∈ incoming.entries, (current.get? e.1).any (·.same e.2) = true) : current.changes incoming = ∅ := by
  have hnil : incoming.entries.filter (fun e => !(current.get? e.1).any (·.same e.2)) = [] :=
    List.filter_eq_nil_iff.2 fun e he => by rw [h e he]; decide
  unfold changes filter
  simp only [hnil]
  rfl

theorem mem_changes {current incoming : Props} {e : String × Value} (h : e ∈ (current.changes incoming).entries) :
    e ∈ incoming.entries := List.mem_of_mem_filter h

/-- once the changes are stored, the same values change nothing -/
theorem changes_extend {current incoming : Props} (h : incoming.Steady) :
    (current.extend (current.changes incoming).entries).changes incoming = ∅ := by
  refine changes_eq_empty fun e he => ?_
  rw [get?_extend]
  cases hc : (current.changes incoming).get? e.1 with
  | some value =>
    have hmem : (e.1, value) ∈ incoming.entries := mem_changes (Entries.mem_of_get? hc)
    have hvalue : some e.2 = some value := (Entries.get?_of_mem incoming.nodup (show (e.1, e.2) ∈ _ from he)).symm.trans
      (Entries.get?_of_mem incoming.nodup hmem)
    rw [← hvalue]
    exact h e he
  | none =>
    by_cases hin : e ∈ (current.changes incoming).entries
    · rw [show (current.changes incoming).get? e.1 = some e.2 from
        Entries.get?_of_mem (current.changes incoming).nodup hin] at hc
      cases hc
    · have : ¬ (!(current.get? e.1).any (·.same e.2)) = true := fun hno => hin (List.mem_filter.2 ⟨he, hno⟩)
      simpa using this

theorem extend_empty (p : Props) : p.extend (∅ : Props).entries = p := rfl

theorem get?_eq_none_of_names {p : Props} {name : String} (h : name ∉ p.entries.names) : p.get? name = none :=
  Entries.get?_eq_none_iff.2 h

end Props

/-- what a tick finds changed in the slot context -/
def Core.dirty (c : Core H) (context : Option Props) : Props := (context.map c.slotContext.changes).getD ∅

/-- what everyone in a row is given, if it is anything -/
def Props.offer (p : Props) : Nat → Option Props := fun _ => if p.isEmpty then none else some p

/-- the component itself after a tick: what is new is stored and shown -/
def Core.taking (c : Core H) (incoming : Props) (context : Option Props) (w : World H) : Core H × World H :=
  let (updated, w) := c.applyEntries w (c.props.changes incoming)
  ({ updated with slotContext := c.slotContext.extend (c.dirty context).entries }, w)

theorem Core.applyEntries_fields (c : Core H) (w : World H) (changed : Props) :
    (c.applyEntries w changed).1.props = c.props.extend changed.entries ∧
      (c.applyEntries w changed).1.slotContext = c.slotContext ∧
      (c.applyEntries w changed).1.template = c.template ∧ (c.applyEntries w changed).1.phase = c.phase := by
  unfold applyEntries Props.extend
  generalize changed.entries = es
  induction es generalizing c w with
  | nil => exact ⟨rfl, rfl, rfl, rfl⟩
  | cons e es ih => exact ih (c.applyEntry w e.1 e.2).1 (c.applyEntry w e.1 e.2).2

theorem Core.taking_fields (c : Core H) (incoming : Props) (context : Option Props) (w : World H) :
    (c.taking incoming context w).1.props = c.props.extend (c.props.changes incoming).entries ∧
      (c.taking incoming context w).1.slotContext = c.slotContext.extend (c.dirty context).entries ∧
      (c.taking incoming context w).1.template = c.template ∧ (c.taking incoming context w).1.phase = c.phase :=
  have h := c.applyEntries_fields w (c.props.changes incoming)
  ⟨h.1, rfl, h.2.2.1, h.2.2.2⟩

variable [ForeignBlocks H]

/-! ## One tick -/

/-- nobody is given anything -/
theorem updateRow_none {deliver : Nat → Option Props} (h : ∀ index, deliver index = none) (row : List (Nested H))
    (w : World H) : updateRow deliver row w = .ok row w := by
  induction row with
  | nil => rfl
  | cons n row ih =>
    obtain ⟨index, atRoot, block⟩ := n
    rw [updateRow_cons, h index]
    dsimp only
    rw [ih]
    rfl

theorem Component.updateSlots_eq (core : Core H) (slots children : List (Nested H)) (context : Option Props)
    (w : World H) : (Component.mk core slots children).updateSlots context w =
      (updateRow (core.dirty context).offer slots w).map
        (.mk { core with slotContext := core.slotContext.extend (core.dirty context).entries } · children) := by
  cases context with
  | none =>
    have hnone : updateRow (core.dirty none).offer slots w = .ok slots w := updateRow_none (fun _ => rfl) slots w
    rw [hnone]
    rfl
  | some incoming =>
    have hdirty : core.dirty (some incoming) = core.slotContext.changes incoming := rfl
    rw [updateSlots_mk, hdirty]
    dsimp only
    split
    · next he =>
      have hnone : updateRow (core.slotContext.changes incoming).offer slots w = .ok slots w :=
        updateRow_none (fun _ => if_pos he) slots w
      rw [hnone, List.isEmpty_iff.1 he]
      rfl
    · next he =>
      have hsome : (core.slotContext.changes incoming).offer = fun _ => some (core.slotContext.changes incoming) :=
        funext fun _ => if_neg he
      rw [hsome]

/-- a tick in order: the component itself, the slot contents, the children -/
theorem Component.tick_eq {core : Core H} {slots children : List (Nested H)} (hp : core.phase ≠ .destroyed)
    (incoming : Props) (context : Option Props) (w : World H) :
    (Component.mk core slots children).tick incoming context w =
      let own := core.taking incoming context w
      let contents := updateRow (core.dirty context).offer slots own.2
      match contents.result with
      | .error fault => .fail fault (.mk own.1 contents.self children) contents.world
      | .ok _ =>
        (updateRow (forwardedTo core.template.placeholders (core.props.changes incoming)) children contents.world).map
          (.mk own.1 contents.self ·) := by
  have hcontext := (core.applyEntries_fields w (core.props.changes incoming)).2.1
  have hdirty : (core.applyEntries w (core.props.changes incoming)).1.dirty context = core.dirty context := by
    rw [Core.dirty, hcontext]
    rfl
  rw [tick_mk, if_neg hp]
  dsimp only
  rw [updateSlots_eq, hdirty, hcontext, Outcome.map]
  dsimp only [Core.taking]
  cases hr : (updateRow (core.dirty context).offer slots
    (core.applyEntries w (core.props.changes incoming)).2).result with
  | error fault => simp only [Outcome.fail]
  | ok => rfl

/-! ## Rows -/

/-- what an update of a row makes of one of its blocks: what the block's own update made of it, if it was given anything;
if `all` were, it accepted that -/
inductive Given (deliver : Nat → Option Props) (all : Prop) : Nested H → Nested H → Prop
  | left (n : Nested H) (h : all → deliver n.index = none) : Given deliver all n n
  | given {index : Nat} (atRoot : Bool) (block : Block H) {changed : Props} (w : World H)
      (hd : deliver index = some changed) (h : all → (block.update changed w).result = .ok ()) :
      Given deliver all (.mk index atRoot block) (.mk index atRoot (block.update changed w).self)

theorem forall₂_left {deliver : Nat → Option Props} {all : Prop} (h : ¬ all) (row : List (Nested H)) :
    List.Forall₂ (Given deliver all) row row := by
  induction row with
  | nil => exact .nil
  | cons n row ih => exact .cons (.left n fun ha => absurd ha h) ih

theorem updateRow_given (deliver : Nat → Option Props) (row : List (Nested H)) (w : World H) :
    List.Forall₂ (Given deliver ((updateRow deliver row w).result = .ok ())) row (updateRow deliver row w).self := by
  induction row generalizing w with
  | nil => exact .nil
  | cons n row ih =>
    obtain ⟨index, atRoot, block⟩ := n
    rw [updateRow_cons]
    cases hd : deliver index with
    | none => exact .cons (.left _ fun _ => hd) (ih w)
    | some changed =>
      dsimp only
      cases hr : (block.update changed w).result with
      | error fault =>
        have hne : ¬ (Except.error fault : Except LifecycleFault Unit) = .ok () := error_ne_ok
        exact .cons (.given atRoot block w hd fun h => absurd h hne) (forall₂_left hne row)
      | ok => exact .cons (.given atRoot block w hd fun _ => hr) (ih _)

/-- for each block of a row, whether it has not missed anything: the first that refuses and all behind it do -/
def heard (deliver : Nat → Option Props) : List (Nested H) → World H → List Bool
  | [], _ => []
  | .mk index _ block :: row, w =>
    match deliver index with
    | none => true :: heard deliver row w
    | some changed =>
      match (block.update changed w).result with
      | .error _ => false :: row.map fun _ => false
      | .ok _ => true :: heard deliver row (block.update changed w).world

theorem length_heard (deliver : Nat → Option Props) (row : List (Nested H)) (w : World H) :
    (heard deliver row w).length = row.length := by
  fun_induction heard deliver row w with
  | case1 => rfl
  | case2 w index atRoot block row hd ih => rw [List.length_cons, List.length_cons, ih]
  | case3 w index atRoot block row changed hd fault hr => rw [List.length_cons, List.length_cons, List.length_map]
  | case4 w index atRoot block row changed hd u hr ih => rw [List.length_cons, List.length_cons, ih]

/-- in an update that succeeds, no block misses anything -/
theorem heard_of_ok {deliver : Nat → Option Props} {row : List (Nested H)} {w : World H}
    (h : (updateRow deliver row w).result = .ok ()) : ∀ b ∈ heard deliver row w, b = true := by
  fun_induction heard deliver row w with
  | case1 => exact fun b hb => absurd hb List.not_mem_nil
  | case2 w index atRoot block row hd ih =>
    rw [updateRow_cons, hd] at h
    exact List.forall_mem_cons.2 ⟨rfl, ih h⟩
  | case3 w index atRoot block row changed hd fault hr =>
    rw [updateRow_cons, hd] at h
    dsimp only at h
    rw [hr] at h
    cases h
  | case4 w index atRoot block row changed hd u hr ih =>
    rw [updateRow_cons, hd] at h
    dsimp only at h
    rw [hr] at h
    exact List.forall_mem_cons.2 ⟨rfl, ih h⟩

/-! ## What a tick makes of a component -/

/-- an update stores its values, unless the component is destroyed -/
theorem Component.update_props (changed : Props) (c : Component H) (w : World H) :
    (c.update changed w).self.props = c.props.extend changed.entries ∨
      (c.update changed w).self.props = c.props ∧ (c.update changed w).result ≠ .ok () := by
  obtain ⟨core, slots, children⟩ := c
  rw [update_mk]
  split
  · exact .inr ⟨rfl, error_ne_ok⟩
  · exact .inl (core.applyEntries_fields w changed).1

/-- a component after a tick: what is new is stored, whatever comes of telling it -/
theorem Component.tick_given {c : Component H} (hp : c.core.phase ≠ .destroyed) (incoming : Props)
    (context : Option Props) (w : World H) :
    (c.tick incoming context w).self.core = (c.core.taking incoming context w).1 ∧
      ((c.tick incoming context w).result = .ok () →
        (updateRow (c.core.dirty context).offer c.slots (c.core.taking incoming context w).2).result = .ok ()) ∧
      (c.tick incoming context w).self.slots =
        (updateRow (c.core.dirty context).offer c.slots (c.core.taking incoming context w).2).self ∧
      List.Forall₂ (Given (forwardedTo c.core.template.placeholders (c.props.changes incoming))
        ((c.tick incoming context w).result = .ok ())) c.children (c.tick incoming context w).self.children := by
  obtain ⟨core, slots, children⟩ := c
  have hp : core.phase ≠ .destroyed := hp
  rw [tick_eq hp]
  dsimp only [Component.core, Component.slots, Component.children, Component.props]
  cases hr : (updateRow (core.dirty context).offer slots (core.taking incoming context w).2).result with
  | error fault => exact ⟨rfl, fun hok => absurd hok error_ne_ok, rfl, forall₂_left error_ne_ok children⟩
  | ok => exact ⟨rfl, fun _ => rfl, rfl, updateRow_given _ _ _⟩

/-- a tick that brings nothing new succeeds and leaves everything as it is -/
theorem Component.tick_of_settled {c : Component H} (hp : c.core.phase ≠ .destroyed) {incoming : Props}
    {context : Option Props} (hc : c.props.changes incoming = ∅) (hd : c.core.dirty context = ∅) (w : World H) :
    c.tick incoming context w = .ok c w := by
  obtain ⟨core, slots, children⟩ := c
  have hp : core.phase ≠ .destroyed := hp
  have hc : core.props.changes incoming = ∅ := hc
  have hd : core.dirty context = ∅ := hd
  have hforward : ∀ index, forwardedTo core.template.placeholders (∅ : Props) index = none := by
    intro index
    unfold forwardedTo
    split
    · rfl
    · rfl
  have htaking : core.taking incoming context w = (core, w) := by
    rw [Core.taking, hd, hc]
    rfl
  rw [tick_eq hp, htaking, hd, hc]
  dsimp only
  rw [show updateRow (∅ : Props).offer slots w = .ok slots w from updateRow_none (fun _ => rfl) slots w]
  dsimp only [Outcome.ok]
  rw [updateRow_none hforward]
  rfl

/-- after a tick, whatever came of it, the same tick brings nothing new -/
theorem Component.tick_settles {c : Component H} (hp : c.core.phase ≠ .destroyed) {incoming : Props}
    {context : Option Props} (hi : incoming.Steady) (hc : ∀ p ∈ context, p.Steady) (w : World H) :
    (c.tick incoming context w).self.props.changes incoming = ∅ ∧
      (c.tick incoming context w).self.core.dirty context = ∅ := by
  have hcore := (tick_given hp incoming context w).1
  have hfields := c.core.taking_fields incoming context w
  constructor
  · rw [props, hcore, hfields.1]
    exact Props.changes_extend hi
  · cases context with
    | none => rfl
    | some given =>
      rw [Core.dirty, hcore, hfields.2.1]
      exact Props.changes_extend (hc given rfl)

/-! ## Runs of ticks -/

/-- a component that is ticked, with what each slot content has been told of the context so far, and with the names that
are late: the last tick that changed them has failed -/
structure Delivery (H : Host) where
  component : Component H
  world : World H
  told : List Props
  lateContext : List String
  late : List String

/-- the names that are late after a call that changed `names` -/
def lateAfter (result : Except LifecycleFault Unit) (late names : List String) : List String :=
  match result with
  | .ok _ => late.filter (· ∉ names)
  | .error _ => late ++ names

namespace Delivery

/-- before any tick: the slot contents know the context as it is, and nothing is late -/
def start (c : Component H) (w : World H) : Delivery H :=
  ⟨c, w, c.slots.map fun _ => c.core.slotContext, [], []⟩

def tick (d : Delivery H) (incoming : Props) (context : Option Props) : Delivery H :=
  let o := d.component.tick incoming context d.world
  let dirty := d.component.core.dirty context
  let ears := heard dirty.offer d.component.slots (d.component.core.taking incoming context d.world).2
  { component := o.self
    world := o.world
    told := List.zipWith (fun known hears => if hears then known.extend dirty.entries else known) d.told ears
    lateContext := lateAfter o.result d.lateContext dirty.entries.names
    late := lateAfter o.result d.late (d.component.props.changes incoming).entries.names }

/-- one tick after another, whatever each results in -/
def run (d : Delivery H) (ticks : List (Props × Option Props)) : Delivery H :=
  ticks.foldl (fun d t => d.tick t.1 t.2) d

end Delivery

/-- every child has what is forwarded to it, but for what is late -/
def Component.Follows (late : List String) (c : Component H) : Prop :=
  ∀ index atRoot child, Nested.mk index atRoot (.component child) ∈ c.children → ∀ t bindings,
    c.core.template.placeholders[index]? = some (.child t bindings) → ∀ b ∈ bindings, b.outer ∉ late →
      child.props.get? b.child = c.props.get? b.outer

/-- no child placeholder binds a prop of its child twice -/
def Component.BindsOnce (c : Component H) : Prop :=
  ∀ u bindings, .child u bindings ∈ c.core.template.placeholders → (bindings.map Binding.child).Nodup

theorem mem_of_forall₂ {α β : Type} {R : α → β → Prop} {l : List α} {l' : List β} (h : List.Forall₂ R l l') {b : β}
    (hb : b ∈ l') : ∃ a ∈ l, R a b := by
  induction h with
  | nil => cases hb
  | cons hr _ ih =>
    rcases List.mem_cons.1 hb with rfl | hb
    · exact ⟨_, List.mem_cons_self, hr⟩
    · obtain ⟨a, ha, hra⟩ := ih hb
      exact ⟨a, List.mem_cons_of_mem _ ha, hra⟩

theorem lateAfter_ok {late names : List String} {name : String} (h : name ∉ lateAfter (.ok ()) late names) :
    name ∉ late ∨ name ∈ names := by
  by_contra hno
  rw [not_or, not_not] at hno
  exact h (List.mem_filter.2 ⟨hno.1, by simpa using hno.2⟩)

theorem lateAfter_error {fault : LifecycleFault} {late names : List String} {name : String}
    (h : name ∉ lateAfter (.error fault) late names) : name ∉ late ∧ name ∉ names :=
  ⟨fun hin => h (List.mem_append_left _ hin), fun hin => h (List.mem_append_right _ hin)⟩

/-- a child's prop is given what its outer prop changed to -/
theorem get?_forwarded_of_mem {bindings : List Binding} (hn : (bindings.map Binding.child).Nodup) {b : Binding}
    (hb : b ∈ bindings) (changed : Props) :
    (forwarded bindings changed).get? b.child = changed.get? b.outer := by
  rw [get?_forwarded hn, outerOf?]
  have hfind : bindings.find? (·.child == b.child) = some b := by
    cases hf : bindings.find? (·.child == b.child) with
    | none => exact absurd (beq_self_eq_true _) (List.find?_eq_none.1 hf b hb)
    | some a =>
      have ha := List.mem_of_find?_eq_some hf
      have hname := List.find?_some hf
      have hc : a.child = b.child := eq_of_beq hname
      rw [List.inj_on_of_nodup_map hn ha hb hc]
  rw [hfind]
  rfl

/-- what a child placeholder hands on to a bound prop of its child -/
theorem get?_forwardedTo {A T : Type} {placeholders : List (Placeholder A T)} {index : Nat} {t : T}
    {bindings : List Binding} (hp : placeholders[index]? = some (.child t bindings))
    (hn : (bindings.map Binding.child).Nodup) {b : Binding} (hb : b ∈ bindings) (changed : Props) :
    (forwardedTo placeholders changed index).bind (·.get? b.child) = changed.get? b.outer := by
  rw [← get?_forwarded_of_mem hn hb changed, forwardedTo, hp]
  dsimp only
  split
  · next he =>
    rw [Props.get?, List.isEmpty_iff.1 he]
    rfl
  · rfl

/-- a child in a row that was updated has what it was given, if all accepted or it was given nothing of this name -/
theorem Given.child {deliver : Nat → Option Props} {all : Prop} {n : Nested H} {index : Nat} {atRoot : Bool}
    {child : Component H} (h : Given deliver all n (.mk index atRoot (.component child))) :
    ∃ old, n = .mk index atRoot (.component old) ∧ ∀ name, all ∨ (deliver index).bind (·.get? name) = none →
      child.props.get? name = ((deliver index).bind (·.get? name)).or (old.props.get? name) := by
  generalize hm : Nested.mk index atRoot (.component child) = m at h
  cases h with
  | left _ hnone =>
    subst hm
    refine ⟨child, rfl, fun name hname => ?_⟩
    have hbind : (deliver index).bind (·.get? name) = none := by
      rcases hname with hall | hname
      · rw [show deliver index = none from hnone hall]
        rfl
      · exact hname
    rw [hbind, Option.none_or]
  | @given index atRoot block changed w hd hok =>
    obtain ⟨rfl, rfl, hblock⟩ := Nested.mk.inj hm
    cases block with
    | text t => cases hblock
    | foreign f => cases hblock
    | component old =>
      obtain rfl : child = (old.update changed w).self := Block.component.inj hblock
      refine ⟨old, rfl, fun name hname => ?_⟩
      rw [hd, Option.bind_some] at hname ⊢
      rcases old.update_props changed w with hprops | ⟨hprops, hfails⟩
      · rw [hprops, Props.get?_extend]
      · rcases hname with hall | hname
        · exact absurd (hok hall) hfails
        · rw [hprops, hname, Option.none_or]

namespace Delivery

structure Kept (d : Delivery H) : Prop where
  alive : d.component.core.phase ≠ .destroyed
  bindsOnce : d.component.BindsOnce
  length : d.told.length = d.component.slots.length
  told : ∀ known ∈ d.told, ∀ name, name ∉ d.lateContext →
    known.get? name = d.component.core.slotContext.get? name
  follows : d.component.Follows d.late

variable {d : Delivery H}

/-- a tick keeps what the slot contents know -/
theorem Kept.tick_told (h : d.Kept) (incoming : Props) (context : Option Props) :
    ∀ known ∈ (d.tick incoming context).told, ∀ name, name ∉ (d.tick incoming context).lateContext →
      known.get? name = (d.tick incoming context).component.core.slotContext.get? name := by
  obtain ⟨hcore, hslots, -, -⟩ := Component.tick_given h.alive incoming context d.world
  have hcontext : (d.tick incoming context).component.core.slotContext =
      d.component.core.slotContext.extend (d.component.core.dirty context).entries := by
    show (d.component.tick incoming context d.world).self.core.slotContext = _
    rw [hcore]
    rfl
  intro known hknown name hname
  rw [hcontext, Props.get?_extend]
  have hknown : known ∈ List.zipWith _ d.told _ := hknown
  rw [← List.map_uncurry_zip_eq_zipWith] at hknown
  obtain ⟨⟨before, hears⟩, hzip, rfl⟩ := List.mem_map.1 hknown
  obtain ⟨hbefore, hhears⟩ := List.of_mem_zip hzip
  have hname : name ∉ lateAfter (d.component.tick incoming context d.world).result d.lateContext
      (d.component.core.dirty context).entries.names := hname
  cases hr : (d.component.tick incoming context d.world).result with
  | error fault =>
    -- whether it was heard or not, this name was not changed
    rw [hr] at hname
    obtain ⟨hlate, hnot⟩ := lateAfter_error hname
    have hnone : (d.component.core.dirty context).get? name = none := Props.get?_eq_none_of_names hnot
    rw [hnone, Option.none_or, ← h.told before hbefore name hlate]
    dsimp only [Function.uncurry]
    split
    · rw [Props.get?_extend, hnone, Option.none_or]
    · rfl
  | ok =>
    -- everything was heard
    rw [hr] at hname
    have hall := heard_of_ok (hslots hr) hears hhears
    subst hall
    show (before.extend _).get? name = _
    rw [Props.get?_extend]
    rcases lateAfter_ok hname with hlate | hin
    · rw [h.told before hbefore name hlate]
    · obtain ⟨value, hvalue⟩ := Option.isSome_iff_exists.1 (Entries.get?_isSome_iff.2 hin)
      rw [show (d.component.core.dirty context).get? name = some value from hvalue, Option.some_or, Option.some_or]

/-- a tick keeps what the children have -/
theorem Kept.tick_follows (h : d.Kept) (incoming : Props) (context : Option Props) :
    (d.tick incoming context).component.Follows (d.tick incoming context).late := by
  obtain ⟨hcore, -, -, hchildren⟩ := Component.tick_given h.alive incoming context d.world
  obtain ⟨hprops, -, htemplate, -⟩ := d.component.core.taking_fields incoming context d.world
  intro index atRoot child hchild t bindings hp b hb hlate
  have hp : d.component.core.template.placeholders[index]? = some (.child t bindings) := by
    rw [← htemplate, ← hcore]
    exact hp
  have hgives := get?_forwardedTo hp (h.bindsOnce t bindings (List.mem_of_getElem? hp)) hb
    (d.component.props.changes incoming)
  have hstored : (d.tick incoming context).component.props.get? b.outer =
      ((d.component.props.changes incoming).get? b.outer).or (d.component.props.get? b.outer) := by
    rw [← Props.get?_extend]
    show (d.component.tick incoming context d.world).self.core.props.get? b.outer = _
    rw [hcore, hprops]
    rfl
  obtain ⟨n, hmem, hgiven⟩ := mem_of_forall₂ hchildren hchild
  obtain ⟨old, rfl, hchild⟩ := hgiven.child
  have hold := h.follows index atRoot old hmem t bindings hp b hb
  have hchild := hchild b.child
  rw [hgives] at hchild
  have hlate : b.outer ∉ lateAfter (d.component.tick incoming context d.world).result d.late
      (d.component.props.changes incoming).entries.names := hlate
  rw [hstored]
  cases hr : (d.component.tick incoming context d.world).result with
  | error fault =>
    rw [hr] at hlate
    obtain ⟨hbefore, hnot⟩ := lateAfter_error hlate
    rw [hchild (.inr (Props.get?_eq_none_of_names hnot)), hold hbefore]
  | ok =>
    rw [hr] at hlate
    rw [hchild (.inl hr)]
    rcases lateAfter_ok hlate with hbefore | hin
    · rw [hold hbefore]
    · obtain ⟨value, hvalue⟩ := Option.isSome_iff_exists.1 (Entries.get?_isSome_iff.2 hin)
      rw [show (d.component.props.changes incoming).get? b.outer = some value from hvalue, Option.some_or,
        Option.some_or]

theorem Kept.tick (h : d.Kept) (incoming : Props) (context : Option Props) : (d.tick incoming context).Kept := by
  obtain ⟨hcore, -, hslots, -⟩ := Component.tick_given h.alive incoming context d.world
  obtain ⟨-, -, htemplate, hphase⟩ := d.component.core.taking_fields incoming context d.world
  refine ⟨?_, ?_, ?_, h.tick_told incoming context, h.tick_follows incoming context⟩
  · show (d.component.tick incoming context d.world).self.core.phase ≠ .destroyed
    rw [hcore, hphase]
    exact h.alive
  · intro u bindings hu
    have hu : .child u bindings ∈ (d.component.tick incoming context d.world).self.core.template.placeholders := hu
    rw [hcore, htemplate] at hu
    exact h.bindsOnce u bindings hu
  · show (List.zipWith _ d.told _).length = (d.component.tick incoming context d.world).self.slots.length
    rw [List.length_zipWith, length_heard, h.length, Nat.min_self, hslots]
    exact (updateRow_given _ _ _).length_eq

theorem Kept.run (h : d.Kept) (ticks : List (Props × Option Props)) : (d.run ticks).Kept := by
  induction ticks generalizing d with
  | nil => exact h
  | cons t ticks ih => exact ih (h.tick t.1 t.2)

theorem zipWith_hears_empty {told : List Props} {ears : List Bool} (h : told.length = ears.length) :
    List.zipWith (fun known hears => if hears then known.extend (∅ : Props).entries else known) told ears = told := by
  induction told generalizing ears with
  | nil => rfl
  | cons known told ih =>
    obtain ⟨ear, ears, rfl⟩ := List.exists_cons_of_length_eq_add_one h.symm
    rw [List.zipWith_cons_cons, ih (Nat.succ.inj h), Props.extend_empty, ite_self]

/-- a tick that is repeated succeeds and changes nothing, whatever came of it before -/
theorem Kept.tick_again (h : d.Kept) {incoming : Props} {context : Option Props} (hi : incoming.Steady)
    (hc : ∀ p ∈ context, p.Steady) :
    ((d.tick incoming context).component.tick incoming context (d.tick incoming context).world).result = .ok () ∧
      (d.tick incoming context).tick incoming context = d.tick incoming context := by
  have hkept := h.tick incoming context
  obtain ⟨hprops, hdirty⟩ := Component.tick_settles h.alive hi hc d.world
  generalize hd : d.tick incoming context = d' at hkept ⊢
  have hprops : d'.component.props.changes incoming = ∅ := hd ▸ hprops
  have hdirty : d'.component.core.dirty context = ∅ := hd ▸ hdirty
  have htick := Component.tick_of_settled hkept.alive hprops hdirty d'.world
  have hlate : ∀ late : List String, lateAfter (.ok ()) late (∅ : Props).entries.names = late := fun late =>
    List.filter_eq_self.2 fun name _ => decide_eq_true List.not_mem_nil
  refine ⟨by rw [htick]; rfl, ?_⟩
  rw [Delivery.tick, htick, hprops, hdirty]
  dsimp only [Outcome.ok]
  rw [hlate, hlate, zipWith_hears_empty (by rw [length_heard, hkept.length])]

/-- what a failing tick changed is late -/
theorem tick_late {incoming : Props} {context : Option Props} {fault : LifecycleFault}
    (hr : (d.component.tick incoming context d.world).result = .error fault) :
    (d.tick incoming context).lateContext = d.lateContext ++ (d.component.core.dirty context).entries.names ∧
      (d.tick incoming context).late = d.late ++ (d.component.props.changes incoming).entries.names := by
  rw [tick, hr]
  exact ⟨rfl, rfl⟩

/-- the component and the world are those of the ticks alone -/
theorem run_eq (d : Delivery H) (ticks : List (Props × Option Props)) :
    ((d.run ticks).component, (d.run ticks).world) = d.component.run d.world (ticks.map fun t => .tick t.1 t.2) := by
  induction ticks generalizing d with
  | nil => rfl
  | cons t ticks ih => exact ih (d.tick t.1 t.2)

omit [ForeignBlocks H] in
theorem start_kept {c : Component H} (hp : c.core.phase ≠ .destroyed) (ho : c.BindsOnce) (hf : c.Follows [])
    (w : World H) : (start c w).Kept := by
  refine ⟨hp, ho, List.length_map _, fun known hknown name _ => ?_, hf⟩
  obtain ⟨_, -, rfl⟩ := List.mem_map.1 hknown
  rfl

/-- **What ticks deliver.** After any run of ticks, failing ones among them, every slot content has been told the present
value of every entry of the context that is not late, and every child has the present value of every prop that is
forwarded to it and not late. A tick that fails makes everything late that it changed; the same tick once more succeeds,
delivers nothing, and leaves that late. -/
theorem run_delivers {c : Component H} (hp : c.core.phase ≠ .destroyed) (ho : c.BindsOnce) (hf : c.Follows [])
    (w : World H) (ticks : List (Props × Option Props)) :
    let d := (start c w).run ticks
    (d.component, d.world) = c.run w (ticks.map fun t => .tick t.1 t.2) ∧
    d.told.length = d.component.slots.length ∧
    (∀ known ∈ d.told, ∀ name, name ∉ d.lateContext →
      known.get? name = d.component.core.slotContext.get? name) ∧
    d.component.Follows d.late ∧
    ∀ incoming context fault, incoming.Steady → (∀ p ∈ context, p.Steady) →
      (d.component.tick incoming context d.world).result = .error fault →
      let failed := d.tick incoming context
      failed.lateContext = d.lateContext ++ (d.component.core.dirty context).entries.names ∧
        failed.late = d.late ++ (d.component.props.changes incoming).entries.names ∧
        (failed.component.tick incoming context failed.world).result = .ok () ∧
        failed.tick incoming context = failed := by
  have hkept := (start_kept hp ho hf w).run ticks
  refine ⟨run_eq _ ticks, hkept.length, hkept.told, hkept.follows, fun incoming context fault hi hc hr => ?_⟩
  obtain ⟨hok, hsame⟩ := hkept.tick_again hi hc
  exact ⟨(tick_late hr).1, (tick_late hr).2, hok, hsame⟩

end Delivery

/-! ## A slot that refuses -/

open Script in
/-- a frame with a slot, whose content refuses every update, and a child -/
def refusing : Component host :=
  let own (t : Template (Action host)) (props : Props) : Core host :=
    { template := t, phase := .unmounted, props, slotContext := ∅, roots := [], textCells := [], attributeCells := []
      cleanups := [], updateHooks := [], channel := 0 }
  .mk (own ⟨["<div>", "", "</div>"], [.slot "default", .child Template.paragraph [⟨"title", "x"⟩]], []⟩
      (Props.ofList [("x", .str "old")]))
    [.mk 0 false (.foreign ⟨"r", [.update], none⟩)]
    [.mk 1 false (.component (.mk (own Template.paragraph (Props.ofList [("title", .str "old")])) [] []))]

/-- the tick is refused, its repetition succeeds, and neither the slot content nor the child ever hears of it -/
theorem Delivery.run_delivers_refusing :
    let failed := (start refusing (Script.Stage.initial [] true).world).tick (Props.ofList [("x", .str "new")])
      (some (Props.ofList [("k", .int 1)]))
    (failed.component.tick (Props.ofList [("x", .str "new")]) (some (Props.ofList [("k", .int 1)]))
        failed.world).result = .ok () ∧
      failed.tick (Props.ofList [("x", .str "new")]) (some (Props.ofList [("k", .int 1)])) = failed ∧
      failed.lateContext = ["k"] ∧ failed.late = ["x"] ∧ failed.told = [∅] ∧
      failed.component.props.get? "x" = some (.str "new") ∧
      ∃ child, .mk 1 false (.component child) ∈ failed.component.children ∧
        child.props.get? "title" = some (.str "old") := by
  have hfollows : refusing.Follows [] := by
    intro index atRoot child hchild t bindings hp b hb _
    cases hchild with
    | head =>
      cases hp
      cases hb with
      | head => rfl
      | tail _ hb => cases hb
    | tail _ hchild => cases hchild
  have honce : refusing.BindsOnce := by
    intro u bindings hu
    cases hu with
    | tail _ hu => cases hu with
      | head => decide +kernel
      | tail _ hu => cases hu
  obtain ⟨-, -, -, -, hagain⟩ := run_delivers (c := refusing) (by decide) honce hfollows
    (Script.Stage.initial [] true).world []
  obtain ⟨hcontext, hlate, hok, hsame⟩ := hagain (Props.ofList [("x", .str "new")])
    (some (Props.ofList [("k", .int 1)])) (.missingMarker "r-update") (by decide)
    (fun p hp => Option.some.inj hp ▸ by decide) rfl
  exact ⟨hok, hsame, hcontext, hlate, rfl, rfl, _, List.mem_cons_self, rfl⟩

end LiveMarkup
