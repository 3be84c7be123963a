/-
Listeners and hooks in the life of a component.

An instance of a template is created, mounted, updated, ticked and destroyed in any order, and calls fail wherever markers are
missing or blocks of the host fail. What was noted on the way is what becomes of a ledger, and between two calls everything in
the component is in accord with that: it is mounted with all that is nested in it, or nothing in it is.

- `Component.Accords.call`: one call, from any state and whatever it results in;
- `Component.Course.accords`: any number of calls;
- `Component.listeners_and_hooks`: what that says of listeners and of the hooks of actions.
-/
import LiveMarkup.Proofs.Component.Landing
import LiveMarkup.Proofs.Component.Subscribers

namespace LiveMarkup

open Markup Marker Forest

variable {H : Host} {B : Logbook H}

/-! ## Lives -/

/-- what is noted when a component is called -/
def Call.subjects {N : Type} : Call N → List Subject
  | .update _ | .set _ | .tick _ _ => [.values]
  | .mount _ _ | .destroy _ => [.presence]
  | .create | .transition _ _ => []

theorem Call.subjects_subset {N : Type} (call : Call N) : call.subjects ⊆ [.presence, .values] := by
  cases call <;> simp [subjects]

/-- a component is called in any way; in between host code does something, and markers are lost and found again -/
inductive Component.Course [ForeignBlocks H] (B : Logbook H) (c₀ : Component H) (w₀ : World H) : Component H → World H → Prop
  | start : Course B c₀ w₀ c₀ w₀
  | call {c : Component H} {w : World H} (before : Course B c₀ w₀ c w) (call : Call NodeId) :
      Course B c₀ w₀ (c.call w call).self (c.call w call).world
  | aside {c : Component H} {w w' : World H} (before : Course B c₀ w₀ c w) (other : w.Noted B [] w') : Course B c₀ w₀ c w'
  | finds {c : Component H} {w : World H} (before : Course B c₀ w₀ c w) (backend : Backend) :
      Course B c₀ w₀ c { w with backend }

/-- between two calls: everything in a component is in accord with the ledger, which is about nothing else; all of it is
mounted, or nothing, and then nothing is in its markers -/
structure Component.Accords (B : Logbook H) (g : Ledger) (c : Component H) (w : World H) : Prop where
  sober : w.Sober B
  channels : c.channels.Nodup
  orderly : c.Orderly
  arranged : c.Arranged
  accounts : (Block.component c).Accounts B g w.document
  elsewhere : ∀ k ∉ c.channels, g k = none
  phase : c.Each (·.phase = .mounted) (fun _ => True) ∨
    (Block.component c).Unfilled w.document ∧ (Block.component c).fragments.Nodup

/-! ## One call -/

section

variable {S : List Subject} {q : Prop} {c : Component H} {w w' : World H} {g g₁ : Ledger}

/-- what a call noted is what becomes of the ledger, and the component is in accord with that again -/
structure Component.Keeps (B : Logbook H) (S : List Subject) (c : Component H) (w : World H) (g : Ledger)
    (o : Outcome H (Component H)) (g₁ : Ledger) : Prop where
  books : w.Books B S False c.channels g o.world g₁
  accords : o.self.Accords B g₁ o.world

namespace Component.Accords

theorem keeps (h : c.Accords B g w) {o : Outcome H (Component H)}
    (hs : (Block.component c).Settles B S q w g (o.map .component) g₁) (horderly : o.self.Orderly) (harranged : o.self.Arranged)
    (hphase : o.self.Each (·.phase = .mounted) (fun _ => True) ∨
      (Block.component o.self).Unfilled o.world.document ∧ (Block.component o.self).fragments.Nodup) :
    c.Keeps B S w g o g₁ := by
  have hchannels : o.self.channels = c.channels := hs.channels
  refine ⟨hs.books.mono (List.Subset.refl _) False.elim (List.Subset.refl _), hs.books.sober h.sober, hchannels ▸ h.channels,
    horderly, harranged, hs.accounts, fun k hk => ?_, hphase⟩
  rw [hchannels] at hk
  exact (hs.books.elsewhere k hk).trans (h.elsewhere k hk)

/-- nothing was done -/
theorem stays (h : c.Accords B g w) {result : Except LifecycleFault Unit} : c.Keeps B S w g ⟨c, w, result⟩ g :=
  ⟨.refl h.sober.intact, h⟩

/-- nothing concerns it that host code does -/
theorem aside (h : c.Accords B g w) (hw : w.Noted B [] w') : c.Accords B g w' := by
  have hbooks : w.Books B [] True [] g w' g := .of_does hw.does
  exact ⟨hbooks.sober h.sober, h.channels, h.orderly, h.arranged, h.accounts.books hbooks (List.disjoint_nil_right _),
    h.elsewhere, h.phase.imp_right fun hu => ⟨hu.1.books hbooks, hu.2⟩⟩

/-- it is mounted, or nothing in it is -/
theorem mounted (h : c.Accords B g w) (hm : c.core.phase = .mounted) : c.Each (·.phase = .mounted) (fun _ => True) :=
  h.phase.resolve_right fun hu => by
    obtain ⟨core, slots, children⟩ := c
    exact (Component.unfilled_mk.1 hu.1).1.waiting hm

theorem waiting (h : c.Accords B g w) (hm : c.core.phase ≠ .mounted) :
    (Block.component c).Unfilled w.document ∧ (Block.component c).fragments.Nodup :=
  h.phase.resolve_left fun he => by
    obtain ⟨core, slots, children⟩ := c
    exact hm he.1

variable [ForeignBlocks H]

omit [ForeignBlocks H] in
/-- it is created, or mounted, with all that is nested in it, or neither -/
theorem active (h : c.Accords B g w) (hp : c.core.phase.Active) : c.Active := by
  cases h.orderly with
  | active ha => exact ha
  | resting own => exact absurd hp own.phase

/-- new values, and coming in and going out -/
theorem gives (hf : GuestsHeed B) (h : c.Accords B g w) {call : Call NodeId} (hg : call.Gives) :
    c.Keeps B call.subjects w g (c.call w call) g := by
  have hlike := c.call_footing hg w
  have hsettles : (Block.component c).Settles B call.subjects True w g ((c.call w call).map .component) g := by
    cases call with
    | update changed => exact Block.hears hf (.component c) changed h.sober h.channels h.accounts
    | set incoming => exact Component.ticks hf incoming none h.sober h.channels h.accounts
    | tick incoming context => exact Component.ticks hf incoming context h.sober h.channels h.accounts
    | transition t isLocal => exact Block.moves hf (.component c) t isLocal h.sober h.channels h.accounts
    | create | mount | destroy => exact hg.elim
  refine h.keeps hsettles (hlike.orderly h.orderly) (hlike.arranged (fun _ _ hab => Core.SameFooting.template hab) h.arranged) ?_
  refine h.phase.imp (fun hm => ?_) fun hu => ⟨hlike.unfilled (hu.1.books hsettles.books), ?_⟩
  · exact Component.Like.each (fun _ _ hab ha => (Core.SameFooting.phase hab).trans ha) (fun _ _ _ => id) hlike hm
  · rw [Block.fragments, Component.Like.fragments _ _ hlike]
    exact hu.2

theorem create (hf : GuestsHeed B) (h : c.Accords B g w) : c.Keeps B S w g (c.create w) g := by
  by_cases hm : c.core.phase = .mounted
  · obtain ⟨core, slots, children⟩ := c
    rw [Component.create, show core.phase = .mounted from hm]
    exact h.stays
  · obtain ⟨hu, hn⟩ := h.waiting hm
    have hprepared := Block.prepares hf (.component c) (S := S) h.sober h.channels h.accounts hu hn
    exact h.keeps hprepared.toSettles (h.orderly.creating w).orderly ((c.create_values w).arranged
      (fun _ _ hab => Core.SameValues.template hab) h.arranged) (.inr ⟨hprepared.unfilled, hprepared.fragments.nodup⟩)

/-- binding a component that has been created -/
theorem mountCreated (hf : GuestsHeed B) (h : c.Accords B g w) (ha : c.Active) (hm : c.core.phase ≠ .mounted) (target : NodeId)
    (anchor : Option NodeId) : ∃ g₁, c.Keeps B [.presence] w g (c.mountCreated target anchor w) g₁ := by
  obtain ⟨hu, hn⟩ := h.waiting hm
  have hmounting := ha.mounting target anchor w
  have harranged := (c.mountCreated_values target anchor w).arranged (fun _ _ hab => Core.SameValues.template hab) h.arranged
  have hcreated : c.state = .created := by
    obtain ⟨core, slots, children⟩ := c
    have hp : core.phase.Active := ha.1
    show core.phase.state = .created
    cases hphase : core.phase with
    | created fragment => rfl
    | mounted => exact absurd hphase hm
    | unmounted => rw [hphase] at hp; exact hp.elim
    | destroyed => rw [hphase] at hp; exact hp.elim
  obtain ⟨core, slots, children⟩ := c
  obtain ⟨g₁, hsettles⟩ := Component.opens hf (fun n _ => n.block.opens hf) (fun n _ => n.block.opens hf) target anchor h.sober
    h.channels h.accounts hu
  refine ⟨g₁, ?_⟩
  by_cases hok : ((Component.mk core slots children).mountCreated target anchor w).result = .ok ()
  · exact h.keeps hsettles (.active (hmounting.ok hok).1) harranged (.inl (Component.lands hf (fun n _ => n.block.lands hf)
      (fun n _ => n.block.lands hf) target anchor h.sober h.channels h.accounts hu h.arranged ha hn hok).1)
  · have hidle := (hmounting.created hcreated hok).idle
    refine h.keeps hsettles hidle.orderly harranged (.inr ⟨Block.Idle.unfilled (b := .component _) hidle _, ?_⟩)
    rw [Block.Idle.fragments (b := .component _) hidle]
    exact .nil

theorem mount (hf : GuestsHeed B) (h : c.Accords B g w) (target : NodeId) (anchor : Option NodeId) :
    ∃ g₁, c.Keeps B [.presence] w g (c.mount target anchor w) g₁ := by
  by_cases hp : c.core.phase.Active
  · have ha := h.active hp
    cases hphase : c.core.phase with
    | unmounted => rw [hphase] at hp; exact hp.elim
    | destroyed => rw [hphase] at hp; exact hp.elim
    | mounted =>
      rw [Component.mount, hphase]
      exact ⟨g, h.stays⟩
    | created fragment =>
      rw [Component.mount, hphase]
      exact h.mountCreated hf ha (by simp [hphase]) target anchor
  · have hcreate := h.create (S := [.presence]) hf
    cases hr : (c.create w).result with
    | error fault =>
      rw [Component.mount_of_error hp target anchor hr]
      exact ⟨g, hcreate⟩
    | ok =>
      rw [Component.mount_of_ok hp target anchor hr]
      obtain ⟨ha, hs⟩ := (h.orderly.creating w).active hr
      have hm : (c.create w).self.core.phase ≠ .mounted := fun hm => by
        rw [Component.state, hm] at hs
        cases hs
      obtain ⟨g₁, hmount⟩ := hcreate.accords.mountCreated hf ha hm target anchor
      have hchannels : (c.create w).self.channels = c.channels :=
        Component.Like.channels _ _ (Component.Like.imp values_origins _ _ (c.create_values w))
      exact ⟨g₁, hcreate.books.trans (hchannels ▸ hmount.books) h.sober.intact, hmount.accords⟩

theorem destroy (hf : GuestsHeed B) (h : c.Accords B g w) (detaching : Bool) :
    ∃ g₁, c.Keeps B [.presence] w g (c.destroy detaching w) g₁ := by
  by_cases hp : c.core.phase.Active
  · have hidle := (h.active hp).destroy detaching w
    obtain ⟨g₁, hsettles⟩ := Block.closes hf (.component c) detaching h.sober h.channels h.accounts
    refine ⟨g₁, h.keeps (o := c.destroy detaching w) hsettles hidle.orderly ((c.destroy_values detaching w).arranged
      (fun _ _ hab => Core.SameValues.template hab) h.arranged) (.inr ⟨Block.Idle.unfilled (b := .component _) hidle _, ?_⟩)⟩
    rw [Block.Idle.fragments (b := .component _) hidle]
    exact .nil
  · -- nothing is done to what is neither created nor mounted
    obtain ⟨core, slots, children⟩ := c
    rw [Component.destroy]
    cases hphase : core.phase with
    | unmounted => exact ⟨g, h.stays⟩
    | destroyed => exact ⟨g, h.stays⟩
    | created fragment => exact absurd (by rw [show Component.core _ = core from rfl, hphase]; trivial) hp
    | mounted => exact absurd (by rw [show Component.core _ = core from rfl, hphase]; trivial) hp

/-- **One call** on a component that is in accord with the ledger. -/
theorem call (hf : GuestsHeed B) (h : c.Accords B g w) (call : Call NodeId) :
    ∃ g₁, c.Keeps B call.subjects w g (c.call w call) g₁ := by
  cases call with
  | create => exact ⟨g, h.create hf⟩
  | mount target anchor => exact h.mount hf target anchor
  | destroy detaching => exact h.destroy hf detaching
  | update | set | tick | transition => exact ⟨g, h.gives hf trivial⟩

end Component.Accords

theorem Component.Course.run [ForeignBlocks H] {c₀ : Component H} {w₀ : World H} (h : Course B c₀ w₀ c w)
    (calls : List (Call NodeId)) : Course B c₀ w₀ (c.run w calls).1 (c.run w calls).2 := by
  induction calls generalizing c w with
  | nil => exact h
  | cons call calls ih => exact ih (h.call call)

/-- **Any calls.** What was noted since the start is what became of the ledger. -/
theorem Component.Course.accords [ForeignBlocks H] (hf : GuestsHeed B) {c₀ : Component H} {w₀ : World H}
    (h₀ : c₀.Accords B g w₀) (h : Course B c₀ w₀ c w) : ∃ notes g₁, B.diary w.outside = B.diary w₀.outside ++ notes ∧
      Unfolds [.presence, .values] (w₀.noted B) g notes g₁ ∧ c.Accords B g₁ w := by
  induction h with
  | start => exact ⟨[], g, (List.append_nil _).symm, .done, h₀⟩
  | @call c w before call ih =>
    obtain ⟨notes, g₁, hdiary, hunfolds, haccords⟩ := ih
    obtain ⟨g₂, hbooks, hafter⟩ := haccords.call hf call
    obtain ⟨more, hgoes, hmore⟩ := hbooks.goes
    have hnoted : w.noted B = w₀.noted B + notes.length := by
      rw [World.noted, hdiary, List.length_append]
      rfl
    rw [hnoted] at hmore
    refine ⟨notes ++ more, g₂, ?_, hunfolds.trans (hmore.mono call.subjects_subset), hafter⟩
    rw [hgoes.diary, hdiary, List.append_assoc]
  | @aside c w w' before other ih =>
    obtain ⟨notes, g₁, hdiary, hunfolds, haccords⟩ := ih
    refine ⟨notes, g₁, ?_, hunfolds, haccords.aside other⟩
    rw [other.diary, hdiary, List.append_nil]
  | finds before backend ih =>
    obtain ⟨notes, g₁, hdiary, hunfolds, haccords⟩ := ih
    exact ⟨notes, g₁, hdiary, hunfolds, haccords.aside ⟨.refl haccords.sober.intact, .refl _, (List.append_nil _).symm⟩⟩

/-! ## What it comes to -/

/-- what a component has listeners for while it is mounted: one for every event placeholder -/
def Core.listenings (c : Core H) : List (String × Listener H.Handler) :=
  c.template.eventTopics.map fun e => (e.1, .channel c.channel e.2)

theorem Core.Accounts.listeners {core : Core H} {d : Document (Listener H.Handler)} (h : core.Accounts B g d) (hv : d.Valid) :
    ((d.listenersOf core.channel).map fun l => (l.event, l.listener)).Perm
      (if core.phase = .mounted then core.listenings else []) := by
  obtain ⟨ears, hheld, hmounted, hidle⟩ := h.holds
  refine ((hheld.attached.perm hv).map _).trans (List.Perm.of_eq ?_)
  split
  · next hp =>
    rw [Core.listenings, ← (hmounted hp).1, List.map_map, List.map_map]
    rfl
  · next hp => rw [(hidle hp).1, List.map_nil, List.map_nil]

namespace Component.Accords

/-- whatever is nested in a component is mounted if and only if the component is -/
theorem phases (h : c.Accords B g w) : c.Each (fun core => core.phase = .mounted ↔ c.state = .mounted) (fun _ => True) := by
  have hstate : c.state = .mounted ↔ c.core.phase = .mounted :=
    ⟨Phase.eq_mounted_of, fun he => congrArg Phase.state he⟩
  by_cases hm : c.core.phase = .mounted
  · exact Component.Each.imp (fun core hc => iff_of_true hc (hstate.2 hm)) (fun _ _ => trivial) (h.mounted hm)
  · exact Block.Each.imp (b := .component c) (fun core hc => iff_of_false hc.waiting fun he => hm (hstate.1 he))
      (fun _ _ => trivial) (h.waiting hm).1

/-- listeners are attached while it is mounted, one for every event placeholder -/
theorem listeners (h : c.Accords B g w) : c.Each (fun core =>
    ((w.document.listenersOf core.channel).map fun l => (l.event, l.listener)).Perm
      (if c.state = .mounted then core.listenings else [])) (fun _ => True) := by
  refine Block.Each.imp (b := .component c) (fun core hc => ?_) (fun _ _ => trivial)
    (Block.Each.and (b := .component c) h.accounts h.phases)
  rw [← if_congr hc.2 rfl rfl]
  exact hc.1.listeners h.sober.intact.valid

/-- actions are going on in all that is nested in it while it is mounted, and in nothing else -/
theorem ledger (h : c.Accords B g w) (k : Nat) : g k ≠ none ↔ c.state = .mounted ∧ k ∈ c.channels := by
  have hall : ∀ k ∈ (Block.component c).channels, g k ≠ none ↔ c.state = .mounted := by
    refine Block.forall_channels ?_
    refine Block.Each.imp (fun core hc => ?_) (fun _ _ => trivial) (Block.Each.and (b := .component c) h.accounts h.phases)
    obtain ⟨-, ears, -, hmounted, hidle⟩ := hc.1
    rw [← hc.2]
    exact ⟨fun hg => by_contra fun hp => hg (hidle hp).2, fun hp => (hmounted hp).2⟩
  by_cases hk : k ∈ c.channels
  · exact (hall k hk).trans (and_iff_left hk).symm
  · exact iff_of_false (fun hg => hg (h.elsewhere k hk)) fun hboth => hk hboth.2

/-- no last hook is still to run while it is not mounted -/
theorem not_due (h : c.Accords B g w) (hm : c.state ≠ .mounted) (number : Nat) : ¬ g.Due number := by
  rintro ⟨k, errands, hk, -⟩
  exact hm ((h.ledger k).1 (by rw [hk]; exact Option.some_ne_none errands)).1

/-- hooks are told values by calls that bring new values, and only while it is mounted -/
theorem told (h : c.Accords B g w) {call : Call NodeId} {n number : Nat} {notes : List Remark}
    (hu : Unfolds call.subjects n g notes g₁) (hin : .told number ∈ notes) : call.Updates ∧ c.state = .mounted := by
  have hpresence : call.subjects ⊆ [.presence] → False := fun hS => (hu.mono hS).presence_only number hin
  cases call with
  | update | set | tick =>
    obtain ⟨k, errands, -, hk, -⟩ := hu.values_only.2 _ hin
    exact ⟨trivial, ((h.ledger k).1 (by rw [hk]; exact Option.some_ne_none errands)).1⟩
  | mount | destroy => exact (hpresence (List.Subset.refl _)).elim
  | create | transition => exact (hpresence (List.nil_subset _)).elim

/-- nothing is left of a component that is dropped -/
theorem drop (h : c.Accords B g w) : ∃ more, B.diary (c.drop w).outside = B.diary w.outside ++ more ∧
    Unfolds [.presence] (w.noted B) g more .blank ∧ ∀ k ∈ c.channels, (c.drop w).document.listenersOf k = [] := by
  obtain ⟨g₁, hleft⟩ := Block.leaves (.component c) h.sober h.channels h.accounts
  obtain ⟨more, hgoes, hmore⟩ := hleft.books.goes
  have hblank : g₁ = .blank := by
    funext k
    by_cases hk : k ∈ c.channels
    · exact hleft.ledger k hk
    · exact (hleft.books.elsewhere k hk).trans (h.elsewhere k hk)
  subst hblank
  refine ⟨more, hgoes.diary, hmore, fun k hk => ?_⟩
  have hperm := (hleft.attached k hk).perm hgoes.keeps.intact.valid
  rw [List.map_nil] at hperm
  exact hperm.eq_nil

end Component.Accords

/-- the listeners and the hooks of a component at some time in its life: these notes have been made since its start, from
number `n` on, and this is what has become of the ledger -/
structure Component.Balanced (B : Logbook H) (n : Nat) (notes : List Remark) (g : Ledger) (c : Component H) (w : World H) :
    Prop where
  /-- each component in it has begun its actions in the order of their placeholders and ended all of them in the same order -/
  unfolds : Unfolds [.presence, .values] n .blank notes g
  order : ∀ k errands, g k = some errands → ∃ m, Follow m errands
  /-- actions that have begun and not ended belong to a component that is mounted, or to one that is nested in it -/
  ledger : ∀ k, g k ≠ none ↔ c.state = .mounted ∧ k ∈ c.channels
  /-- a listener for every event placeholder is attached while it is mounted, and at any other time none; they tell the channel
  of their component, which is its own -/
  channels : c.channels.Nodup
  listeners : c.Each (fun core => ((w.document.listenersOf core.channel).map fun l => (l.event, l.listener)).Perm
    (if c.state = .mounted then core.listenings else [])) (fun _ => True)
  /-- no last hook has run twice, and it has run if its action has begun and it is no longer due -/
  once : ∀ number, notes.count (.ended number) ≤ 1
  ended : ∀ number, .ended number ∈ notes ↔ number ∈ hooked n notes ∧ ¬ g.Due number
  rested : c.state ≠ .mounted → ∀ number, ¬ g.Due number
  /-- hooks have been told values only between the beginning and the end of their actions -/
  between : ∀ before number after, notes = before ++ .told number :: after →
    (n ≤ number ∧ ∃ index ends, before[number - n]? = some (.began index true ends)) ∧ .ended number ∉ before

theorem Component.Accords.balanced {n : Nat} {notes : List Remark} (h : c.Accords B g w)
    (hu : Unfolds [.presence, .values] n .blank notes g) : c.Balanced B n notes g w where
  unfolds := hu
  order := hu.follow fun _ _ hk => nomatch hk
  ledger := h.ledger
  channels := h.channels
  listeners := h.listeners
  once number := (hu.ended_iff number).1
  ended number := (hu.ended_iff number).2
  rested := h.not_due
  between _ _ _ he := hu.told_between he

/-! ## Instances -/

/-- a template that has been accepted, with no stem of a marker in its segments and with actions that note what they do -/
structure Template.Dutiful (B : Logbook H) (t : Template (Action H)) : Prop where
  accepted : t.Accepted
  free : t.MarkerFree
  notes : ∀ e ∈ spotsOf Placeholder.action? 0 t.placeholders, Action.Notes B e.1 e.2

theorem Template.Dutiful.noting {t : Template (Action H)} (h : t.Dutiful B) : t.Noting B :=
  ⟨h.accepted.sound h.free, h.notes⟩

/-- a block that can fill a slot: nothing of it is in the document or heard, and its components have such templates -/
structure Block.Readied (B : Logbook H) (w : World H) (b : Block H) : Prop where
  arranged : b.Arranged
  idle : b.Idle
  dutiful : b.Each (·.template.Dutiful B) fun _ => True
  deaf : w.document.Deaf b.channels
  below : ∀ k ∈ b.channels, k < w.channels.length

/-- where an instance of a template can be made: its document is as documents are, nobody tells channels that are still to
come, nor guarded ones on a marker, and the channels of the instance are guarded -/
structure World.Awaits (B : Logbook H) (t : Template (Action H)) (options : Options H) (w : World H) : Prop
    extends w.Proper where
  discreet : w.document.Discreet B.guarded
  guarded : ∀ k ∈ (Component.furnished t options w).channels, B.guarded k

/-- an instance is in accord with a blank ledger before anything is done with it -/
theorem Component.furnished_accords {t : Template (Action H)} {options : Options H} (ht : t.Everywhere (Template.Dutiful B))
    (hslots : ∀ e ∈ options.slots, e.2.Readied B w) (hshared : (options.slots.flatMap (·.2.channels)).Nodup)
    (hw : w.Awaits B t options) : (furnished t options w).Accords B .blank (Component.ofTemplate t options.props w).2 := by
  obtain ⟨hnodup, hwhose⟩ := furnished_nodup (t := t) (fun e he => (hslots e he).below) hshared
  have hdocument := (ofTemplate_stands t options.props w).2.2.2.document
  have hidle : (Block.component (furnished t options w)).Idle := furnished_idle (fun e he => (hslots e he).idle) w
  have hdutiful : (Block.component (furnished t options w)).Each (·.template.Dutiful B) fun _ => True :=
    furnished_each ht (fun e he => (hslots e he).dutiful) w
  have hdeaf : ∀ k ∈ (furnished t options w).channels, w.document.Hears k [] := fun k hk => by
    rcases hwhose k hk with hnew | ⟨e, he, hke⟩
    · exact hw.later k hnew
    · exact (hslots e he).deaf k hke
  refine ⟨⟨hdocument ▸ hw.intact, hdocument ▸ hw.ticketed, hdocument ▸ hw.discreet⟩, hnodup, hidle.orderly _ rfl,
    furnished_arranged (fun e he => (hslots e he).arranged) w, ?_, fun _ _ => rfl, .inr ⟨hidle.unfilled _, ?_⟩⟩
  · refine (Block.Each.and (Block.Each.and hidle hdutiful) (Block.each_channels _)).imp (fun core hc => ?_) fun _ _ => trivial
    obtain ⟨⟨hcore, htemplate⟩, hk⟩ := hc
    exact .rests ⟨htemplate.noting, hw.guarded _ hk, hcore.attributeCells ▸ List.forall_mem_nil _⟩
      (fun he => hcore.phase (by rw [he]; trivial))
      (.none hcore.cleanups hcore.updateHooks (.none (hdocument ▸ hdeaf _ hk))) rfl
  · rw [hidle.fragments]
    exact .nil

/-- **Listeners and hooks.** An instance of a template is created, mounted, updated, set, ticked and destroyed in any order, while
markers cannot be found and blocks of the host fail at any point. At any time it is balanced: while it is mounted, it has one
listener for every event placeholder in all that is nested in it, and at any other time none; no last hook of an action runs
twice, and none is still to run when the component is not mounted; hooks are told values between the beginning and the end of
their actions. A further call leaves it balanced. If it is not mounted after that, the last hooks of each component have run
one right after another, in the order of their placeholders; and hooks are told values only by calls that bring new values to a
component that is mounted. When it is dropped, last hooks run in the same way: each has then run once, and no listener is
left. -/
theorem Component.listeners_and_hooks [ForeignBlocks H] {t : Template (Action H)} {options : Options H} {w₀ : World H}
    (hf : GuestsHeed B) (ht : t.Everywhere (Template.Dutiful B)) (hslots : ∀ e ∈ options.slots, e.2.Readied B w₀)
    (hshared : (options.slots.flatMap (·.2.channels)).Nodup) (hw : w₀.Awaits B t options)
    (h : Course B (furnished t options w₀) (Component.ofTemplate t options.props w₀).2 c w) :
    let start := (Component.ofTemplate t options.props w₀).2
    ∃ notes g, B.diary w.outside = B.diary start.outside ++ notes ∧ c.Balanced B (start.noted B) notes g w ∧
      (∀ call, ∃ more g₁, B.diary (c.call w call).world.outside = B.diary w.outside ++ more ∧
        Unfolds call.subjects (w.noted B) g more g₁ ∧
        (c.call w call).self.Balanced B (start.noted B) (notes ++ more) g₁ (c.call w call).world ∧
        ((c.call w call).self.state ≠ .mounted → ∀ k errands, g k = some errands → endings errands <:+: more) ∧
        ∀ number, .told number ∈ more → call.Updates ∧ c.state = .mounted) ∧
      ∃ more, B.diary (c.drop w).outside = B.diary w.outside ++ more ∧ Unfolds [.presence] (w.noted B) g more .blank ∧
        (∀ k errands, g k = some errands → endings errands <:+: more) ∧
        (∀ number ∈ hooked (start.noted B) (notes ++ more), (notes ++ more).count (.ended number) = 1) ∧
        ∀ k ∈ c.channels, (c.drop w).document.listenersOf k = [] := by
  intro start
  obtain ⟨notes, g, hdiary, hunfolds, haccords⟩ := h.accords hf (furnished_accords ht hslots hshared hw)
  have hnoted : w.noted B = start.noted B + notes.length := by
    rw [World.noted, hdiary, List.length_append]
    rfl
  refine ⟨notes, g, hdiary, haccords.balanced hunfolds, fun call => ?_, ?_⟩
  · obtain ⟨g₁, hbooks, hafter⟩ := haccords.call hf call
    obtain ⟨more, hgoes, hmore⟩ := hbooks.goes
    have hall : Unfolds [.presence, .values] (start.noted B) .blank (notes ++ more) g₁ :=
      hunfolds.trans (hnoted ▸ hmore.mono call.subjects_subset)
    refine ⟨more, g₁, hgoes.diary, hmore, hafter.balanced hall, fun hm k errands hk => hmore.closed hk ?_, fun number hin => ?_⟩
    · exact by_contra fun hk₁ => hm ((hafter.ledger k).1 hk₁).1
    · exact haccords.told hmore hin
  · obtain ⟨more, hmore, hunfolds', hnone⟩ := haccords.drop
    have hall : Unfolds [.presence, .values] (start.noted B) .blank (notes ++ more) .blank :=
      hunfolds.trans (hnoted ▸ hunfolds'.mono (by simp))
    refine ⟨more, hmore, hunfolds', fun k errands hk => hunfolds'.closed hk rfl, fun number hin => ?_, hnone⟩
    obtain ⟨honce, hended⟩ := hall.ended_iff number
    exact Nat.le_antisymm honce (List.one_le_count_iff.2 (hended.2 ⟨hin, Ledger.not_due_blank number⟩))

end

/-! ## A host that keeps a diary -/

namespace Diarist

/-- it has blocks that can be mounted, and blocks that cannot -/
abbrev host : Host := ⟨Unit, List Remark, Bool⟩

/-- a block that fails changes nothing -/
def outcome (ok : Bool) (f : Bool) (w : World host) : Outcome host Bool :=
  ⟨f, w, if ok then .ok () else .error (.missingMarker "guest")⟩

instance : ForeignBlocks host where
  create := outcome true
  mount _ _ f := outcome f f
  update _ := outcome true
  transition _ _ f w := (f, w)
  destroy _ := outcome true
  handles _ := []

def note (remark : Remark) (w : World host) : World host := { w with outside := w.outside ++ [remark] }

def action (index : Nat) : Action host := fun _ _ w =>
  (note (.began index true true) w, ⟨some fun _ => note (.told w.outside.length), some (note (.ended w.outside.length))⟩)

/-- the diary, for which all listeners count -/
def logbook : Logbook host := ⟨id, fun _ => True⟩

theorem noted {w w' : World host} {notes : List Remark} (hd : w.document.Intact) (hw : w'.document = w.document)
    (hn : w'.outside = w.outside ++ notes) : w.Noted logbook notes w' :=
  ⟨by rw [hw]; exact .refl hd, by rw [hw]; exact .refl _, hn⟩

theorem action_notes (index : Nat) : (action index).Notes logbook index where
  stays _ _ _ _ := .refl _
  begins _ _ _ hd := noted hd rfl rfl
  tells _ _ _ _ hook hh _ _ hd' := by
    obtain rfl := Option.some.inj hh
    exact noted hd' rfl rfl
  ends _ _ _ _ hook hh _ hd' := by
    obtain rfl := Option.some.inj hh
    exact noted hd' rfl rfl

theorem guestsHeed : GuestsHeed logbook where
  create _ _ hd := noted hd rfl (List.append_nil _).symm
  mount _ _ _ _ hd _ := noted hd rfl (List.append_nil _).symm
  stays _ _ _ _ _ _ := .refl _
  update _ _ _ hd := noted hd rfl (List.append_nil _).symm
  transition _ _ _ _ hd := noted hd rfl (List.append_nil _).symm
  destroy _ _ _ hd := noted hd rfl (List.append_nil _).symm

/-- a document with a body, and nothing else -/
def blank : World host := ⟨((∅ : Document (Listener Unit)).add (.element "body" [])).1, [], .faithful, [], []⟩

theorem blank_awaits {t : Template (Action host)} {options : Options host} : blank.Awaits logbook t options := by
  have hadd := Document.retunes_add (A := Unit) Document.intact_empty (.element "body" [])
  have hnone : ∀ k, blank.document.Hears k [] := fun k =>
    Document.Hears.retunes (d := ∅) ⟨List.forall_mem_nil _, fun x n hn => by cases hn⟩ hadd List.not_mem_nil
  exact ⟨⟨hadd.intact, hadd.ticketed (fun x n hn => by cases hn), fun k _ => hnone k⟩,
    fun x n k _ hn _ => (hnone k).heard x n hn, fun _ _ => trivial⟩

end Diarist

/-- a button that is heard, with an action, around a slot and the paragraph -/
def Template.watched {A : Type} (run : A) : Template A :=
  ⟨["<button ", " ", ">", "", "</button>"],
    [.event "click" "press", .action run (some "name"), .slot "main", .child paragraph [⟨"title", "name"⟩, ⟨"body", "name"⟩]],
    [.element "button" [("data-event-0", ""), ("data-action-1", "")] [.element "mc-slot-2" [] [], .element "mc-child-3" [] []]]⟩

theorem Template.watched_accepted {A : Type} (run : A) : (watched run).Everywhere Accepted := by
  refine ⟨⟨["<button ", " ", ">", "", "</button>"], [.directive (.event "click" (some "press")),
      .directive (.action run (some "name")), .directive (.slot (some "main")),
      .directive (.component paragraph ["title=", "body=", ""] ["name", "name"])],
    define_eq_ok (c := ⟨["<button ", " ", ">", "", "</button>"], [.event "click" "press", .action run (some "name"),
      .slot "main", .child paragraph [⟨"title", "name"⟩, ⟨"body", "name"⟩]]⟩) rfl ?_ rfl⟩, ⟨paragraph_accepted, trivial⟩, trivial⟩
  rw [skeletonSource_congr ([.event "" "", .action () none, .slot "", .child () []] : List (Placeholder Unit Unit)) rfl]
  show Markup.read (skeletonSource 0 ["<button ", " ", ">", "", "</button>"] _) = _
  decide +kernel

theorem Template.watched_markerFree {A : Type} (run : A) : (watched run).Everywhere MarkerFree := by
  have hall : ∀ segment ∈ ["<p title=", ">", "</p>", "<button ", " ", ">", "", "</button>"], ∀ category ∈ Category.all,
      ¬ (stem category).toList <:+: lowerChars segment.toList := by
    decide +kernel
  have hfree : ∀ segment ∈ ["<p title=", ">", "</p>", "<button ", " ", ">", "", "</button>"], LiveMarkup.MarkerFree segment :=
    fun segment h category => hall segment h category (by cases category <;> decide)
  refine ⟨fun segment h => hfree segment ?_, ⟨fun segment h => hfree segment ?_, trivial⟩, trivial⟩
  · exact List.mem_append_right ["<p title=", ">", "</p>"] h
  · exact List.mem_append_left ["<button ", " ", ">", "", "</button>"] h

namespace Diarist

theorem watched_dutiful : (Template.watched (action 1)).Everywhere (Template.Dutiful logbook) := by
  obtain ⟨haccepted, ⟨haccepted', -⟩, -⟩ := Template.watched_accepted (action 1)
  obtain ⟨hfree, ⟨hfree', -⟩, -⟩ := Template.watched_markerFree (action 1)
  exact ⟨⟨haccepted, hfree, List.forall_mem_singleton.2 (action_notes 1)⟩,
    ⟨⟨haccepted', hfree', List.forall_mem_nil _⟩, trivial⟩, trivial⟩

def options : Options host := ⟨∅, none, none, false, [("main", .foreign true)], ∅⟩

def start : World host := (Component.ofTemplate (.watched (action 1)) options.props blank).2

/-- it is mounted, told a name and destroyed -/
def destroyed : Component host × World host := (Component.furnished (.watched (action 1)) options blank).run start
  [.mount 0 none, .update (Props.ofList [("name", .str "b")]), .destroy true]

/-- a backend that does not find the marker of the paragraph -/
def blinkered : Backend := ⟨fun _ name => name ≠ "mc-child-3", true⟩

/-- the button is mounted again through that backend -/
def retried : Outcome host (Component host) := destroyed.1.call { destroyed.2 with backend := blinkered } (.mount 0 none)

end Diarist

/-- the first action ends when the button is destroyed, and the second when mounting fails; nobody is left to listen -/
theorem Component.listeners_and_hooks_retried : Diarist.retried.self.state = .unmounted ∧
    (∃ g, Diarist.retried.self.Balanced Diarist.logbook 0
      [.began 1 true true, .told 0, .ended 0, .began 1 true true, .ended 3] g Diarist.retried.world) ∧
    ∀ k ∈ Diarist.retried.self.channels,
      (Diarist.retried.self.drop Diarist.retried.world).document.listenersOf k = [] := by
  have hslots : ∀ e ∈ Diarist.options.slots, e.2.Readied Diarist.logbook Diarist.blank := List.forall_mem_singleton.2
    ⟨(fun _ he => nomatch he), trivial, trivial, List.forall_mem_nil _, List.forall_mem_nil _⟩
  have hdestroyed : Course Diarist.logbook (furnished (.watched (Diarist.action 1)) Diarist.options Diarist.blank) Diarist.start
      Diarist.destroyed.1 Diarist.destroyed.2 := .run .start _
  have hretried : Course Diarist.logbook (furnished (.watched (Diarist.action 1)) Diarist.options Diarist.blank) Diarist.start
      Diarist.retried.self Diarist.retried.world := (hdestroyed.finds Diarist.blinkered).call (.mount 0 none)
  obtain ⟨notes, g, hdiary, hbalanced, -, more, -, -, -, -, hnone⟩ := listeners_and_hooks Diarist.guestsHeed
    Diarist.watched_dutiful hslots List.nodup_nil Diarist.blank_awaits hretried
  have hstart : Diarist.logbook.diary Diarist.start.outside = [] := by decide +kernel
  have hnotes : Diarist.logbook.diary Diarist.retried.world.outside = notes := hdiary.trans (congrArg (· ++ notes) hstart)
  have hmade : Diarist.logbook.diary Diarist.retried.world.outside =
      [.began 1 true true, .told 0, .ended 0, .began 1 true true, .ended 3] := by decide +kernel
  obtain rfl := hmade.symm.trans hnotes
  exact ⟨by decide +kernel, ⟨g, hbalanced⟩, hnone⟩

end LiveMarkup
