/-
Events reach those who are subscribed to them.

A component is mounted and destroyed any number of times, also in vain, and its channels, or those of components nested in
it, are subscribed to and unsubscribed from in between. After each of these acts every component in it attends to its
events, and nothing but subscribing and unsubscribing has changed who is told. So an event that is dispatched at some node
climbs to the top and, on each node that carried event placeholders for it, in their order, calls those who are subscribed
to the topic of each; what is not mounted, or dropped, calls nobody.

- `Component.Settled.does`: what one act preserves;
- `Component.Settled.acts`: what any acts preserve;
- `Component.events_reach`: who is called.
-/
import LiveMarkup.Proofs.Component.Answering
import LiveMarkup.Proofs.Event.Called

namespace LiveMarkup

variable {H : Host}

/-! ## Acts -/

/-- what is done with a component; subscriptions are made on its channel or on that of a component nested in it -/
inductive Component.Act (H : Host) where
  | mount (target : NodeId) (anchor : Option NodeId)
  | destroy (detaching : Bool)
  | subscribe (channel : Nat) (topic : String) (handler : H.Handler)
  | unsubscribe (channel ticket : Nat)

def Component.Act.tune (k : Nat) (channel : Channel H.Handler) : Component.Act H → Channel H.Handler
  | subscribe id topic handler => if id = k then (channel.subscribe topic handler).1 else channel
  | unsubscribe id ticket => if id = k then channel.unsubscribe ticket else channel
  | _ => channel

/-- no act closes a channel -/
theorem Component.Act.owned_tune (k : Nat) (acts : List (Component.Act H)) (channel : Channel H.Handler) :
    (acts.foldl (tune k) channel).owned = channel.owned := by
  induction acts generalizing channel with
  | nil => rfl
  | cons act acts ih =>
    refine (ih _).trans ?_
    cases act with
    | mount | destroy => rfl
    | subscribe | unsubscribe =>
      rw [tune]
      split <;> rfl

section

variable [ForeignBlocks H]

/-- an act, with what it does to the world -/
def Component.does (s : Component H × World H) : Component.Act H → Component H × World H
  | .mount target anchor => ((s.1.mount target anchor s.2).self, (s.1.mount target anchor s.2).world)
  | .destroy detaching => ((s.1.destroy detaching s.2).self, (s.1.destroy detaching s.2).world)
  | .subscribe id topic handler => (s.1, s.2.updateChannel id fun channel => (channel.subscribe topic handler).1)
  | .unsubscribe id ticket => (s.1, s.2.updateChannel id (·.unsubscribe ticket))

def Component.acts (c : Component H) (w : World H) (acts : List (Component.Act H)) : Component H × World H :=
  acts.foldl Component.does (c, w)

/-- no act changes the channels that the components have -/
theorem Component.channels_acts (c : Component H) (w : World H) (acts : List (Component.Act H)) :
    (c.acts w acts).1.channels = c.channels := by
  have hone : ∀ (s : Component H × World H) (act : Component.Act H), (Component.does s act).1.channels = s.1.channels := by
    intro s act
    cases act with
    | mount target anchor => exact Component.Like.channels _ _ (s.1.call_origins s.2 (.mount target anchor))
    | destroy detaching => exact Component.Like.channels _ _ (s.1.call_origins s.2 (.destroy detaching))
    | subscribe | unsubscribe => rfl
  unfold Component.acts
  have hall : ∀ s : Component H × World H, (acts.foldl Component.does s).1.channels = s.1.channels := by
    induction acts with
    | nil => exact fun _ => rfl
    | cons act acts ih => exact fun s => (ih _).trans (hone s act)
  exact hall (c, w)

end

/-! ## What acts preserve -/

/-- what holds of the channels of everything in a block holds of all its channels -/
theorem Block.forall_channels {P : Nat → Prop} {b : Block H} (h : b.Each (fun c => P c.channel) fun _ => True) :
    ∀ k ∈ b.channels, P k := by
  induction b using Block.induct with
  | text t => exact List.forall_mem_nil _
  | foreign f => exact List.forall_mem_nil _
  | component core slots children ihs ihc =>
    intro k hk
    rcases mem_channels_mk.1 hk with rfl | hk | hk
    · exact h.1
    · obtain ⟨n, hn, hk⟩ := mem_channelsOf.1 hk
      exact ihs n hn (eachOf_iff.1 h.2.1 n hn) k hk
    · obtain ⟨n, hn, hk⟩ := mem_channelsOf.1 hk
      exact ihc n hn (eachOf_iff.1 h.2.2 n hn) k hk

/-- between two acts: the component is mounted, or it has nothing in the document; everything in it attends -/
structure Component.Settled (c : Component H) (w : World H) : Prop where
  built : c.Built
  apt : (Block.component c).Each (·.template.Apt) fun _ => True
  channels : c.channels.Nodup
  intact : w.document.Intact
  ticketed : w.document.Ticketed
  attends : (Block.component c).Attends w.document
  phase : c.core.phase = .mounted ∧ c.Active ∨ c.Idle

section

variable {c c' : Component H} {w w' : World H}

/-- a component after a turn -/
theorem Component.Settled.turn (h : c.Settled w) (hv : c.Like values c') {result : Except LifecycleFault Unit}
    (ht : (Block.component c).Turn w ⟨.component c', w', result⟩)
    (hp : c'.core.phase = .mounted ∧ c'.Active ∨ c'.Idle) : c'.Settled w' where
  built := hv.built_of_values h.built
  apt := Component.Like.each (fun _ _ hab ha => Core.SameValues.template hab ▸ ha) (fun _ _ _ => id) hv h.apt
  channels := (show c'.channels = c.channels from ht.channels) ▸ h.channels
  intact := ht.tunes.tunes.intact
  ticketed := ht.tunes.tunes.ticketed h.ticketed
  attends := ht.attends
  phase := hp

/-- nobody hears a component that has nothing in the document -/
theorem Component.Settled.deaf (h : c.Settled w) (hi : c.Idle) : w.document.Deaf c.channels := by
  refine Block.forall_channels (P := fun k => w.document.Hears k []) (b := .component c) ?_
  refine (Block.Each.and h.attends hi).imp (fun core hc => hc.1.quiet fun he => hc.2.phase ?_) fun _ _ => trivial
  rw [he]
  trivial

/-- who is subscribed makes no difference to who attends -/
theorem Component.Settled.updateChannel (h : c.Settled w) (id : Nat) (f : Channel H.Handler → Channel H.Handler) :
    c.Settled (w.updateChannel id f) := ⟨h.built, h.apt, h.channels, h.intact, h.ticketed, h.attends, h.phase⟩

variable [ForeignBlocks H]

theorem Component.Settled.destroy (h : c.Settled w) (detaching : Bool) :
    (c.destroy detaching w).self.Settled (c.destroy detaching w).world ∧
      (c.destroy detaching w).world.channels = w.channels := by
  have hturn := Block.quits (b := .component c) h.built detaching h.intact h.ticketed h.channels h.attends
  exact ⟨h.turn (c.destroy_values detaching w) hturn
    (.inr (Block.destroy_idle (b := .component c) (h.phase.imp_left (·.2)) detaching w)), hturn.tunes.channels⟩

theorem Component.Settled.mount (h : c.Settled w) (target : NodeId) (anchor : Option NodeId) :
    (c.mount target anchor w).self.Settled (c.mount target anchor w).world ∧
      (c.mount target anchor w).world.channels = w.channels := by
  rcases h.phase with ⟨hp, -⟩ | hi
  · rw [Component.mount, hp]
    exact ⟨h, rfl⟩
  · have hinactive : ¬ c.core.phase.Active := by
      obtain ⟨core, slots, children⟩ := c
      exact hi.1.phase
    obtain ⟨hbuilt, hmakes⟩ := Block.makes (b := .component c) h.built hi (h.apt.imp (fun _ ha => ha.sound) fun _ _ => trivial)
    obtain ⟨hok, hadds, hawaits, -⟩ := hmakes w h.intact
    have hok : (c.create w).result = .ok () := hok
    obtain ⟨hactive, hcreated⟩ := (hi.orderly.creating w).active hok
    have hvalues := c.create_values w
    have hchannels : (Block.component (c.create w).self).channels = (Block.component c).channels :=
      Component.Like.channels _ _ (Component.Like.imp values_origins _ _ hvalues)
    have hdeaf : (c.create w).world.document.Deaf (Block.component (c.create w).self).channels :=
      hchannels ▸ (h.deaf hi).retunes hadds.tunes (List.disjoint_nil_right _)
    have hmade : World.Retunes [] w (c.create w).world := hadds.toRetunes
    have hturn := Block.enters (b := .component (c.create w).self) (hvalues.built_of_values h.built)
      (Component.Like.each (fun _ _ hab ha => Core.SameValues.template hab ▸ ha) (fun _ _ _ => id) hvalues h.apt) target anchor
      hmade.tunes.intact (hmade.tunes.ticketed h.ticketed) (hchannels ▸ h.channels) hawaits hdeaf
    have hmounting := hactive.mounting target anchor (c.create w).world
    rw [Component.mount_of_ok hinactive target anchor hok]
    refine ⟨h.turn (Component.Like.trans values_preorder hvalues ((c.create w).self.mountCreated_values target anchor _))
      (hturn.after hchannels (hmade.mono (List.nil_subset _))) ?_, hturn.tunes.channels.trans hmade.channels⟩
    by_cases hmounted : ((c.create w).self.mountCreated target anchor (c.create w).world).result = .ok ()
    · obtain ⟨ha, hs⟩ := hmounting.ok hmounted
      refine .inl ⟨?_, ha⟩
      rw [Component.state] at hs
      generalize ((c.create w).self.mountCreated target anchor (c.create w).world).self.core.phase = p at hs
      cases p <;> first | rfl | cases hs
    · exact .inr (hmounting.created hcreated hmounted).idle

/-- **One act.** -/
theorem Component.Settled.does (h : c.Settled w) (act : Component.Act H) :
    (Component.does (c, w) act).1.Settled (Component.does (c, w) act).2 ∧
      ∀ k, (Component.does (c, w) act).2.channel? k = (w.channel? k).map (act.tune k) := by
  have hsame : ∀ {w' : World H}, w'.channels = w.channels → ∀ k, w'.channel? k = (w.channel? k).map fun channel => channel :=
    fun he k => (World.channel?_of_channels he k).trans Option.map_id'.symm
  have hupdate : ∀ (f : Channel H.Handler → Channel H.Handler) (id k : Nat),
      (w.updateChannel id f).channel? k = (w.channel? k).map fun channel => if id = k then f channel else channel := by
    intro f id k
    show (w.channels.modify id f)[k]? = w.channels[k]?.map _
    rw [List.getElem?_modify]
    split <;> simp_all
  cases act with
  | mount target anchor =>
    obtain ⟨hsettled, hchannels⟩ := h.mount target anchor
    exact ⟨hsettled, hsame hchannels⟩
  | destroy detaching =>
    obtain ⟨hsettled, hchannels⟩ := h.destroy detaching
    exact ⟨hsettled, hsame hchannels⟩
  | subscribe id topic handler => exact ⟨h.updateChannel id _, hupdate _ id⟩
  | unsubscribe id ticket => exact ⟨h.updateChannel id _, hupdate _ id⟩

/-- **Any acts.** -/
theorem Component.Settled.acts (h : c.Settled w) (acts : List (Component.Act H)) :
    (c.acts w acts).1.Settled (c.acts w acts).2 ∧
      ∀ k, (c.acts w acts).2.channel? k = (w.channel? k).map fun channel => acts.foldl (Component.Act.tune k) channel := by
  induction acts generalizing c w with
  | nil => exact ⟨h, fun k => Option.map_id'.symm⟩
  | cons act acts ih =>
    obtain ⟨hone, htune⟩ := h.does act
    obtain ⟨hrest, htunes⟩ := ih hone
    refine ⟨hrest, fun k => (htunes k).trans ?_⟩
    rw [htune, Option.map_map]
    rfl

end

/-! ## Who answers -/

namespace Document

variable {d : Document (Listener H.Handler)} {k : Nat} {ears : List Ear}

/-- no listener tells this channel -/
def Unheard (k : Nat) (d : Document (Listener H.Handler)) : Prop :=
  ∀ x event, ∀ listener ∈ d.listenersFor x event, listener.channel? ≠ some k

theorem listenersFor_of_node {x : NodeId} {n : Node (Listener H.Handler)} (hn : d.node? x = some n) (event : String) :
    d.listenersFor x event = (n.listeners.filter (·.event == event)).map (·.listener) := by
  rw [node?] at hn
  obtain ⟨⟨m, below⟩, hfind, rfl⟩ := Option.map_eq_some_iff.1 hn
  rw [listenersFor, hfind]

theorem listenersFor_of_none {x : NodeId} (hn : d.node? x = none) (event : String) : d.listenersFor x event = [] := by
  rw [listenersFor, Option.map_eq_none_iff.1 hn]

/-- the listeners for a channel on a node are its ears there, in order -/
theorem Hears.listenersFor (h : d.Hears k ears) {x : NodeId} {n : Node (Listener H.Handler)} (hn : d.node? x = some n)
    (event : String) : (d.listenersFor x event).filter (·.channel? == some k) =
      (ears.filter fun ear => ear.event == event && ear.node == x).map fun ear => .channel k ear.topic := by
  have hheard : (n.listeners.filter (·.event == event)).filter (·.listener.channel? == some k) =
      (n.heard k).filter (·.event == event) := List.filter_comm ..
  rw [listenersFor_of_node hn, List.filter_map]
  show ((n.listeners.filter (·.event == event)).filter (·.listener.channel? == some k)).map _ = _
  rw [hheard, h.heard x n hn, List.filter_map, List.map_map, earsAt, List.filter_filter]
  rfl

theorem Hears.unheard (h : d.Hears k []) : d.Unheard k := by
  intro x event listener hin hk
  cases hn : d.node? x with
  | none =>
    rw [listenersFor_of_none hn] at hin
    cases hin
  | some n =>
    have hmem : listener ∈ (d.listenersFor x event).filter (·.channel? == some k) :=
      List.mem_filter.2 ⟨hin, beq_iff_eq.2 hk⟩
    rw [h.listenersFor hn] at hmem
    exact List.not_mem_nil hmem

end Document

/-- the listeners that the event placeholders of a component make for an event on a node, in their order -/
def Core.listenersAt (c : Core H) (fragment x : NodeId) (event : String) : List (Listener H.Handler) :=
  ((c.template.seats fragment).filter fun seat => seat.1 == event && seat.2.2 == some x).map fun seat =>
    .channel c.channel seat.2.1

/-- while the component is mounted, every event placeholder is on a node of its copy, and each node has the listeners that
the placeholders on it make, and no others for its channel; at any other time nobody tells its channel -/
structure Core.Answers (w : World H) (c : Core H) : Prop where
  mounted : c.phase = .mounted → ∃ fragment, w.document.Copied c.template fragment ∧
    (∀ seat ∈ c.template.seats fragment, seat.2.2 ≠ none) ∧
    ∀ x, w.document.node? x ≠ none → ∀ event,
      (w.document.listenersFor x event).filter (·.channel? == some c.channel) = c.listenersAt fragment x event
  idle : c.phase ≠ .mounted → w.document.Unheard c.channel
  topics : ∀ x event topic, .channel c.channel topic ∈ w.document.listenersFor x event →
    .event event topic ∈ c.template.placeholders

theorem Placeholder.event?_eq_some_iff {A T : Type} {p : Placeholder A T} {e : String × String} :
    p.event? = some e ↔ p = .event e.1 e.2 := by
  cases p <;> simp [event?, Prod.ext_iff]

/-- a component hears the events of its own placeholders only -/
theorem Core.mem_listenersAt {c : Core H} {fragment x : NodeId} {event topic : String}
    (h : .channel c.channel topic ∈ c.listenersAt fragment x event) : .event event topic ∈ c.template.placeholders := by
  obtain ⟨seat, hseat, he⟩ := List.mem_map.1 h
  obtain ⟨-, rfl⟩ := Listener.channel.inj he
  obtain ⟨hin, hevent⟩ := List.mem_filter.1 hseat
  rw [Bool.and_eq_true, beq_iff_eq] at hevent
  obtain ⟨spot, hspot, rfl⟩ := List.mem_map.1 hin
  obtain ⟨p, hp, hpe⟩ := mem_spotsOf_zero.1 hspot
  obtain rfl := Placeholder.event?_eq_some_iff.1 hpe
  exact hevent.1 ▸ List.mem_of_getElem? hp

theorem Core.Attends.answers {c : Core H} {w : World H} (h : c.Attends w.document) : c.Answers w := by
  obtain ⟨ears, hl, hidle, hmounted⟩ := h
  have hmounted : c.phase = .mounted → ∃ fragment, w.document.Copied c.template fragment ∧
      (∀ seat ∈ c.template.seats fragment, seat.2.2 ≠ none) ∧
      ∀ x, w.document.node? x ≠ none → ∀ event,
        (w.document.listenersFor x event).filter (·.channel? == some c.channel) = c.listenersAt fragment x event := by
    intro hp
    obtain ⟨fragment, hcopied, hseats⟩ := hmounted hp
    refine ⟨fragment, hcopied, fun seat hseat => ?_, fun x hx event => ?_⟩
    · obtain ⟨ear, -, rfl⟩ := List.mem_map.1 (hseats ▸ hseat)
      exact Option.some_ne_none _
    · obtain ⟨n, hn⟩ := Option.ne_none_iff_exists'.1 hx
      rw [hl.hears.listenersFor hn, Core.listenersAt, ← hseats, List.filter_map, List.map_map]
      rfl
  have hidle : c.phase ≠ .mounted → w.document.Unheard c.channel := fun hp => (hidle hp ▸ hl.hears).unheard
  refine ⟨hmounted, hidle, fun x event topic hin => ?_⟩
  by_cases hp : c.phase = .mounted
  · obtain ⟨fragment, -, -, hlisteners⟩ := hmounted hp
    have hx : w.document.node? x ≠ none := fun hn => by
      rw [Document.listenersFor_of_none hn] at hin
      cases hin
    have hmem : .channel c.channel topic ∈ (w.document.listenersFor x event).filter (·.channel? == some c.channel) :=
      List.mem_filter.2 ⟨hin, beq_self_eq_true _⟩
    rw [hlisteners x hx event] at hmem
    exact Core.mem_listenersAt hmem
  · exact absurd rfl (hidle hp x event _ hin)

/-! ## Instances -/

/-- an instance of a template gets the next channels there are to come, all of them new -/
theorem ofTemplate_channels (t : Template (Action H)) (props : Props) (w : World H) : ∃ n,
    (Component.ofTemplate t props w).1.channels = List.range' w.channels.length n ∧
      (Component.ofTemplate t props w).2.channels = w.channels ++ List.replicate n .new := by
  refine (Component.ofTemplate.mutual_induct
    (fun t props w => ∃ n, (Component.ofTemplate t props w).1.channels = List.range' w.channels.length n ∧
      (Component.ofTemplate t props w).2.channels = w.channels ++ List.replicate n .new)
    (fun index ps props w => ∃ n, channelsOf (childrenOf index ps props w).1 = List.range' w.channels.length n ∧
      (childrenOf index ps props w).2.channels = w.channels ++ List.replicate n .new) ?_ ?_ ?_ ?_).1 t props w
  · intro segments placeholders skeleton props w opened channel hopened children made hchildren ih
    obtain rfl : w.openChannel.1 = opened := congrArg Prod.fst hopened
    obtain ⟨n, hown, hall⟩ := ih
    have hlength : w.openChannel.1.channels.length = w.channels.length + 1 := List.length_append
    refine ⟨n + 1, ?_, hall.trans ?_⟩
    · show w.channels.length :: ([] ++ channelsOf (childrenOf 0 placeholders props w.openChannel.1).1) = _
      rw [List.nil_append, hown, hlength, List.range'_succ]
    · show w.channels ++ [.new] ++ _ = _
      exact List.append_assoc _ _ _
  · exact fun _ _ w => ⟨0, rfl, (List.append_nil _).symm⟩
  · intro index t bindings ps props w c made hc children rest hchildren ihc ihps
    rw [hc] at ihc
    obtain ⟨n, hown, hall⟩ := ihc
    obtain ⟨m, hrest, hmore⟩ := ihps
    rw [hall, List.length_append, List.length_replicate] at hrest
    rw [childrenOf, hc]
    refine ⟨n + m, ?_, hmore.trans ?_⟩
    · show c.channels ++ channelsOf (childrenOf (index + 1) ps props made).1 = _
      rw [hown, hrest, List.range'_append_1]
    · rw [hall, List.append_assoc, List.replicate_append_replicate]
  · intro index p ps props w hp ih
    rw [childrenOf_of_not_child hp]
    exact ih

/-- slot contents that share no channel share none in the slots that they fill -/
theorem channelsOf_fillSlots {T : Type} (ps : List (Placeholder (Action H) T)) (index : Nat) {contents : Entries (Block H)}
    (h : (contents.flatMap (·.2.channels)).Nodup) : (channelsOf (fillSlots index ps contents).1).Nodup ∧
      channelsOf (fillSlots index ps contents).1 ⊆ contents.flatMap (·.2.channels) := by
  induction ps generalizing index contents with
  | nil => exact ⟨List.nodup_nil, List.nil_subset _⟩
  | cons p ps ih =>
    cases p with
    | slot name =>
      rw [fillSlots]
      cases hget : contents.get? name with
      | none => exact ih (index + 1) h
      | some block =>
        have hin := Entries.mem_of_get? hget
        obtain ⟨hnodup, hapart⟩ := List.nodup_flatMap.1 h
        have hless : (contents.erase name).Sublist contents := List.filter_sublist
        have hleft : ((contents.erase name).flatMap (·.2.channels)).Nodup :=
          List.nodup_flatMap.2 ⟨fun e he => hnodup e (hless.subset he), hapart.sublist hless⟩
        obtain ⟨hrest, hsub⟩ := ih (index + 1) hleft
        refine ⟨List.nodup_append'.2 ⟨hnodup _ hin, hrest, fun k hk hk' => ?_⟩, List.append_subset.2
          ⟨fun k hk => List.mem_flatMap.2 ⟨_, hin, hk⟩, fun k hk => ?_⟩⟩
        · obtain ⟨e, he, hke⟩ := List.mem_flatMap.1 (hsub hk')
          obtain ⟨hee, hname⟩ := List.mem_filter.1 he
          have : Std.Symm fun e e' : String × Block H => List.Disjoint e.2.channels e'.2.channels := ⟨fun _ _ hd => hd.symm⟩
          refine hapart.forall hin hee (fun heq => ?_) hk hke
          rw [← heq] at hname
          simp at hname
        · obtain ⟨e, he, hke⟩ := List.mem_flatMap.1 (hsub hk)
          exact List.mem_flatMap.2 ⟨e, hless.subset he, hke⟩
    | _ => exact ih (index + 1) h

/-- a template that has been accepted, with no stem of a marker in its segments and with actions that mind where they are -/
structure Template.Civil (t : Template (Action H)) : Prop where
  accepted : t.Accepted
  free : t.MarkerFree
  minds : ∀ run param, .action run param ∈ t.placeholders → Action.Minds run

theorem Template.Civil.apt {t : Template (Action H)} (h : t.Civil) : t.Apt := ⟨h.accepted.sound h.free, h.minds⟩

/-- a block that can fill a slot: built of texts and components of such templates, nothing of it is in the document or heard,
and its components still exist -/
structure Block.Poised (w : World H) (b : Block H) : Prop where
  built : b.Built
  idle : b.Idle
  civil : b.Each (·.template.Civil) fun _ => True
  deaf : w.document.Deaf b.channels
  owned : ∀ k ∈ b.channels, ∃ channel, w.channel? k = some channel ∧ channel.owned = true

/-- a world whose document is as documents are, and in which nobody tells channels that are still to come -/
structure World.Proper (w : World H) : Prop where
  intact : w.document.Intact
  ticketed : w.document.Ticketed
  later : ∀ k, w.channels.length ≤ k → w.document.Hears k []

/-- an instance has its own channels and those of what fills its slots -/
theorem Component.mem_furnished_channels {t : Template (Action H)} {options : Options H} {w : World H} {k : Nat}
    (hk : k ∈ (furnished t options w).channels) : k ∈ (Component.ofTemplate t options.props w).1.channels ∨
      k ∈ channelsOf (fillSlots 0 t.placeholders options.slots).1 := by
  unfold furnished at hk
  generalize (Component.ofTemplate t options.props w).1 = c at hk ⊢
  obtain ⟨core, slots, children⟩ := c
  rcases mem_channels_mk.1 hk with rfl | hk | hk
  · exact .inl List.mem_cons_self
  · exact .inr hk
  · exact .inl (List.mem_cons_of_mem _ (List.mem_append_right _ hk))

/-- the channels of an instance are new ones, and those of what fills its slots -/
theorem Component.furnished_nodup {t : Template (Action H)} {options : Options H} {w : World H}
    (hold : ∀ e ∈ options.slots, ∀ k ∈ e.2.channels, k < w.channels.length)
    (hshared : (options.slots.flatMap (·.2.channels)).Nodup) : (furnished t options w).channels.Nodup ∧
      ∀ k ∈ (furnished t options w).channels, w.channels.length ≤ k ∨ ∃ e ∈ options.slots, k ∈ e.2.channels := by
  obtain ⟨n, hown, -⟩ := ofTemplate_channels t options.props w
  obtain ⟨hnodup, hsub⟩ := channelsOf_fillSlots t.placeholders 0 hshared
  have hbelow : ∀ k ∈ channelsOf (fillSlots 0 t.placeholders options.slots).1, k < w.channels.length := fun k hk => by
    obtain ⟨e, he, hke⟩ := List.mem_flatMap.1 (hsub hk)
    exact hold e he k hke
  refine ⟨?_, fun k hk => ?_⟩
  · unfold furnished
    generalize (Component.ofTemplate t options.props w).1 = c at hown
    obtain ⟨core, slots, children⟩ := c
    have hown : core.channel :: (channelsOf slots ++ channelsOf children) = List.range' w.channels.length n := hown
    have hrange : (core.channel :: (channelsOf slots ++ channelsOf children)).Nodup := hown ▸ List.nodup_range'
    have hnew : ∀ k ∈ core.channel :: channelsOf children, w.channels.length ≤ k := fun k hk => by
      have hmem : k ∈ List.range' w.channels.length n := hown ▸ by
        rcases List.mem_cons.1 hk with rfl | hk
        · exact List.mem_cons_self
        · exact List.mem_cons_of_mem _ (List.mem_append_right _ hk)
      exact (List.mem_range'_1.1 hmem).1
    obtain ⟨hnot, hboth⟩ := List.nodup_cons.1 hrange
    refine List.nodup_cons.2 ⟨fun hin => ?_, List.nodup_append'.2 ⟨hnodup, (List.nodup_append'.1 hboth).2.1, fun k hk hk' => ?_⟩⟩
    · rcases List.mem_append.1 hin with hin | hin
      · exact Nat.not_lt.2 (hnew _ List.mem_cons_self) (hbelow _ hin)
      · exact hnot (List.mem_append_right _ hin)
    · exact Nat.not_lt.2 (hnew _ (List.mem_cons_of_mem _ hk')) (hbelow k hk)
  · rcases mem_furnished_channels hk with hk | hk
    · rw [hown, List.mem_range'_1] at hk
      exact .inl hk.1
    · obtain ⟨e, he, hke⟩ := List.mem_flatMap.1 (hsub hk)
      exact .inr ⟨e, he, hke⟩

section

variable {t : Template (Action H)} {options : Options H} {w : World H} (ht : t.Everywhere Template.Civil)
  (hslots : ∀ e ∈ options.slots, e.2.Poised w) (hshared : (options.slots.flatMap (·.2.channels)).Nodup) (hw : w.Proper)
include hslots hshared hw

/-- every channel of an instance belongs to a component that exists, and nobody hears it -/
theorem Component.furnished_channels : (furnished t options w).channels.Nodup ∧
    ∀ k ∈ (furnished t options w).channels, w.document.Hears k [] ∧
      ∃ channel, (Component.ofTemplate t options.props w).2.channel? k = some channel ∧ channel.owned = true := by
  obtain ⟨n, hown, hall⟩ := ofTemplate_channels t options.props w
  have holdLt : ∀ e ∈ options.slots, ∀ k ∈ e.2.channels, k < w.channels.length := fun e he k hk => by
    obtain ⟨channel, hc, -⟩ := (hslots e he).owned k hk
    exact (List.getElem?_eq_some_iff.1 hc).1
  refine ⟨(furnished_nodup holdLt hshared).1, fun k hk => ?_⟩
  rcases mem_furnished_channels hk with hk | hk
  · rw [hown, List.mem_range'_1] at hk
    refine ⟨hw.later k hk.1, .new, ?_, rfl⟩
    rw [World.channel?, hall, List.getElem?_append_right hk.1, List.getElem?_replicate, if_pos (by omega)]
  · obtain ⟨e, he, hke⟩ := List.mem_flatMap.1 ((channelsOf_fillSlots t.placeholders 0 hshared).2 hk)
    obtain ⟨channel, hc, howned⟩ := (hslots e he).owned k hke
    refine ⟨(hslots e he).deaf k hke, channel, ?_, howned⟩
    rw [World.channel?, hall, List.getElem?_append_left (holdLt e he k hke)]
    exact hc

include ht

/-- an instance of a template has settled before anything is done with it -/
theorem Component.furnished_settled :
    (furnished t options w).Settled (Component.ofTemplate t options.props w).2 := by
  obtain ⟨hnodup, hchannels⟩ := furnished_channels (t := t) hslots hshared hw
  have hdocument := (ofTemplate_stands t options.props w).2.2.2.document
  have hidle : (furnished t options w).Idle := furnished_idle (fun e he => (hslots e he).idle) w
  have hcivil : (Block.component (furnished t options w)).Each (·.template.Civil) fun _ => True :=
    furnished_each ht (fun e he => (hslots e he).civil) w
  refine ⟨furnished_built (fun e he => (hslots e he).built) w, hcivil.imp (fun _ h => h.apt) fun _ _ => trivial, hnodup,
    hdocument ▸ hw.intact, hdocument ▸ hw.ticketed, ?_, .inr hidle⟩
  refine (Block.Each.and (b := .component (furnished t options w)) hidle (Block.each_channels _)).imp
    (fun core hc => .deaf (fun he => hc.1.phase ?_) hc.1.cleanups (hdocument ▸ (hchannels _ hc.2).1)) fun _ _ => trivial
  rw [he]
  trivial

end

/-! ## Events -/

variable [ForeignBlocks H]

/-- **Events reach those who are subscribed to them.** An instance of a template has been mounted, destroyed, subscribed to
and unsubscribed from in any way. Each component in it that is mounted has, on each node and for each event, one listener
for every event placeholder that was there, in their order; it has none for topics that its own template does not declare,
and none at all while it is not mounted. Such a listener calls those who are subscribed to its topic, in the order of
subscription: subscribing and unsubscribing alone decide who that is. A dispatch at any node climbs to the top and calls
whom the listeners on each node call, in their order; it counts the listeners. When the instance is dropped, nobody tells
its channels any longer. -/
theorem Component.events_reach {t : Template (Action H)} {options : Options H} {w₀ : World H}
    (ht : t.Everywhere Template.Civil) (hslots : ∀ e ∈ options.slots, e.2.Poised w₀)
    (hshared : (options.slots.flatMap (·.2.channels)).Nodup) (hw : w₀.Proper) (acts : List (Component.Act H)) :
    let start := (Component.ofTemplate t options.props w₀).2
    let c := ((furnished t options w₀).acts start acts).1
    let w := ((furnished t options w₀).acts start acts).2
    c.Each (Core.Answers w) (fun _ => True) ∧
      (∀ k ∈ c.channels, ∃ channel, start.channel? k = some channel ∧
        ∀ topic, w.told (.channel k topic) = (acts.foldl (Component.Act.tune k) channel).handlersOf topic) ∧
      (∀ x, ∃ path, w.document.Climbs x path ∧ path.length ≤ w.document.fresh + 1 ∧
        ∀ {S : Type} (view : WorldView H S) (run : H.Handler → Event → S → S) (s : S),
          (∀ f s, view.world (view.modify f s) = f (view.world s)) → view.world s = w → ∀ (event : Event) (hops : Nat),
          path.length ≤ hops →
          (∀ handler ∈ (w.onPath event.name path).flatMap w.told, view.Mild run handler) →
          view.calls run hops x event s = ((w.onPath event.name path).flatMap w.told).map (·, event) ∧
            (view.dispatch run hops x event s).2 = (w.onPath event.name path).length ∧
            w.Aside (view.world (view.dispatch run hops x event s).1)) ∧
      ∀ k ∈ c.channels, (c.drop w).document.Unheard k := by
  intro start c w
  obtain ⟨-, hchannels⟩ := furnished_channels (t := t) hslots hshared hw
  obtain ⟨hsettled, htuned⟩ := (furnished_settled ht hslots hshared hw).acts acts
  have hsame : c.channels = (furnished t options w₀).channels := channels_acts _ _ acts
  refine ⟨Component.Each.imp (fun core hc => hc.answers) (fun _ _ => trivial) hsettled.attends, fun k hk => ?_, fun x => ?_,
    fun k hk => ?_⟩
  · obtain ⟨-, channel, hc, howned⟩ := hchannels k (hsame ▸ hk)
    refine ⟨channel, hc, fun topic => ?_⟩
    have hopen : (acts.foldl (Component.Act.tune k) channel).isOpen = true := by
      rw [Channel.isOpen, Component.Act.owned_tune, howned, Bool.true_or]
    rw [World.told, htuned, hc]
    exact if_pos hopen
  · obtain ⟨path, hpath, hlength⟩ := Document.exists_climbs hsettled.intact.valid x
    refine ⟨path, hpath, hlength, fun view run s hview hs event hops hh hm => ?_⟩
    have h := WorldView.dispatch_calls run hview (s := s) (by rw [hs]; exact hpath) hh event (by rw [hs]; exact hm)
    rw [hs] at h
    exact h
  · exact ((Block.hushes (b := .component c) hsettled.built hsettled.intact hsettled.ticketed hsettled.channels
      hsettled.attends).deaf k hk).unheard

/-! ## A button -/

omit [ForeignBlocks H] in
theorem Template.bell_civil : (Template.bell : Template (Action H)).Everywhere Template.Civil :=
  Everywhere.imp (fun _ h hi => ⟨h.1, h.2, fun run param hin => absurd hin (hi run param)⟩) _
    (Everywhere.imp (fun _ ha hf => And.intro ha hf) _ bell_accepted bell_markerFree) bell_inactive

theorem World.blank_proper : World.blank.Proper := by
  have hadd := Document.retunes_add (A := Script.Reaction) Document.intact_empty (.element "body" [])
  refine ⟨hadd.intact, hadd.ticketed fun x n hn => ?_, fun k _ => ?_⟩
  · cases hn
  · have hnone : (∅ : Document (Listener Script.Reaction)).Hears k [] := ⟨List.forall_mem_nil _, fun x n hn => by cases hn⟩
    exact hnone.retunes hadd List.not_mem_nil

/-- the button is mounted twice, with two subscribers of which one goes: it calls the other once, what is left of the
first mount calls nobody, and nobody calls those who subscribe to the paragraph -/
theorem Component.events_reach_bell :
    let acts : List (Component.Act Script.host) := [.subscribe 0 "press" (.mk "one" []), .subscribe 0 "press" (.mk "two" []),
      .subscribe 1 "press" (.mk "three" []), .mount 0 none, .unsubscribe 0 0, .destroy false, .mount 0 none]
    let start := (Component.ofTemplate (Template.bell : Template (Action Script.host)) ∅ World.blank).2
    let c := ((furnished Template.bell Options.default World.blank).acts start acts).1
    let w := ((furnished Template.bell Options.default World.blank).acts start acts).2
    w.told (.channel 0 "press") = [.mk "two" []] ∧
      (WorldView.whole.dispatch (fun _ _ w => w) 3 9 ⟨"click", ""⟩ w).2 = 1 ∧
      (WorldView.whole.dispatch (fun _ _ w => w) 3 2 ⟨"click", ""⟩ w).2 = 0 ∧ (c.drop w).document.Unheard 0 := by
  intro acts start c w
  obtain ⟨-, htold, -, hdropped⟩ := events_reach Template.bell_civil (show ∀ e ∈ (Options.default : Options Script.host).slots,
    e.2.Poised World.blank from fun _ h => absurd h List.not_mem_nil) List.nodup_nil World.blank_proper acts
  have hchannels : c.channels = [0, 1] := by decide +kernel
  have hown : 0 ∈ c.channels := hchannels ▸ List.mem_cons_self
  obtain ⟨channel, hc, htopics⟩ := htold 0 hown
  obtain rfl : Channel.new = channel := Option.some.inj hc
  exact ⟨htopics "press", by decide +kernel, by decide +kernel, hdropped 0 hown⟩

end LiveMarkup
