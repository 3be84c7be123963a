/-
Components at separate targets.

Two components, of one template or of two, each with a target of its own in one document, and neither target below the
other. Whatever is done with one of them (its calls, its subscriptions, dropping it, events dispatched at its target)
changes its own nodes and its own channels, and nothing else. So the other finds its target as it left it, and in the end
each is what it would have become by itself, in a world where nothing is done with the other.

Nodes are numbered as they come, so by itself a component has other numbers for its nodes: "the same" is up to their names.
Both parts come from one relation (`Tenant.Keeps`): a component that keeps its part of the document, between two runs or,
for what is left alone, between a run and itself.

- `Tenant.Keeps.act`: whatever is done with a component in two worlds;
- `House.Kept.act`: whatever is done with one of two;
- `House.isolated`: any number of things done with both, in any order.
-/
import LiveMarkup.Proofs.Component.Built
import LiveMarkup.Proofs.Component.TwinMount

namespace LiveMarkup

open Document

variable {H : Host}

/-! ## What can be done with a component -/

/-- the node at these child positions below a node -/
def Document.descend {L : Type} (d : Document L) : NodeId → List Nat → Option NodeId
  | id, [] => some id
  | id, position :: positions => (d.children id)[position]?.bind (d.descend · positions)

/-- what is done with a component that has a target; nodes are given by their positions below the target -/
inductive Deed (H : Host) where
  | create
  | mount (anchor : Option (List Nat))
  | update (changed : Props)
  | set (incoming : Props)
  | tick (incoming : Props) (context : Option Props)
  | transition (t : Transition) (isLocal : Bool)
  | destroy (detaching : Bool)
  | subscribe (topic : String) (handler : H.Handler)
  | unsubscribe (ticket : Nat)
  | drop
  | dispatch (node : List Nat) (event : Event) (hops : Nat)

/-- a component with the target that it is mounted into; there is no component after it was dropped -/
structure Tenant (H : Host) where
  target : NodeId
  component : Option (Component H)

namespace Tenant

def channels (t : Tenant H) : List Nat := (t.component.map Component.channels).getD []

variable [ForeignBlocks H]

def call (t : Tenant H) (w : World H) (call : Call NodeId) : Tenant H × World H :=
  match t.component with
  | some c => ({ t with component := some (c.call w call).self }, (c.call w call).world)
  | none => (t, w)

/-- what is left when something has been done; `run` is what handlers do -/
def act (run : H.Handler → Event → World H → World H) (t : Tenant H) (w : World H) : Deed H → Tenant H × World H
  | .create => t.call w .create
  | .mount anchor => t.call w (.mount t.target (anchor.bind (w.document.descend t.target)))
  | .update changed => t.call w (.update changed)
  | .set incoming => t.call w (.set incoming)
  | .tick incoming context => t.call w (.tick incoming context)
  | .transition tr isLocal => t.call w (.transition tr isLocal)
  | .destroy detaching => t.call w (.destroy detaching)
  | .subscribe topic handler =>
    match t.component with
    | some c => (t, (c.subscribe topic handler w).1)
    | none => (t, w)
  | .unsubscribe ticket =>
    match t.component with
    | some c => (t, w.updateChannel c.core.channel (·.unsubscribe ticket))
    | none => (t, w)
  | .drop =>
    match t.component with
    | some c => ({ t with component := none }, c.drop w)
    | none => (t, w)
  | .dispatch node event hops =>
    match w.document.descend t.target node with
    | some id => (t, (WorldView.whole.dispatch run hops id event w).1)
    | none => (t, w)

def live (run : H.Handler → Event → World H → World H) (t : Tenant H) (w : World H) (deeds : List (Deed H)) :
    Tenant H × World H := deeds.foldl (fun s deed => s.1.act run s.2 deed) (t, w)

end Tenant

/-! ## Components that are alike -/

/-- what one relates the other relates -/
structure Likeness.Implies (R R' : Likeness H) : Prop where
  core : ∀ c c', R.core c c' → R'.core c c'
  text : ∀ t t', R.text t t' → R'.text t t'
  foreign : ∀ f f', R.foreign f f' → R'.foreign f f'

section

variable {R R' : Likeness H}

mutual
theorem Component.Like.imp (hR : R.Implies R') : (c c' : Component H) → c.Like R c' → c.Like R' c'
  | .mk _ slots children, .mk _ slots' children', h =>
    ⟨hR.core _ _ h.1, likeAll.imp hR slots slots' h.2.1, likeAll.imp hR children children' h.2.2⟩
theorem likeAll.imp (hR : R.Implies R') : (row row' : List (Nested H)) → likeAll R row row' → likeAll R' row row'
  | [], [], _ => trivial
  | .mk _ _ block :: row, .mk _ _ block' :: row', h =>
    ⟨h.1, Block.Like.imp hR block block' h.2.1, likeAll.imp hR row row' h.2.2⟩
theorem Block.Like.imp (hR : R.Implies R') : (b b' : Block H) → b.Like R b' → b.Like R' b'
  | .text t, .text t', h => hR.text t t' h
  | .foreign f, .foreign f', h => hR.foreign f f' h
  | .component c, .component c', h => Component.Like.imp hR c c' h
end

end

/-- components with the same templates and channels, at every depth -/
def origins : Likeness H := ⟨fun c c' => c'.template = c.template ∧ c'.channel = c.channel, fun _ _ => True, fun _ _ => True⟩

theorem origins_preorder : (origins : Likeness H).Preorder where
  core_refl _ := ⟨rfl, rfl⟩
  core_trans _ _ _ h h' := ⟨h'.1.trans h.1, h'.2.trans h.2⟩
  text_refl _ := trivial
  text_trans _ _ _ _ _ := trivial
  foreign_refl _ := trivial
  foreign_trans _ _ _ _ _ := trivial

theorem values_origins : (values : Likeness H).Implies origins :=
  ⟨fun _ _ h => ⟨Core.SameValues.template h, Core.SameValues.channel h⟩, fun _ _ _ => trivial,
    fun _ _ _ => trivial⟩

theorem footing_origins : (footing : Likeness H).Implies origins :=
  ⟨fun _ _ h => ⟨Core.SameFooting.template h, Core.SameFooting.channel h⟩, fun _ _ _ => trivial,
    fun _ _ _ => trivial⟩

/-- no call changes a template or a channel -/
theorem Component.call_origins [ForeignBlocks H] (c : Component H) (w : World H) (call : Call NodeId) :
    c.Like origins (c.call w call).self := by
  have hgives : call.Gives → c.Like origins (c.call w call).self := fun hg =>
    Component.Like.imp footing_origins _ _ (c.call_footing hg w)
  cases call with
  | create => exact Component.Like.imp values_origins _ _ (c.create_values w)
  | mount target anchor => exact Component.Like.imp values_origins _ _ (c.mount_values target anchor w)
  | destroy detaching => exact Component.Like.imp values_origins _ _ (c.destroy_values detaching w)
  | _ => exact hgives trivial

mutual
theorem Component.Like.channels : (c c' : Component H) → c.Like origins c' → c'.channels = c.channels
  | .mk _ slots children, .mk _ slots' children', h => by
    rw [Component.channels, Component.channels, h.1.2, likeAll.channels slots slots' h.2.1,
      likeAll.channels children children' h.2.2]
theorem likeAll.channels : (row row' : List (Nested H)) → likeAll origins row row' → channelsOf row' = channelsOf row
  | [], [], _ => rfl
  | .mk _ _ block :: row, .mk _ _ block' :: row', h => by
    rw [channelsOf, channelsOf, Block.Like.channels block block' h.2.1, likeAll.channels row row' h.2.2]
theorem Block.Like.channels : (b b' : Block H) → b.Like origins b' → b'.channels = b.channels
  | .text _, .text _, _ => rfl
  | .foreign _, .foreign _, _ => rfl
  | .component c, .component c', h => Component.Like.channels c c' h
end

/-- the same values and the same state, and the same roots under other names -/
structure Core.Renamed (ρ : NodeId → NodeId) (c c' : Core H) : Prop where
  template : c'.template = c.template
  state : c'.phase.state = c.phase.state
  props : c'.props = c.props
  slotContext : c'.slotContext = c.slotContext
  roots : c'.roots = c.roots.map ρ
  channel : c'.channel = c.channel

/-- components that are the same but for the names of nodes, at every depth -/
def renamed (ρ : NodeId → NodeId) : Likeness H := ⟨Core.Renamed ρ, fun t t' => t'.prop = t.prop ∧ t'.data = t.data, fun _ _ => True⟩

section

variable {χ : Chart}

theorem Phase.Twin.state {p p' : Phase} (h : p.Twin χ p') : p'.state = p.state := by
  cases p <;> cases p' <;> first | rfl | exact h.elim

theorem Core.Twin.renamed {c c' : Core H} (h : c.Twin χ c') : c.Renamed χ.rename c' where
  template := h.template
  state := h.phase.state
  props := h.props
  slotContext := h.slotContext
  roots := by
    have h := h.roots
    generalize c.roots = l, c'.roots = l' at h
    induction h with
    | nil => rfl
    | cons hx _ ih => rw [ih, hx.2, List.map_cons]
  channel := h.channel

mutual
theorem Component.Twin.renamed : (c c' : Component H) → c.Twin χ c' → c.Like (renamed χ.rename) c'
  | .mk _ slots children, .mk _ slots' children', h =>
    ⟨h.1.renamed, twinAll.renamed slots slots' h.2.1, twinAll.renamed children children' h.2.2⟩
theorem twinAll.renamed : (row row' : List (Nested H)) → twinAll χ row row' → likeAll (renamed χ.rename) row row'
  | [], [], _ => trivial
  | .mk _ _ block :: row, .mk _ _ block' :: row', h =>
    ⟨h.1, Block.Twin.renamed block block' h.2.2.1, twinAll.renamed row row' h.2.2.2⟩
theorem Block.Twin.renamed : (b b' : Block H) → b.Twin χ b' → b.Like (renamed χ.rename) b'
  | .text _, .text _, h => ⟨h.prop, h.data⟩
  | .component c, .component c', h => Component.Twin.renamed c c' h
end

end

/-! ## One component in two worlds -/

section

variable {χ : Chart}

/-- positions lead to counterparts -/
theorem Chart.Relates.descend {L : Type} {d d' : Document L} (h : χ.Relates d d') (positions : List Nat) {x : NodeId}
    (hx : χ.mem x) : d'.descend (χ.rename x) positions = (d.descend x positions).map χ.rename ∧
      ∀ y ∈ d.descend x positions, χ.mem y := by
  induction positions generalizing x with
  | nil =>
    refine ⟨rfl, fun y hy => ?_⟩
    obtain rfl : x = y := Option.some.inj hy
    exact hx
  | cons position positions ih =>
    rw [Document.descend, Document.descend, h.children x hx, List.getElem?_map]
    cases hc : (d.children x)[position]? with
    | none => exact ⟨rfl, fun y hy => absurd hy (by simp)⟩
    | some c => exact ih (h.closed x hx c (List.mem_of_getElem? hc))

theorem Chart.own_of_names {l l' : List NodeId} (h : List.Forall₂ χ.Names l l') : ∀ x ∈ l, χ.own x := by
  induction h with
  | nil => exact fun _ hx => absurd hx List.not_mem_nil
  | cons hx _ ih => exact List.forall_mem_cons.2 ⟨hx.1, ih⟩

/-- a component keeps its part of two documents, and its channels are the same in both worlds -/
structure Tenant.Keeps (χ : Chart) (s s' : Tenant H × World H) : Prop where
  related : World.Related χ s.2 s'.2
  target : s.1.target = χ.target
  target' : s'.1.target = χ.rename χ.target
  component : Option.Rel (Component.Twin χ) s.1.component s'.1.component
  channels : ∀ k ∈ s.1.channels, s'.2.channel? k = s.2.channel? k

/-- something has been done in both worlds, and in the first nothing is different but what is the component's own -/
structure Tenant.Onward (χ χ₁ : Chart) (s s' s₁ s₁' : Tenant H × World H) : Prop where
  moves : World.Moves χ χ₁ s.2 s'.2 s₁.2 s₁'.2
  keeps : Tenant.Keeps χ₁ s₁ s₁'
  channels : ∀ k ∉ s.1.channels, s₁.2.channel? k = s.2.channel? k
  origins : ∀ c₁ ∈ s₁.1.component, ∃ c ∈ s.1.component, c.Like origins c₁

theorem World.channel?_of_channels {w w₁ : World H} (h : w₁.channels = w.channels) (k : Nat) :
    w₁.channel? k = w.channel? k := by
  rw [World.channel?, World.channel?, h]

theorem Component.mem_channels (c : Component H) : c.core.channel ∈ c.channels := by
  obtain ⟨core, slots, children⟩ := c
  exact List.mem_cons_self

theorem Component.Twin.channel {c c' : Component H} (h : c.Twin χ c') : c'.core.channel = c.core.channel := by
  obtain ⟨core, slots, children⟩ := c
  obtain ⟨core', slots', children'⟩ := c'
  exact h.1.channel

/-- a subscription changes one channel -/
theorem Component.subscribe_world (c : Component H) (topic : String) (handler : H.Handler) (w : World H) :
    (c.subscribe topic handler w).1 = w.updateChannel c.core.channel fun channel => (channel.subscribe topic handler).1 := by
  rw [Component.subscribe, World.channel?]
  cases hk : w.channels[c.core.channel]? with
  | none =>
    have hlen : w.channels.length ≤ c.core.channel := List.getElem?_eq_none_iff.1 hk
    rw [World.updateChannel, List.modify_eq_self hlen]
  | some channel =>
    refine congrArg (fun channels => { w with channels }) (List.ext_getElem? fun k => ?_)
    rw [List.getElem?_modify, List.getElem?_modify]
    split
    · rename_i he
      rw [← he, hk]
      rfl
    · rfl

namespace Tenant.Keeps

variable {s s' : Tenant H × World H} (h : Keeps χ s s')
include h

/-- nothing is done with the component, and what is different in the worlds is what the host adds -/
theorem aside {w₁ w₁' : World H} (hw : s.2.Aside w₁) (hw' : s'.2.Aside w₁') :
    Onward χ χ s s' (s.1, w₁) (s'.1, w₁') := by
  have hf := World.Follows.aside h.related hw hw'
  refine ⟨hf.toMoves, ⟨hf.related h.related, h.target, h.target', h.component, fun k hk => ?_⟩,
    fun k _ => World.channel?_of_channels hw.channels k, fun c hc => ⟨c, hc, .refl origins_preorder c⟩⟩
  exact (World.channel?_of_channels hw'.channels k).trans
    ((h.channels k hk).trans (World.channel?_of_channels hw.channels k).symm)

theorem rest : Onward χ χ s s' s s' := h.aside (.refl s.2) (.refl s'.2)

/-- the component's own channel is changed -/
theorem channel {c : Component H} (hc : s.1.component = some c) (f : Channel H.Handler → Channel H.Handler) :
    Onward χ χ s s' (s.1, s.2.updateChannel c.core.channel f) (s'.1, s'.2.updateChannel c.core.channel f) := by
  have hown : c.core.channel ∈ s.1.channels := by
    rw [Tenant.channels, hc]
    exact c.mem_channels
  have hm := h.related.channels (s.2.channels.modify c.core.channel f) (s'.2.channels.modify c.core.channel f)
  refine ⟨hm, ⟨hm.related h.related, h.target, h.target', h.component, fun k hk => ?_⟩, fun k hk => ?_,
    fun c hc => ⟨c, hc, .refl origins_preorder c⟩⟩
  · have := h.channels k hk
    rw [World.channel?, World.channel?] at this
    show (s'.2.channels.modify c.core.channel f)[k]? = (s.2.channels.modify c.core.channel f)[k]?
    rw [List.getElem?_modify, List.getElem?_modify, this]
  · exact World.channel?_updateChannel _ f fun e => hk (e ▸ hown)

variable [ForeignBlocks H]

/-- a call in two worlds; if actions are not steady, the two must be one -/
theorem call (call : Call NodeId)
    (hcall : ∀ target anchor, call = .mount target anchor → target = χ.target ∧ ∀ a ∈ anchor, χ.mem a)
    (hs : (∀ c ∈ s.1.component, c.Steady) ∨ s' = s ∧ χ.Fixed) : ∃ χ₁,
      Onward χ χ₁ s s' (s.1.call s.2 call) (s'.1.call s'.2 (call.rename χ.rename)) := by
  obtain ⟨⟨target, component⟩, w⟩ := s
  obtain ⟨⟨target', component'⟩, w'⟩ := s'
  have hcomponent := h.component
  dsimp only at hcomponent
  cases hcomponent with
  | none => exact ⟨χ, h.rest⟩
  | @some c c' hc =>
    have hsame : c.Steady ∨ c' = c ∧ w' = w ∧ χ.Fixed := by
      refine hs.imp (fun hs => hs c rfl) fun ⟨he, hf⟩ => ?_
      cases he
      exact ⟨rfl, rfl, hf⟩
    obtain ⟨χ₁, hf, hc₁, -⟩ := hc.call hcall hsame h.related
    have htarget : χ.rename χ.target = χ₁.rename χ₁.target := by
      rw [hf.document.extend.target, hf.document.extend.rename _ h.related.document.target_mem]
    have hkeep : ((c.call w call).self).channels = c.channels := Component.Like.channels _ _ (c.call_origins w call)
    refine ⟨χ₁, hf.toMoves, ⟨hf.related h.related, ?_, ?_, .some hc₁, fun k hk => ?_⟩, fun k _ => ?_, ?_⟩
    · exact h.target.trans hf.document.extend.target.symm
    · exact h.target'.trans htarget
    · have hk : k ∈ c.channels := by rwa [← hkeep]
      exact (World.channel?_of_channels hf.channels' k).trans
        ((h.channels k hk).trans (World.channel?_of_channels hf.channels k).symm)
    · exact World.channel?_of_channels hf.channels k
    · rintro c₁ ⟨⟩
      exact ⟨c, rfl, c.call_origins w call⟩

/-- **Whatever is done** with a component in two worlds comes to the same. -/
theorem act {run : H.Handler → Event → World H → World H} (hrun : ∀ handler event w, World.Aside w (run handler event w))
    (hs : (∀ c ∈ s.1.component, c.Steady) ∨ s' = s ∧ χ.Fixed) (deed : Deed H) : ∃ χ₁,
      Onward χ χ₁ s s' (s.1.act run s.2 deed) (s'.1.act run s'.2 deed) := by
  have hplain : ∀ call : Call NodeId, call.rename χ.rename = call → (∀ target anchor, call ≠ .mount target anchor) →
      ∃ χ₁, Onward χ χ₁ s s' (s.1.call s.2 call) (s'.1.call s'.2 call) := by
    intro call he hne
    have := h.call call (fun target anchor hc => absurd hc (hne target anchor)) hs
    rwa [he] at this
  have htarget := h.related.document.target_mem
  have hdescend : ∀ positions, s'.2.document.descend s'.1.target positions =
      (s.2.document.descend s.1.target positions).map χ.rename := by
    intro positions
    rw [h.target', h.target]
    exact (h.related.document.descend positions htarget).1
  obtain ⟨⟨target, component⟩, w⟩ := s
  obtain ⟨⟨target', component'⟩, w'⟩ := s'
  cases deed with
  | create => exact hplain .create rfl nofun
  | update changed => exact hplain (.update changed) rfl nofun
  | set incoming => exact hplain (.set incoming) rfl nofun
  | tick incoming context => exact hplain (.tick incoming context) rfl nofun
  | transition t isLocal => exact hplain (.transition t isLocal) rfl nofun
  | destroy detaching => exact hplain (.destroy detaching) rfl nofun
  | mount anchor =>
    have hanchor : ∀ a ∈ anchor.bind (w.document.descend target), χ.mem a := by
      intro a ha
      obtain ⟨positions, -, ha⟩ := Option.bind_eq_some_iff.1 ha
      exact (h.related.document.descend positions htarget).2 a (h.target ▸ ha)
    have := h.call (.mount target (anchor.bind (w.document.descend target)))
      (fun _ _ he => by cases he; exact ⟨h.target, hanchor⟩) hs
    have heq : (Call.mount target (anchor.bind (w.document.descend target))).rename χ.rename =
        .mount target' (anchor.bind (w'.document.descend target')) := by
      rw [Call.rename, show target = χ.target from h.target, show target' = χ.rename χ.target from h.target']
      cases anchor with
      | none => rfl
      | some positions =>
        have := hdescend positions
        rw [show target = χ.target from h.target, show target' = χ.rename χ.target from h.target'] at this
        exact congrArg _ this.symm
    rw [heq] at this
    exact this
  | subscribe topic handler =>
    have hcomponent := h.component
    dsimp only at hcomponent
    cases hcomponent with
    | none => exact ⟨χ, h.rest⟩
    | @some c c' hc =>
      refine ⟨χ, ?_⟩
      have hchannel : c'.core.channel = c.core.channel := Component.Twin.channel hc
      rw [Tenant.act, Tenant.act]
      dsimp only
      rw [Component.subscribe_world, Component.subscribe_world, hchannel]
      exact h.channel rfl _
  | unsubscribe ticket =>
    have hcomponent := h.component
    dsimp only at hcomponent
    cases hcomponent with
    | none => exact ⟨χ, h.rest⟩
    | @some c c' hc =>
      refine ⟨χ, ?_⟩
      have hchannel : c'.core.channel = c.core.channel := Component.Twin.channel hc
      rw [Tenant.act, Tenant.act]
      dsimp only
      rw [hchannel]
      exact h.channel rfl _
  | drop =>
    have hcomponent := h.component
    dsimp only at hcomponent
    cases hcomponent with
    | none => exact ⟨χ, h.rest⟩
    | @some c c' hc =>
      obtain ⟨hm, hk⟩ := Component.Twin.drop c c' w w' hc h.related
      refine ⟨χ, hm, ⟨hm.related h.related, h.target, h.target', .none, fun k hk => absurd hk List.not_mem_nil⟩, hk, ?_⟩
      rintro c₁ ⟨⟩
  | dispatch node event hops =>
    have hquiet : (WorldView.whole (H := H)).Quiet run := ⟨fun _ _ => rfl, hrun⟩
    have hnode := hdescend node
    refine ⟨χ, ?_⟩
    dsimp only at hnode
    rw [Tenant.act, Tenant.act, hnode]
    cases w.document.descend target node with
    | none => exact h.rest
    | some id => exact h.aside (hquiet.dispatch hops id event w) (hquiet.dispatch hops (χ.rename id) event w')

end Tenant.Keeps

end

/-! ## One of two -/

namespace Tenant

section

variable {χ ψ : Chart} {s s' : Tenant H × World H} {w : World H}

/-- a component keeps its part of the first document, whatever is done apart from it -/
theorem Keeps.spared (h : Keeps χ s s') (hs : ψ.Spares s.2.document w.document) (hi : w.document.Intact)
    (hb : w.backend = s.2.backend) (hap : χ.Apart ψ) (hk : ∀ k ∈ s.1.channels, w.channel? k = s.2.channel? k) :
    Keeps χ (s.1, w) s' where
  related := ⟨h.related.document.spared hs hi hap, h.related.backend.trans hb.symm, hb.symm ▸ h.related.even⟩
  target := h.target
  target' := h.target'
  component := h.component
  channels k hmem := (h.channels k hmem).trans (hk k hmem).symm

/-- the same of the second document, if nodes go by the same names there -/
theorem Keeps.spared_there (h : Keeps χ s s') (hf : χ.Fixed) (hs : ψ.Spares s'.2.document w.document)
    (hi : w.document.Intact) (hb : w.backend = s'.2.backend) (hap : χ.Apart ψ)
    (hk : ∀ k ∈ s.1.channels, w.channel? k = s'.2.channel? k) : Keeps χ s (s'.1, w) where
  related := ⟨h.related.document.spared_there hs hi fun x hx => by rw [hf x hx]; exact hap x hx,
    hb.trans h.related.backend, h.related.even⟩
  target := h.target
  target' := h.target'
  component := h.component
  channels k hmem := (hk k hmem).trans (h.channels k hmem)

/-- no channel is another's -/
theorem Onward.channels_subset {χ₁ : Chart} {s₁ s₁' : Tenant H × World H} (h : Onward χ χ₁ s s' s₁ s₁') :
    s₁.1.channels ⊆ s.1.channels := by
  intro k hk
  have horigins := h.origins
  rw [Tenant.channels] at hk ⊢
  cases hc : s₁.1.component with
  | none =>
    rw [hc] at hk
    exact absurd hk List.not_mem_nil
  | some c₁ =>
    rw [hc] at hk horigins
    obtain ⟨c, hc, hlike⟩ := horigins c₁ rfl
    rw [Option.mem_def.1 hc]
    show k ∈ c.channels
    rw [← Component.Like.channels c c₁ hlike]
    exact hk

end

end Tenant

inductive Side where
  | left
  | right
deriving DecidableEq

def Side.other : Side → Side
  | left => right
  | right => left

theorem Side.other_ne (s : Side) : s.other ≠ s := by
  cases s <;> decide

theorem Side.eq_or_other (s t : Side) : t = s ∨ t = s.other := by
  cases s <;> cases t <;> decide

theorem Side.other_other (s : Side) : s.other.other = s := by
  cases s <;> rfl

/-- two components in one world, each with a target -/
structure House (H : Host) where
  tenants : Side → Tenant H
  world : World H

namespace House

/-- a component with the world -/
def lodging (h : House H) (s : Side) : Tenant H × World H := (h.tenants s, h.world)

/-- neither target is below the other, nothing has been mounted yet, no channel is shared, and actions leave documents
and components alone -/
structure Opens (h : House H) : Prop where
  document : h.world.document.Intact
  backend : h.world.backend.Even
  target : ∀ s, h.world.document.node? (h.tenants s).target ≠ none
  apart : ∀ s, h.world.document.contains (h.tenants s).target (h.tenants s.other).target = false
  idle : ∀ s, ∀ c ∈ (h.tenants s).component, c.Idle
  built : ∀ s, ∀ c ∈ (h.tenants s).component, c.Built
  discreet : ∀ s, ∀ c ∈ (h.tenants s).component, c.Each (·.template.Discreet) fun _ => True
  channels : ∀ s, List.Disjoint (h.tenants s).channels (h.tenants s.other).channels

/-- what there is of a component and of its target is in the second house as it is in the first -/
structure Spared [ForeignBlocks H] (s : Side) (h h₁ : House H) : Prop where
  tenant : h₁.tenants s = h.tenants s
  tree : h₁.world.document.treeOf (h.tenants s).target = h.world.document.treeOf (h.tenants s).target
  innerHtml : h₁.world.document.innerHtml (h.tenants s).target = h.world.document.innerHtml (h.tenants s).target
  listeners : h₁.world.document.listenerCountBelow (h.tenants s).target =
    h.world.document.listenerCountBelow (h.tenants s).target
  held : ∀ c ∈ (h.tenants s).component, ∀ x ∈ c.handles, h₁.world.document.treeOf x = h.world.document.treeOf x
  channels : ∀ k ∈ (h.tenants s).channels, h₁.world.channel? k = h.world.channel? k
  subscribers : ∀ c ∈ (h.tenants s).component, ∀ topic, c.subscribers topic h₁.world = c.subscribers topic h.world

/-- each component keeps its part of the document, and the parts are apart -/
structure Kept (χ : Side → Chart) (h : House H) : Prop where
  keeps : ∀ s, (Tenant.Keeps (χ s)) (h.lodging s) (h.lodging s)
  fixed : ∀ s, (χ s).Fixed
  apart : ∀ s, (χ s).Apart (χ s.other)
  channels : ∀ s, List.Disjoint (h.tenants s).channels (h.tenants s.other).channels

variable [ForeignBlocks H]

def act (run : H.Handler → Event → World H → World H) (h : House H) (e : Side × Deed H) : House H :=
  let o := (h.tenants e.1).act run h.world e.2
  ⟨Function.update h.tenants e.1 o.1, o.2⟩

def play (run : H.Handler → Event → World H → World H) (h : House H) (deeds : List (Side × Deed H)) : House H :=
  deeds.foldl (act run) h

def deedsOf (s : Side) (deeds : List (Side × Deed H)) : List (Deed H) :=
  (deeds.filter (·.1 = s)).map (·.2)

section

variable {run : H.Handler → Event → World H → World H} {h : House H}

theorem act_self (s : Side) (deed : Deed H) :
    (h.act run (s, deed)).lodging s = (h.tenants s).act run h.world deed :=
  Prod.ext (Function.update_self s _ h.tenants) rfl

theorem act_other (s : Side) (deed : Deed H) : (h.act run (s, deed)).tenants s.other = h.tenants s.other :=
  Function.update_of_ne s.other_ne _ h.tenants

/-- **Something is done with one of two.** It goes on in its part, and the other keeps its own. -/
theorem Kept.act {χ : Side → Chart} (hk : h.Kept χ)
    (hrun : ∀ handler event w, World.Aside w (run handler event w)) (s : Side) (deed : Deed H) : ∃ ξ,
      Tenant.Onward (χ s) ξ (h.lodging s) (h.lodging s) ((h.act run (s, deed)).lodging s)
          ((h.act run (s, deed)).lodging s) ∧
        (h.act run (s, deed)).Kept (Function.update χ s ξ) := by
  obtain ⟨ξ, hon⟩ := (hk.keeps s).act hrun (.inr ⟨rfl, hk.fixed s⟩) deed
  have hon : Tenant.Onward (χ s) ξ (h.lodging s) (h.lodging s) ((h.act run (s, deed)).lodging s)
      ((h.act run (s, deed)).lodging s) := by
    rw [act_self]
    exact hon
  have hself : (Function.update χ s ξ) s = ξ := Function.update_self s ξ χ
  have hother : (Function.update χ s ξ) s.other = χ s.other := Function.update_of_ne s.other_ne ξ χ
  have hdoc := hon.moves.document
  have hapart : (χ s.other).Apart ξ := by
    have := hk.apart s.other
    rw [s.other_other] at this
    exact (this.grow_there (hk.keeps s.other).related.document hdoc.extend)
  have hchannels : List.Disjoint ((h.act run (s, deed)).tenants s).channels (h.tenants s.other).channels :=
    fun k hk₁ => hk.channels s (hon.channels_subset hk₁)
  have hspared : ∀ k ∈ (h.tenants s.other).channels, (h.act run (s, deed)).world.channel? k = h.world.channel? k :=
    fun k hk₁ => hon.channels k fun hk₂ => hk.channels s hk₂ hk₁
  have hintact := hdoc.relates.intact
  refine ⟨ξ, hon, ⟨fun t => ?_, fun t => ?_, fun t => ?_, fun t => ?_⟩⟩
  · obtain rfl | rfl := Side.eq_or_other s t
    · rw [hself]
      exact hon.keeps
    · rw [hother, lodging, act_other]
      exact ((hk.keeps s.other).spared hdoc.spares hintact hon.moves.backend hapart hspared).spared_there
        (hk.fixed s.other) hdoc.spares hintact hon.moves.backend hapart hspared
  · obtain rfl | rfl := Side.eq_or_other s t
    · rw [hself]
      exact (hdoc.fixed rfl (hk.fixed t)).2
    · rw [hother]
      exact hk.fixed s.other
  · obtain rfl | rfl := Side.eq_or_other s t
    · rw [hself, hother]
      exact (hk.apart t).grow (hk.keeps t).related.document hdoc.extend (hk.keeps t.other).related.document
    · rw [s.other_other, hself, hother]
      exact hapart
  · obtain rfl | rfl := Side.eq_or_other s t
    · rw [act_other]
      exact hchannels
    · rw [s.other_other, act_other]
      exact hchannels.symm

/-- what is done with one leaves the other alone -/
theorem Kept.spared {χ : Side → Chart} (hk : h.Kept χ)
    (hrun : ∀ handler event w, World.Aside w (run handler event w)) (s : Side) (deed : Deed H) :
    h.Spared s (h.act run (s.other, deed)) := by
  obtain ⟨ξ, hon, -⟩ := hk.act hrun s.other deed
  have hkeeps := hk.keeps s
  have hapart : (χ s).Apart ξ := (hk.apart s).grow_there hkeeps.related.document hon.moves.document.extend
  have htree : ∀ x, (χ s).mem x →
      (h.act run (s.other, deed)).world.document.treeOf x = h.world.document.treeOf x := fun x hx =>
    hkeeps.related.document.treeOf_spared hon.moves.document.spares hon.moves.document.relates.intact hapart hx
  have hrelates := hkeeps.related.document.spared hon.moves.document.spares hon.moves.document.relates.intact hapart
  have htarget : (χ s).mem (h.tenants s).target := by
    rw [show (h.tenants s).target = (χ s).target from hkeeps.target]
    exact hkeeps.related.document.target_mem
  have hname : (χ s).rename (h.tenants s).target = (h.tenants s).target := hk.fixed s _ htarget
  have hchannels : ∀ k ∈ (h.tenants s).channels,
      (h.act run (s.other, deed)).world.channel? k = h.world.channel? k := fun k hk₁ =>
    hon.channels k fun hk₂ => hk.channels s hk₁ hk₂
  refine ⟨?_, htree _ htarget, ?_, ?_, fun c hc x hx => htree x ?_, hchannels, fun c hc topic => ?_⟩
  · have hother : (h.act run (s.other, deed)).tenants s.other.other = h.tenants s.other.other := act_other s.other deed
    rwa [s.other_other] at hother
  · have := hrelates.innerHtml htarget
    rw [hname] at this
    exact this.symm
  · have := hrelates.listenerCountBelow htarget
    rw [hname] at this
    exact this.symm
  · have hcomponent := hkeeps.component
    rw [show (h.lodging s).1.component = some c from hc] at hcomponent
    cases hcomponent with
    | some htwin =>
      exact hkeeps.related.document.own_mem x (Chart.own_of_names (Component.Twin.handles c c htwin) x hx)
  · have hmem : c.core.channel ∈ (h.tenants s).channels := by
      rw [Tenant.channels, Option.mem_def.1 hc]
      exact c.mem_channels
    rw [Component.subscribers, Component.subscribers, hchannels _ hmem]

/-! ## As if by itself -/

end

end House

/-- a component and what is below its target are the same in both worlds, but for the names of nodes -/
structure Tenant.Mirrored [ForeignBlocks H] (ρ : NodeId → NodeId) (s s' : Tenant H × World H) : Prop where
  injective : Function.Injective ρ
  target : s'.1.target = s.1.target
  rename_target : ρ s.1.target = s.1.target
  component : Option.Rel (Component.Like (renamed ρ)) s.1.component s'.1.component
  tree : s'.2.document.treeOf s.1.target = (s.2.document.treeOf s.1.target).map (Node.rename ρ)
  innerHtml : s'.2.document.innerHtml s.1.target = s.2.document.innerHtml s.1.target
  listeners : s'.2.document.listenerCountBelow s.1.target = s.2.document.listenerCountBelow s.1.target
  held : ∀ c ∈ s.1.component, ∀ x ∈ c.handles,
    s'.2.document.treeOf (ρ x) = (s.2.document.treeOf x).map (Node.rename ρ)
  channels : ∀ k ∈ s.1.channels, s'.2.channel? k = s.2.channel? k

theorem Tenant.Keeps.mirrored [ForeignBlocks H] {χ : Chart} {s s' : Tenant H × World H} (h : Keeps χ s s')
    (ht : χ.rename χ.target = χ.target) : Mirrored χ.rename s s' := by
  have hmem := h.related.document.target_mem
  have hname : χ.rename s.1.target = s.1.target := by rw [h.target, ht]
  rw [← h.target] at hmem
  refine ⟨h.related.document.injective, ?_, hname, ?_, ?_, ?_, ?_, fun c hc x hx => ?_, h.channels⟩
  · rw [h.target', ht, h.target]
  · have := h.component
    generalize s.1.component = o, s'.1.component = o' at this
    cases this with
    | none => exact .none
    | some hc => exact .some (Component.Twin.renamed _ _ hc)
  · have := h.related.document.treeOf hmem
    rwa [hname] at this
  · have := h.related.document.innerHtml hmem
    rwa [hname] at this
  · have := h.related.document.listenerCountBelow hmem
    rwa [hname] at this
  · have hcomponent := h.component
    rw [Option.mem_def.1 hc] at hcomponent
    generalize s'.1.component = o' at hcomponent
    cases hcomponent with
    | some htwin =>
      exact h.related.document.treeOf
        (h.related.document.own_mem x (Chart.own_of_names (Component.Twin.handles _ _ htwin) x hx))

/-! ## Before anything is mounted -/

/-- what is below a node, before anybody owns any of it -/
def Chart.around {L : Type} (d : Document L) (target : NodeId) : Chart :=
  ⟨fun x => d.contains target x = true, fun _ => False, target, id⟩

theorem Chart.around_relates {L : Type} {d : Document L} (hi : d.Intact) {target : NodeId}
    (ht : d.node? target ≠ none) : (around d target).Relates d d := by
  have hmem : ∀ x, d.contains target x = true → x < d.fresh := by
    intro x hx
    rcases (contains_iff hi.valid).1 hx with rfl | ⟨p, hp, -⟩
    · exact hi.valid.below (mem_ids_of_node? hi.valid ht)
    · exact hi.valid.below (mem_ids_of_parent? hi.valid hp).2
  exact
    { intact := hi
      intact' := hi
      injective := Function.injective_id
      below := fun x hx => ⟨hmem x hx, hmem x hx⟩
      own_mem := fun _ ho => ho.elim
      target_mem := contains_self d target
      target_own := id
      closed := fun x hx c hc => (contains_iff hi.valid).2 (.inr ⟨x, (mem_children_iff hi.valid).1 hc, hx⟩)
      own_closed := fun _ ho => ho.elim
      up := fun x hx hne p hp => by
        rcases (contains_iff hi.valid).1 hx with rfl | ⟨q, hq, hin⟩
        · exact absurd rfl hne
        · rw [hp] at hq
          exact Option.some.inj hq ▸ hin
      own_up := fun _ ho => ho.elim
      node := fun x _ => show d.node? x = (d.node? x).map id from (congrFun Option.map_id _).symm
      children := fun x _ => (List.map_id (d.children x)).symm
      parent := fun x _ _ => show d.parent? x = (d.parent? x).map id from (congrFun Option.map_id _).symm }

section

variable (χ : Chart)

theorem Core.Idle.twin {c : Core H} (h : c.Idle) (hd : c.template.Discreet) : c.Twin χ c where
  template := rfl
  discreet := hd
  phase := by
    have := h.phase
    generalize c.phase = p at this
    cases p with
    | unmounted => trivial
    | destroyed => trivial
    | created => exact absurd trivial this
    | mounted => exact absurd trivial this
  props := rfl
  slotContext := rfl
  roots := h.roots ▸ .nil
  textCells := h.textCells ▸ .nil
  attributeCells := h.attributeCells ▸ .nil
  cleanups := h.cleanups ▸ .nil
  updateHooks := h.updateHooks ▸ .nil
  channel := rfl

mutual
/-- a component that has nothing in a document is its own twin -/
theorem Component.Idle.twin : (c : Component H) → c.Idle → c.Built →
    c.Each (·.template.Discreet) (fun _ => True) → c.Twin χ c
  | .mk _ slots children, h, hb, hd => ⟨Core.Idle.twin χ h.1 hd.1, twinAll_of_idle slots h.2.1 hb.2.2.1 hd.2.1,
      twinAll_of_idle children h.2.2 hb.2.2.2 hd.2.2⟩
theorem twinAll_of_idle : (row : List (Nested H)) → eachOf Core.Idle (·.node = none) row → builtAll row →
    eachOf (·.template.Discreet) (fun _ => True) row → twinAll χ row row
  | [], _, _, _ => trivial
  | .mk _ _ block :: row, h, hb, hd =>
    ⟨rfl, rfl, Block.Idle.twin block h.1 hb.1 hd.1, twinAll_of_idle row h.2 hb.2 hd.2⟩
theorem Block.Idle.twin : (b : Block H) → b.Idle → b.Built → b.Each (·.template.Discreet) (fun _ => True) → b.Twin χ b
  | .text t, h, _, _ => ⟨rfl, rfl, (show t.node = none from h) ▸ .none⟩
  | .component c, h, hb, hd => Component.Idle.twin c h hb hd
end

end

namespace House

theorem Opens.keeps {h : House H} (ho : h.Opens) {χ : Side → Chart}
    (hχ : ∀ s, χ s = .around h.world.document (h.tenants s).target) (s : Side) {w : World H}
    (hd : w.document = h.world.document) (hb : w.backend = h.world.backend)
    (hk : ∀ k ∈ (h.tenants s).channels, w.channel? k = h.world.channel? k) :
    Tenant.Keeps (χ s) (h.lodging s) (h.tenants s, w) := by
  rw [hχ s]
  refine ⟨⟨?_, hb, ho.backend⟩, rfl, rfl, ?_, hk⟩
  · rw [hd]
    exact Chart.around_relates ho.document (ho.target s)
  · have hidle := ho.idle s
    have hbuilt := ho.built s
    have hdiscreet := ho.discreet s
    rw [lodging]
    generalize (h.tenants s).component = o at hidle hbuilt hdiscreet
    cases o with
    | none => exact .none
    | some c => exact .some (Component.Idle.twin _ c (hidle c rfl) (hbuilt c rfl) (hdiscreet c rfl))

theorem Opens.kept {h : House H} (ho : h.Opens) :
    h.Kept fun s => .around h.world.document (h.tenants s).target where
  keeps s := ho.keeps (fun _ => rfl) s rfl rfl fun _ _ => rfl
  fixed _ _ _ := rfl
  apart s := by
    intro x hx
    refine ⟨id, fun e => ?_⟩
    have hx : h.world.document.contains (h.tenants s).target x = true := hx
    rw [show x = (h.tenants s.other).target from e, ho.apart s] at hx
    cases hx
  channels := ho.channels

section

variable [ForeignBlocks H] {run : H.Handler → Event → World H → World H} {h : House H}

/-- each goes on in its part -/
theorem Kept.play {χ : Side → Chart} (hk : h.Kept χ)
    (hrun : ∀ handler event w, World.Aside w (run handler event w)) (deeds : List (Side × Deed H)) :
    ∃ ξ, (h.play run deeds).Kept ξ := by
  induction deeds generalizing h χ with
  | nil => exact ⟨χ, hk⟩
  | cons e deeds ih =>
    obtain ⟨ξ, -, hk'⟩ := hk.act hrun e.1 e.2
    exact ih hk'

/-- no deed changes a template or a channel -/
theorem Kept.origins {χ : Side → Chart} (hk : h.Kept χ)
    (hrun : ∀ handler event w, World.Aside w (run handler event w)) (deeds : List (Side × Deed H)) (s : Side) :
    ∀ c₁ ∈ ((h.play run deeds).tenants s).component, ∃ c ∈ (h.tenants s).component, c.Like LiveMarkup.origins c₁ := by
  induction deeds generalizing h χ with
  | nil => exact fun c hc => ⟨c, hc, .refl origins_preorder c⟩
  | cons e deeds ih =>
    obtain ⟨t, deed⟩ := e
    obtain ⟨ξ, hon, hk'⟩ := hk.act hrun t deed
    intro c₂ hc₂
    obtain ⟨c₁, hc₁, hlike⟩ := ih hk' c₂ hc₂
    obtain rfl | rfl := Side.eq_or_other t s
    · obtain ⟨c, hc, hfirst⟩ := hon.origins c₁ hc₁
      exact ⟨c, hc, hfirst.trans origins_preorder hlike⟩
    · rw [act_other] at hc₁
      exact ⟨c₁, hc₁, hlike⟩

/-- **By itself.** A component that keeps its part in a house, and in a world where nothing is done with the other, keeps
it through all deeds. -/
theorem Kept.alone {χ : Side → Chart} (hk : h.Kept χ)
    (hrun : ∀ handler event w, World.Aside w (run handler event w)) (s : Side) {ψ : Chart} {s' : Tenant H × World H}
    (hkeeps : Tenant.Keeps ψ (h.lodging s) s') (hname : ψ.rename ψ.target = ψ.target) (hap : ψ.Apart (χ s.other))
    (hs : ∀ c ∈ (h.tenants s).component, c.Steady) (deeds : List (Side × Deed H)) : ∃ ψ₁ : Chart,
      Tenant.Keeps ψ₁ ((h.play run deeds).lodging s) (s'.1.live run s'.2 (deedsOf s deeds)) ∧
        ψ₁.rename ψ₁.target = ψ₁.target := by
  induction deeds generalizing h χ ψ s' with
  | nil => exact ⟨ψ, hkeeps, hname⟩
  | cons e deeds ih =>
    obtain ⟨t, deed⟩ := e
    obtain ⟨ξ, hon, hk'⟩ := hk.act hrun t deed
    obtain rfl | rfl := Side.eq_or_other s t
    · -- its own deed: both worlds go on
      obtain ⟨ψ₁, hon'⟩ := hkeeps.act hrun (.inl hs) deed
      have hdoc := hon'.moves.document
      have hother : (Function.update χ t ξ) t.other = χ t.other := Function.update_of_ne t.other_ne ξ χ
      have hap₁ : ψ₁.Apart ((Function.update χ t ξ) t.other) := by
        rw [hother]
        exact hap.grow hkeeps.related.document hdoc.extend (hk.keeps t.other).related.document
      have hname₁ : ψ₁.rename ψ₁.target = ψ₁.target := by
        rw [hdoc.extend.target, hdoc.extend.rename _ hkeeps.related.document.target_mem, hname]
      have hkeeps₁ : Tenant.Keeps ψ₁ ((h.act run (t, deed)).lodging t) (s'.1.act run s'.2 deed) := by
        rw [act_self]
        exact hon'.keeps
      have hs₁ : ∀ c ∈ ((h.act run (t, deed)).tenants t).component, c.Steady := by
        intro c₁ hc₁
        obtain ⟨c, hc, hlike⟩ := hon.origins c₁ hc₁
        exact hlike.each (fun _ _ hsame hst => by rw [hsame.1]; exact hst) (fun _ _ _ => id) (hs c hc)
      have := ih hk' hkeeps₁ hname₁ hap₁ hs₁
      rwa [deedsOf, List.filter_cons_of_pos (by simp), List.map_cons]
    · -- a deed of the other
      have hapart : ψ.Apart ξ := hap.grow_there hkeeps.related.document hon.moves.document.extend
      have hself : (Function.update χ s.other ξ) s.other = ξ := Function.update_self s.other ξ χ
      have hsame : (h.act run (s.other, deed)).tenants s = h.tenants s := by
        have hother : (h.act run (s.other, deed)).tenants s.other.other = h.tenants s.other.other :=
          act_other s.other deed
        rwa [s.other_other] at hother
      have hkeeps₁ : Tenant.Keeps ψ ((h.act run (s.other, deed)).lodging s) s' := by
        rw [lodging, hsame]
        refine hkeeps.spared hon.moves.document.spares hon.moves.document.relates.intact hon.moves.backend hapart
          fun k hk₁ => hon.channels k fun hk₂ => ?_
        exact hk.channels s hk₁ hk₂
      have := ih hk' hkeeps₁ hname (by rw [hself]; exact hapart) (by rw [hsame]; exact hs)
      rwa [deedsOf, List.filter_cons_of_neg (by simpa using s.other_ne)]

/-- **Two components are isolated.** For any two components with targets of which neither contains the other, whatever is
done with both, in any order, by calls, subscriptions, drops and dispatches to handlers that leave documents and
components alone: what is done next with one leaves all there is of the other alone; the templates at every depth are what
they were; and if whether actions leave something to run depends on their parameters alone, each component and what is
below its target are what its own deeds by themselves make of them. -/
theorem isolated (hrun : ∀ handler event w, World.Aside w (run handler event w)) (ho : h.Opens)
    (deeds : List (Side × Deed H)) (s : Side) :
    (∀ deed, (h.play run deeds).Spared s ((h.play run deeds).act run (s.other, deed))) ∧
    (∀ c₁ ∈ ((h.play run deeds).tenants s).component, ∃ c ∈ (h.tenants s).component, c.Like LiveMarkup.origins c₁) ∧
    ((∀ c ∈ (h.tenants s).component, c.Steady) → ∀ w : World H, w.document = h.world.document →
      w.backend = h.world.backend → (∀ k ∈ (h.tenants s).channels, w.channel? k = h.world.channel? k) →
        ∃ ρ, Tenant.Mirrored ρ ((h.play run deeds).lodging s) ((h.tenants s).live run w (deedsOf s deeds))) := by
  have hk := ho.kept
  refine ⟨fun deed => ?_, hk.origins hrun deeds s, fun hs w hd hb hchannels => ?_⟩
  · obtain ⟨ξ, hk'⟩ := hk.play hrun deeds
    exact hk'.spared hrun s deed
  · have hkeeps := ho.keeps (fun _ => rfl) s hd hb hchannels
    obtain ⟨ψ, hkeeps', hname⟩ := hk.alone hrun s hkeeps rfl (hk.apart s) hs deeds
    exact ⟨ψ.rename, hkeeps'.mirrored hname⟩

end

end House

/-! ## Two of one template -/

/-- a template that runs nothing -/
theorem Template.bell_inactive : (Template.bell : Template (Action H)).Everywhere fun t =>
    ∀ run param, .action run param ∉ t.placeholders := by
  refine ⟨fun run param h => ?_, ⟨fun run param h => ?_, trivial⟩, trivial⟩
  · cases h with
    | tail _ h => cases h with
      | tail _ h => cases h
  · cases h with
    | tail _ h => cases h with
      | tail _ h => cases h

theorem Template.bell_discreet : (Template.bell : Template (Action H)).Everywhere Template.Discreet :=
  Everywhere.imp (fun _ h _ run param hin => absurd hin (h run param)) _ bell_inactive bell_inactive

theorem Template.bell_steady : (Template.bell : Template (Action H)).Everywhere Template.Steady :=
  Everywhere.imp (fun _ h _ run param hin => absurd hin (h run param)) _ bell_inactive bell_inactive

/-- two places in one body -/
def World.twoPlaces : World Script.host := World.blank.edit fun d =>
  let d := (d.add (.element "div" [])).1.insertBefore 0 1 none
  (d.add (.element "div" [])).1.insertBefore 0 2 none

/-- two instances of one template, each with a place -/
def House.pair : House Script.host :=
  let one := Component.ofTemplate Template.bell (Props.ofList [("name", .str "one")]) World.twoPlaces
  let two := Component.ofTemplate Template.bell (Props.ofList [("name", .str "two")]) one.2
  ⟨fun | .left => ⟨1, some one.1⟩ | .right => ⟨2, some two.1⟩, two.2⟩

theorem House.pair_opens : pair.Opens where
  document := by
    have hblank : World.blank.document.Intact := intact_empty.add (.element "body" [])
    have hplaces : World.twoPlaces.document.Intact :=
      (((hblank.add (.element "div" [])).insertBefore 0 1 none).add (.element "div" [])).insertBefore 0 2 none
    exact hplaces
  backend _ _ _ := rfl
  target s := by cases s <;> exact Option.some_ne_none _
  apart s := by cases s <;> rfl
  idle s c hc := by
    cases s <;> (cases hc; exact (Component.ofTemplate_instance _ _ _).idle)
  built s c hc := by
    cases s <;> (cases hc; exact (Component.ofTemplate_instance _ _ _).built)
  discreet s c hc := by
    cases s <;> (cases hc; exact (Component.ofTemplate_instance _ _ _).each Template.bell_discreet)
  channels s := by
    have hone : (pair.tenants .left).channels = [0, 1] := rfl
    have htwo : (pair.tenants .right).channels = [2, 3] := rfl
    have hdisjoint : ∀ k ∈ [0, 1], k ∉ [2, 3] := by decide
    cases s with
    | left => exact fun k h h' => hdisjoint k (hone ▸ h) (htwo ▸ h')
    | right => exact fun k h h' => hdisjoint k (hone ▸ h') (htwo ▸ h)

theorem House.isolated_pair :
    let deeds : List (Side × Deed Script.host) := [(.left, .mount none), (.right, .mount none),
      (.left, .update (Props.ofList [("name", .str "three")])), (.right, .dispatch [0] ⟨"click", ""⟩ 2),
      (.left, .destroy true)]
    (pair.play (fun _ _ w => w) deeds).Spared .right
        ((pair.play (fun _ _ w => w) deeds).act (fun _ _ w => w) (.left, .mount none)) ∧
      ∃ ρ, Tenant.Mirrored ρ ((pair.play (fun _ _ w => w) deeds).lodging .right)
        ((pair.tenants .right).live (fun _ _ w => w) pair.world (deedsOf .right deeds)) := by
  intro deeds
  have hrun : ∀ (_ : Script.host.Handler) (_ : Event) (w : World Script.host), World.Aside w w := fun _ _ w => .refl w
  have h := isolated hrun pair_opens deeds .right
  refine ⟨h.1 _, h.2.2 (fun c hc => ?_) pair.world rfl rfl fun _ _ => rfl⟩
  cases hc
  exact (Component.ofTemplate_instance _ _ _).each Template.bell_steady

end LiveMarkup
