/-
What attends to events goes on attending.

A block has had a turn if only its own channels have been heard by others than before, and all that is nested in it attends
afterwards. Components have channels of their own, so whatever has attended before attends after the turn of another. Hence
destroying a block, dropping it, and mounting what awaits being mounted are turns, at any depth, whatever they result in.

- `Block.quits`: a block is destroyed;
- `Block.hushes`: nobody hears what has been dropped;
- `Block.enters`: what awaits being mounted is mounted, or given up.
-/
import LiveMarkup.Proofs.Component.Attending
import LiveMarkup.Proofs.Component.Isolated

namespace LiveMarkup

open Forest

variable {H : Host}

/-! ## Channels -/

section

variable {b : Block H} {k : Nat}

theorem mem_channelsOf {row : List (Nested H)} : k ∈ channelsOf row ↔ ∃ n ∈ row, k ∈ n.block.channels := by
  induction row with
  | nil => simp [channelsOf]
  | cons n row ih =>
    obtain ⟨index, atRoot, block⟩ := n
    simp [channelsOf, ih, Nested.block]

theorem mem_channels_mk {core : Core H} {slots children : List (Nested H)} :
    k ∈ (Block.component (.mk core slots children)).channels ↔
      k = core.channel ∨ k ∈ channelsOf slots ∨ k ∈ channelsOf children := by
  rw [Block.channels, Component.channels, List.mem_cons, List.mem_append]

/-- the channel of everything that is nested in a block is one of its channels -/
theorem Block.each_channels (b : Block H) : b.Each (·.channel ∈ b.channels) fun _ => True := by
  have hblock : ∀ b : Block H, (∀ c, b = .component c → c.Each (·.channel ∈ c.channels) fun _ => True) →
      b.Each (·.channel ∈ b.channels) fun _ => True := by
    intro b hc
    cases b with
    | text t => trivial
    | foreign f => trivial
    | component c => exact hc c rfl
  have hcomponent : ∀ c : Component H, c.Each (·.channel ∈ c.channels) fun _ => True := by
    intro c
    induction c using Component.induct with
    | mk core slots children ihs ihc =>
      refine ⟨List.mem_cons_self, eachOf_iff.2 fun n hn => ?_, eachOf_iff.2 fun n hn => ?_⟩
      · exact (hblock _ (ihs n hn)).imp
          (fun core h => mem_channels_mk.2 (.inr (.inl (mem_channelsOf.2 ⟨n, hn, h⟩)))) fun _ _ => trivial
      · exact (hblock _ (ihc n hn)).imp
          (fun core h => mem_channels_mk.2 (.inr (.inr (mem_channelsOf.2 ⟨n, hn, h⟩)))) fun _ _ => trivial
  exact hblock b fun c _ => hcomponent c

/-- what holds of texts, and of a component if it holds of all that is nested in it, holds of blocks that are built -/
theorem Block.induct_of_built {P : Block H → Prop} (text : ∀ t, P (.text t))
    (component : ∀ core slots children, (∀ n ∈ slots, P n.block) → (∀ n ∈ children, P n.block) →
      P (.component (.mk core slots children))) (hb : b.Built) : P b :=
  Block.built_induct (fun t _ => text t) (fun core slots children _ => component core slots children) hb b.each_channels

end

/-! ## Turns -/

def Block.Attends (d : Document (Listener H.Handler)) (b : Block H) : Prop := b.Each (Core.Attends d) fun _ => True

/-- nobody hears these channels -/
def Document.Deaf (K : List Nat) (d : Document (Listener H.Handler)) : Prop := ∀ k ∈ K, d.Hears k []

/-- a block has had a turn: it has retuned its own channels only, and all in it attends -/
structure Block.Turn (b : Block H) (w : World H) (o : Outcome H (Block H)) : Prop where
  tunes : w.Retunes b.channels o.world
  channels : o.self.channels = b.channels
  attends : o.self.Attends o.world.document

/-- nobody hears these channels any longer, and the others are heard as before -/
structure Document.Silences (K : List Nat) (d d₁ : Document (Listener H.Handler)) : Prop where
  tunes : Retunes K d d₁
  deaf : d₁.Deaf K

structure TurnAll (row : List (Nested H)) (w : World H) (o : Outcome H (List (Nested H))) : Prop where
  tunes : w.Retunes (channelsOf row) o.world
  channels : channelsOf o.self = channelsOf row
  attends : ∀ n ∈ o.self, n.block.Attends o.world.document

section

variable {d d₁ : Document (Listener H.Handler)} {K : List Nat} {b : Block H} {row : List (Nested H)}

theorem Component.attends_mk {core : Core H} {slots children : List (Nested H)} :
    (Block.component (.mk core slots children)).Attends d ↔
      core.Attends d ∧ (∀ n ∈ slots, n.block.Attends d) ∧ ∀ n ∈ children, n.block.Attends d :=
  and_congr_right fun _ => and_congr eachOf_iff eachOf_iff

theorem Document.Deaf.retunes (h : d.Deaf K) {K' : List Nat} (hr : Document.Retunes K' d d₁) (hK : List.Disjoint K K') :
    d₁.Deaf K := fun k hk => (h k hk).retunes hr fun hin => hK hk hin

theorem Document.Deaf.subset (h : d.Deaf K) {K' : List Nat} (hK : K' ⊆ K) : d.Deaf K' := fun k hk => h k (hK hk)

theorem Document.deaf_append {K' : List Nat} : d.Deaf (K ++ K') ↔ d.Deaf K ∧ d.Deaf K' := List.forall_mem_append

/-- the turn of another makes no difference -/
theorem Block.Attends.retunes (h : b.Attends d) (hr : Document.Retunes K d d₁) (hK : List.Disjoint b.channels K) :
    b.Attends d₁ :=
  (Block.Each.and h b.each_channels).imp (fun _ hc => hc.1.retunes hr fun hin => hK hc.2 hin) fun _ _ => trivial

theorem attends_retunes (h : ∀ n ∈ row, n.block.Attends d) (hr : Document.Retunes K d d₁)
    (hK : List.Disjoint (channelsOf row) K) : ∀ n ∈ row, n.block.Attends d₁ := fun n hn =>
  (h n hn).retunes hr fun _ hk hin => hK (mem_channelsOf.2 ⟨n, hn, hk⟩) hin

/-- what waits and is not heard attends -/
theorem Block.Awaits.attends [ForeignBlocks H] (h : b.Awaits d) (hq : d.Deaf b.channels) : b.Attends d := by
  refine (Block.Each.and h.each b.each_channels).imp (fun c hc => .deaf ?_ hc.1.cleanups (hq _ hc.2)) fun _ _ => trivial
  obtain ⟨fragment, hp, -⟩ := hc.1.copy
  rw [hp]
  exact fun he => nomatch he

theorem Document.Silences.append {K' : List Nat} {d₂ : Document (Listener H.Handler)} (h : d.Silences K d₁)
    (h' : d₁.Silences K' d₂) (hK : List.Disjoint K K') : d.Silences (K ++ K') d₂ :=
  ⟨(h.tunes.mono (List.subset_append_left _ _)).trans (h'.tunes.mono (List.subset_append_right _ _)),
    deaf_append.2 ⟨h.deaf.retunes h'.tunes hK, h'.deaf⟩⟩

variable {w : World H}

theorem TurnAll.nil (hd : w.document.Intact) : TurnAll [] w (.ok [] w) := ⟨.refl hd, rfl, List.forall_mem_nil _⟩

/-- a block has had a turn, and then the blocks after it -/
theorem Block.Turn.cons {index index' : Nat} {atRoot atRoot' : Bool} {o : Outcome H (Block H)}
    {others : Outcome H (List (Nested H))} (h : b.Turn w o) (hrest : TurnAll row o.world others)
    (hn : (channelsOf (.mk index atRoot b :: row)).Nodup) {result : Except LifecycleFault Unit} :
    TurnAll (.mk index atRoot b :: row) w ⟨.mk index' atRoot' o.self :: others.self, others.world, result⟩ := by
  obtain ⟨-, -, hapart⟩ := List.nodup_append'.1 hn
  refine ⟨(h.tunes.mono (List.subset_append_left _ _)).trans (hrest.tunes.mono (List.subset_append_right _ _)),
    congrArg₂ (· ++ ·) h.channels hrest.channels, List.forall_mem_cons.2 ⟨?_, hrest.attends⟩⟩
  refine Block.Attends.retunes (b := o.self) h.attends hrest.tunes.tunes ?_
  rw [h.channels]
  exact hapart

/-- a component has had a turn, then its slot contents, and then its children -/
theorem Component.turn_mk {core c : Core H} {slots children : List (Nested H)} {w₁ w₂ : World H}
    {contents kids : Outcome H (List (Nested H))} {result : Except LifecycleFault Unit}
    (hn : (Block.component (.mk core slots children)).channels.Nodup) (hown : w.Retunes [core.channel] w₁)
    (hchannel : c.channel = core.channel) (ha : c.Attends w₁.document) (hcontents : TurnAll slots w₁ contents)
    (hkids : TurnAll children contents.world kids) (hlast : kids.world.Retunes [] w₂) :
    (Block.component (.mk core slots children)).Turn w
      ⟨.component (.mk c contents.self kids.self), w₂, result⟩ := by
  obtain ⟨hnot, hboth⟩ := List.nodup_cons.1 hn
  rw [List.mem_append, not_or] at hnot
  obtain ⟨-, -, hapart⟩ := List.nodup_append'.1 hboth
  have hslots : w₁.Retunes (Block.channels (.component (.mk core slots children))) contents.world :=
    hcontents.tunes.mono fun k hk => mem_channels_mk.2 (.inr (.inl hk))
  have hchildren : contents.world.Retunes (Block.channels (.component (.mk core slots children))) kids.world :=
    hkids.tunes.mono fun k hk => mem_channels_mk.2 (.inr (.inr hk))
  have hfirst : w.Retunes (Block.channels (.component (.mk core slots children))) w₁ := hown.mono fun k hk =>
    mem_channels_mk.2 (.inl (List.mem_singleton.1 hk))
  have hnone : ∀ L : List Nat, List.Disjoint L [] := fun L => List.disjoint_nil_right L
  refine ⟨((hfirst.trans hslots).trans hchildren).trans (hlast.mono (List.nil_subset _)), ?_,
    Component.attends_mk.2 ⟨?_, attends_retunes (attends_retunes hcontents.attends hkids.tunes.tunes ?_) hlast.tunes (hnone _),
      attends_retunes hkids.attends hlast.tunes (hnone _)⟩⟩
  · show c.channel :: (channelsOf contents.self ++ channelsOf kids.self) = _
    rw [hchannel, hcontents.channels, hkids.channels]
    rfl
  · rw [← hchannel] at hnot
    exact ((ha.retunes hcontents.tunes.tunes hnot.1).retunes hkids.tunes.tunes hnot.2).retunes hlast.tunes List.not_mem_nil
  · rw [hcontents.channels]
    exact hapart

end

/-! ## Destroying -/

section

variable [ForeignBlocks H] {w : World H} {row : List (Nested H)}

/-- what a block does in its turn when it is destroyed -/
def Block.Quits (b : Block H) : Prop :=
  ∀ (detaching : Bool) {w : World H}, w.document.Intact → w.document.Ticketed → b.channels.Nodup → b.Attends w.document →
    b.Turn w (b.destroy detaching w)

omit [ForeignBlocks H] in
/-- nobody hears it any longer when it is dropped -/
def Block.Hushes (b : Block H) : Prop :=
  ∀ {w : World H}, w.document.Intact → w.document.Ticketed → b.channels.Nodup → b.Attends w.document →
    w.document.Silences b.channels (b.drop w).document

theorem destroyAll_turn (h : ∀ n ∈ row, n.block.Quits) (detaching : Bool) (hd : w.document.Intact)
    (ht : w.document.Ticketed) (hn : (channelsOf row).Nodup) (ha : ∀ n ∈ row, n.block.Attends w.document) :
    TurnAll row w (destroyAll detaching row w) := by
  induction row generalizing w with
  | nil => exact .nil hd
  | cons n row ih =>
    obtain ⟨index, atRoot, block⟩ := n
    rw [List.forall_mem_cons] at h ha
    obtain ⟨hblock, hrest, hapart⟩ := List.nodup_append'.1 hn
    have hone := h.1 (detaching && atRoot) hd ht hblock ha.1
    exact hone.cons (ih h.2 hone.tunes.tunes.intact (hone.tunes.tunes.ticketed ht) hrest
      (attends_retunes ha.2 hone.tunes.tunes hapart.symm)) hn

omit [ForeignBlocks H] in
theorem Core.retunes_detachRoots (c : Core H) (hd : w.document.Intact) : w.Retunes [] (c.detachRoots w) := by
  unfold Core.detachRoots
  generalize c.roots = roots
  induction roots generalizing w with
  | nil => exact .refl hd
  | cons root roots ih =>
    have hone : w.Retunes [] (w.edit (·.detach root)) := ⟨rfl, Document.retunes_detach hd root⟩
    exact hone.trans (ih hone.tunes.intact)

/-- a component that is created or mounted is destroyed, whether all of its markers have been found or not -/
theorem Component.destroy_turn {core : Core H} {slots children : List (Nested H)} (hs : ∀ n ∈ slots, n.block.Quits)
    (hc : ∀ n ∈ children, n.block.Quits) (hp : core.phase.Active) (detaching : Bool) (hd : w.document.Intact)
    (ht : w.document.Ticketed) (hn : (Block.component (.mk core slots children)).channels.Nodup) {ears : List Ear}
    (hl : core.Listens ears w.document) (has : ∀ n ∈ slots, n.block.Attends w.document)
    (hac : ∀ n ∈ children, n.block.Attends w.document) :
    (Block.component (.mk core slots children)).Turn w
      (((Component.mk core slots children).destroy detaching w).map .component) := by
  have hdetached : w.Retunes [] (if detaching && core.phase = .mounted then core.detachRoots w else w) := by
    split
    · exact core.retunes_detachRoots hd
    · exact .refl hd
  obtain ⟨hundone, hdeaf⟩ := (hl.retunes hdetached.tunes List.not_mem_nil).cleanUp hdetached.tunes.intact
    (hdetached.tunes.ticketed ht)
  have hown := (hdetached.mono (List.nil_subset _)).trans hundone
  obtain ⟨hnot, hboth⟩ := List.nodup_cons.1 hn
  rw [List.mem_append, not_or] at hnot
  obtain ⟨hns, hnc, hapart⟩ := List.nodup_append'.1 hboth
  have hother : ∀ {K : List Nat}, core.channel ∉ K → List.Disjoint K [core.channel] := fun h =>
    List.disjoint_singleton.2 h
  have hcontents := destroyAll_turn hs detaching hown.tunes.intact (hown.tunes.ticketed ht) hns
    (attends_retunes has hown.tunes (hother hnot.1))
  have hkids := destroyAll_turn hc detaching hcontents.tunes.tunes.intact
    (hcontents.tunes.tunes.ticketed (hown.tunes.ticketed ht)) hnc
    (attends_retunes (attends_retunes hac hown.tunes (hother hnot.2)) hcontents.tunes.tunes hapart.symm)
  rw [Component.destroy_eq hp]
  exact Component.turn_mk (c := core.cleared) hn hown rfl (.deaf (fun he => nomatch he) rfl hdeaf) hcontents hkids
    (.refl hkids.tunes.tunes.intact)

/-- **Destroying** a block is a turn. -/
theorem Block.quits {b : Block H} (hb : b.Built) : b.Quits := by
  refine Block.induct_of_built (P := Block.Quits) (fun t detaching w hd _ _ _ => ⟨?_, rfl, trivial⟩)
    (fun core slots children ihs ihc detaching w hd ht hn ha => ?_) hb
  · show w.Retunes [] (t.destroy detaching w).2
    unfold TextBlock.destroy
    cases t.node with
    | none => exact .refl hd
    | some node =>
      cases detaching with
      | false => exact .refl hd
      | true => exact ⟨rfl, Document.retunes_detach hd node⟩
  · obtain ⟨⟨ears, hl, -⟩, has, hac⟩ := Component.attends_mk.1 ha
    by_cases hp : core.phase.Active
    · exact Component.destroy_turn ihs ihc hp detaching hd ht hn hl has hac
    · -- nothing is done to what is neither created nor mounted
      have hsame : ((Component.mk core slots children).destroy detaching w).self = .mk core slots children ∧
          ((Component.mk core slots children).destroy detaching w).world = w := by
        rw [Component.destroy]
        cases hphase : core.phase with
        | unmounted => exact ⟨rfl, rfl⟩
        | destroyed => exact ⟨rfl, rfl⟩
        | created fragment => rw [hphase] at hp; exact absurd trivial hp
        | mounted => rw [hphase] at hp; exact absurd trivial hp
      show Turn _ w ⟨.component _, _, _⟩
      rw [hsame.1, hsame.2]
      exact ⟨.refl hd, rfl, ha⟩

/-! ## Dropping -/

omit [ForeignBlocks H] in
theorem dropAll_silenced (h : ∀ n ∈ row, n.block.Hushes) (hd : w.document.Intact) (ht : w.document.Ticketed)
    (hn : (channelsOf row).Nodup) (ha : ∀ n ∈ row, n.block.Attends w.document) :
    w.document.Silences (channelsOf row) (dropAll row w).document := by
  induction row generalizing w with
  | nil => exact ⟨.refl hd, List.forall_mem_nil _⟩
  | cons n row ih =>
    obtain ⟨index, atRoot, block⟩ := n
    rw [List.forall_mem_cons] at h ha
    obtain ⟨hblock, hrest, hapart⟩ := List.nodup_append'.1 hn
    have hone := h.1 hd ht hblock ha.1
    exact hone.append (ih h.2 hone.tunes.intact (hone.tunes.ticketed ht) hrest
      (attends_retunes ha.2 hone.tunes hapart.symm)) hapart

omit [ForeignBlocks H] in
/-- **Dropping.** Nobody hears a block that has been dropped. -/
theorem Block.hushes {b : Block H} (hb : b.Built) : b.Hushes := by
  refine Block.induct_of_built (P := Block.Hushes) (fun t w hd _ _ _ => ⟨.refl hd, List.forall_mem_nil _⟩)
    (fun core slots children ihs ihc w hd ht hn ha => ?_) hb
  obtain ⟨⟨ears, hl, -⟩, has, hac⟩ := Component.attends_mk.1 ha
  obtain ⟨hown, hdeaf⟩ := hl.cleanUp hd ht
  have hfirst : w.document.Silences [core.channel] (core.cleanUp w).document :=
    ⟨hown.tunes, List.forall_mem_singleton.2 hdeaf⟩
  obtain ⟨hnot, hboth⟩ := List.nodup_cons.1 hn
  obtain ⟨hns, hnc, hapart⟩ := List.nodup_append'.1 hboth
  rw [List.mem_append, not_or] at hnot
  have hother : ∀ {K : List Nat}, core.channel ∉ K → List.Disjoint K [core.channel] := fun h =>
    List.disjoint_singleton.2 h
  have hslots := dropAll_silenced (w := (core.cleanUp w).updateChannel core.channel .close) ihs
    hown.tunes.intact (hown.tunes.ticketed ht) hns (attends_retunes has hown.tunes (hother hnot.1))
  have hchildren := dropAll_silenced ihc hslots.tunes.intact (hslots.tunes.ticketed (hown.tunes.ticketed ht)) hnc
    (attends_retunes (attends_retunes hac hown.tunes (hother hnot.2)) hslots.tunes hapart.symm)
  exact hfirst.append (hslots.append hchildren hapart)
    (List.disjoint_append_right.2 ⟨(hother hnot.1).symm, (hother hnot.2).symm⟩)

end

/-! ## Mounting -/

section

variable {w w₁ : World H}

theorem World.retunes_discard (hd : w.document.Intact) (held : List NodeId) (x : NodeId) : w.Retunes [] (w.discard held x) :=
  ⟨rfl, Document.retunes_discard hd held.contains x⟩

variable {b : Block H} {row : List (Nested H)} {o : Outcome H (Block H)}

/-- something else has been done before, at most to the block's own channels -/
theorem Block.Turn.after {b₁ : Block H} (h : b₁.Turn w₁ o) (hb : b₁.channels = b.channels) (hr : w.Retunes b.channels w₁) :
    b.Turn w o :=
  ⟨hr.trans (hb ▸ h.tunes), h.channels.trans hb, h.attends⟩

theorem TurnAll.after {o : Outcome H (List (Nested H))} (h : TurnAll row w₁ o) (hr : w.Retunes [] w₁) : TurnAll row w o :=
  ⟨(hr.mono (List.nil_subset _)).trans h.tunes, h.channels, h.attends⟩

end

variable [ForeignBlocks H]

/-- a component that is created or mounted is given up -/
theorem Component.abandon_turn {w : World H} {core : Core H} {slots children : List (Nested H)}
    (hs : ∀ n ∈ slots, n.block.Built) (hc : ∀ n ∈ children, n.block.Built) (hp : core.phase.Active) (fault : LifecycleFault)
    (hd : w.document.Intact) (ht : w.document.Ticketed) (hn : (Block.component (.mk core slots children)).channels.Nodup)
    {ears : List Ear} (hl : core.Listens ears w.document) (has : ∀ n ∈ slots, n.block.Attends w.document)
    (hac : ∀ n ∈ children, n.block.Attends w.document) :
    (Block.component (.mk core slots children)).Turn w
      (((Component.mk core slots children).abandon fault w).map .component) := by
  have hturn := Component.destroy_turn (fun n h => Block.quits (hs n h)) (fun n h => Block.quits (hc n h)) hp false hd ht
    hn hl has hac
  have hphase : ((Component.mk core slots children).destroy false w).self.core.phase = .destroyed := by
    rw [Component.destroy_eq hp]
    rfl
  unfold abandon
  generalize (Component.mk core slots children).destroy false w = o at hturn hphase
  obtain ⟨⟨core₁, slots₁, children₁⟩, w₁, result⟩ := o
  obtain ⟨hcore, hrows⟩ := Component.attends_mk.1 hturn.attends
  refine ⟨hturn.tunes, hturn.channels, Component.attends_mk.2 ⟨?_, hrows⟩⟩
  obtain ⟨ears, hl, hidle, -⟩ := hcore
  have hnot : core₁.phase ≠ .mounted := by
    rw [show core₁.phase = .destroyed from hphase]
    exact fun he => nomatch he
  exact ⟨ears, ⟨hl.cleanups, hl.hears⟩, fun _ => hidle hnot, fun he => nomatch he⟩

/-! ### Rows -/

/-- the blocks of a row await being mounted, nobody hears them, and these nodes are in none of their trees -/
structure Queued (row : List (Nested H)) (nodes : List NodeId) (w : World H) : Prop where
  intact : w.document.Intact
  ticketed : w.document.Ticketed
  awaits : ∀ n ∈ row, n.block.Awaits w.document
  deaf : w.document.Deaf (channelsOf row)
  apart : ∀ T ∈ w.document.forest.trees, T.1.id ∈ handlesOf row → ∀ x ∈ nodes, Document.Outside T x

section

variable {w w₁ : World H} {n : Nested H} {row : List (Nested H)} {nodes : List NodeId} {K : List Nat}

/-- a tree that is still there is what it was -/
theorem Queued.tree (h : Queued row nodes w) (hb : ∀ n ∈ row, n.block.Built) {d : Document (Listener H.Handler)}
    (hv : d.Valid) (hkept : ∀ T ∈ w.document.forest.trees, T.1.id ∈ handlesOf row → T ∈ d.forest.trees)
    {T : Node (Listener H.Handler) × Forest (Node (Listener H.Handler))} (hT : T ∈ d.forest.trees)
    (hx : T.1.id ∈ handlesOf row) : T ∈ w.document.forest.trees := by
  obtain ⟨n, hn, hxn⟩ := mem_handlesOf_iff.1 hx
  obtain ⟨T', hT', hsame⟩ := (h.awaits n hn).root (hb n hn) _ hxn
  obtain rfl := Document.tree_unique hv hT (hkept T' hT' (hsame ▸ hx)) (Document.root_mem T)
    (hsame ▸ Document.root_mem T')
  exact hT'

/-- something is done that leaves their trees alone -/
theorem Queued.step (h : Queued row nodes w) (hb : ∀ n ∈ row, n.block.Built) (hr : w.Retunes K w₁)
    (hK : List.Disjoint (channelsOf row) K)
    (hkept : ∀ T, w.document.Spared T → T.1.id ∈ handlesOf row → w₁.document.Spared T) : Queued row nodes w₁ := by
  have htrees : ∀ T ∈ w.document.forest.trees, T.1.id ∈ handlesOf row → T ∈ w₁.document.forest.trees := fun T hT hx =>
    (hkept T ⟨h.intact, hT⟩ hx).tree
  exact ⟨hr.tunes.intact, hr.tunes.ticketed h.ticketed,
    fun n hn => (h.awaits n hn).mono (hb n hn) fun T hT hx => htrees T hT (mem_handlesOf_iff.2 ⟨n, hn, hx⟩),
    h.deaf.retunes hr.tunes hK,
    fun T hT hx => h.apart T (h.tree hb hr.tunes.intact.valid htrees hT hx) hx⟩

/-- a node that is in none of their trees is taken out -/
theorem Queued.discard (h : Queued row nodes w) (hb : ∀ n ∈ row, n.block.Built) {x : NodeId} (hx : x ∈ nodes)
    (held : List NodeId) : Queued row nodes (w.discard held x) :=
  h.step hb (World.retunes_discard h.intact held x) (List.disjoint_nil_right _) fun T hT hin =>
    (Zone.besides T : Zone H).discard hT (h.apart T hT.tree hin x hx) held

theorem Queued.discardAll (h : Queued row nodes w) (hb : ∀ n ∈ row, n.block.Built) {spots : List (Nat × NodeId)}
    (hs : ∀ spot ∈ spots, spot.2 ∈ nodes) (held : List NodeId) :
    Queued row nodes (w.discardAll held spots) ∧ w.Retunes [] (w.discardAll held spots) := by
  induction spots generalizing w with
  | nil => exact ⟨h, .refl h.intact⟩
  | cons spot spots ih =>
    rw [List.forall_mem_cons] at hs
    obtain ⟨hrest, htunes⟩ := ih (h.discard hb hs.1 _) hs.2
    exact ⟨hrest, (World.retunes_discard h.intact _ _).trans htunes⟩

/-- what waits has nothing in the trees of those that wait after it -/
theorem Queued.dwells (h : Queued (n :: row) nodes w) (hb : n.block.Built) (ha : n.block.Each (·.template.Apt) fun _ => True)
    (hh : (handlesOf (n :: row)).Nodup) {T : Node (Listener H.Handler) × Forest (Node (Listener H.Handler))}
    (hT : T ∈ w.document.forest.trees) (hx : T.1.id ∈ handlesOf row) : n.block.Dwells (Zone.besides T) := by
  obtain ⟨index, atRoot, block⟩ := n
  exact (h.awaits _ List.mem_cons_self).dwells hb ha h.intact.valid hT fun hin =>
    (List.nodup_append'.1 hh).2.2 hin hx

theorem Queued.tail (h : Queued (n :: row) nodes w) : Queued row nodes w := by
  obtain ⟨index, atRoot, block⟩ := n
  exact ⟨h.intact, h.ticketed, (List.forall_mem_cons.1 h.awaits).2, (Document.deaf_append.1 h.deaf).2,
    fun T hT hx => h.apart T hT (List.mem_append_right _ hx)⟩

/-- what waits attends -/
theorem Queued.attends (h : Queued row nodes w) : ∀ n ∈ row, n.block.Attends w.document := fun n hn =>
  (h.awaits n hn).attends (h.deaf.subset fun _ hk => mem_channelsOf.2 ⟨n, hn, hk⟩)

/-- a row that is left as it is -/
theorem Queued.turn (h : Queued row nodes w) (result : Except LifecycleFault Unit) : TurnAll row w ⟨row, w, result⟩ :=
  ⟨.refl h.intact, rfl, h.attends⟩

end

/-- what a block does in its turn when it is mounted -/
def Block.Enters (b : Block H) : Prop :=
  ∀ (target : NodeId) (anchor : Option NodeId) {w : World H}, w.document.Intact → w.document.Ticketed →
    b.channels.Nodup → b.Awaits w.document → w.document.Deaf b.channels → b.Turn w (b.mountCreated target anchor w)

theorem Block.mountCreated_values (target : NodeId) (anchor : Option NodeId) (b : Block H) (w : World H) :
    b.Like values (b.mountCreated target anchor w).self := by
  cases b with
  | text t => exact t.create_values w
  | foreign f => trivial
  | component c => exact c.mountCreated_values target anchor w

section

variable {w : World H} {row : List (Nested H)} {nodes : List NodeId} {spots : List (Nat × NodeId)}

theorem mountRow_built (hb : ∀ n ∈ row, n.block.Built) (fragment : NodeId) (held later : List NodeId)
    (spots : List (Nat × NodeId)) (w : World H) :
    ∀ n ∈ (mountRow fragment held later row spots w).self, n.block.Built := by
  have hlike := mountRow_like values_preorder
    (fun n (_ : n ∈ row) target anchor w => n.block.mountCreated_values target anchor w) fragment held later spots w
  intro n' hn'
  obtain ⟨n, hn, -, hblock⟩ := exists_of_forall₂ (likeAll_iff.1 hlike) n' hn'
  have hbn := hb n hn
  generalize n.block = b at hblock hbn
  generalize n'.block = b' at hblock
  cases b <;> cases b' <;> first | trivial | exact hblock.elim | exact Component.Like.built_of_values hblock hbn

/-- the blocks of a row are mounted in turn, each before its marker -/
theorem mountRow_turn (hb : ∀ n ∈ row, n.block.Built) (ha : ∀ n ∈ row, n.block.Each (·.template.Apt) fun _ => True)
    (he : ∀ n ∈ row, n.block.Enters) (fragment : NodeId) (held later : List NodeId) (hn : (channelsOf row).Nodup)
    (hh : (handlesOf row).Nodup) (h : Queued row nodes w) (hs : ∀ spot ∈ spots, spot.2 ∈ nodes) :
    TurnAll row w (mountRow fragment held later row spots w) := by
  induction row generalizing held spots w with
  | nil => exact ⟨(h.discardAll hb hs _).2, rfl, List.forall_mem_nil _⟩
  | cons n row ih =>
    obtain ⟨index, atRoot, block⟩ := n
    have hsplit : ∀ spot ∈ spots.takeWhile (·.1 ≠ index) ++ spots.dropWhile (·.1 ≠ index), spot.2 ∈ nodes := by
      rw [List.takeWhile_append_dropWhile]
      exact hs
    obtain ⟨hempty, hahead⟩ := List.forall_mem_append.1 hsplit
    obtain ⟨hq, htunes⟩ := h.discardAll hb hempty (held ++ (spots.dropWhile (·.1 ≠ index)).map (·.2) ++ later)
    rw [mountRow]
    dsimp only
    refine TurnAll.after ?_ htunes
    generalize w.discardAll (held ++ (spots.dropWhile (·.1 ≠ index)).map (·.2) ++ later)
      (spots.takeWhile (·.1 ≠ index)) = w₁ at hq ⊢
    have hstays : block.Turn w₁ (.ok block w₁) :=
      ⟨.refl hq.intact, rfl, hq.attends _ List.mem_cons_self⟩
    have hdwells : ∀ T ∈ w₁.document.forest.trees, T.1.id ∈ handlesOf row → block.Dwells (Zone.besides T) :=
      fun T hT hx => hq.dwells (hb _ List.mem_cons_self) (ha _ List.mem_cons_self) hh hT hx
    have hrow := hq.tail
    rw [List.forall_mem_cons] at hb ha he
    obtain ⟨hnb, hnrow, hapart⟩ := List.nodup_append'.1 hn
    have hhrow := (List.nodup_append'.1 hh).2.1
    cases hspots : spots.dropWhile (·.1 ≠ index) with
    | nil => exact hstays.cons (ih hb.2 ha.2 he.2 held hnrow hhrow hrow (List.forall_mem_nil _)) hn
    | cons spot after =>
      obtain ⟨place, spot⟩ := spot
      rw [hspots, List.forall_mem_cons] at hahead
      dsimp only
      cases hparent : w₁.document.parent? spot with
      | none =>
        have hrest := ih hb.2 ha.2 he.2 held hnrow hhrow
          (hrow.discard hb.2 hahead.1 (held ++ (after.map (·.2) ++ later))) hahead.2
        exact hstays.cons (hrest.after (World.retunes_discard hq.intact _ _)) hn
      | some parent =>
        have hone := he.1 parent (some spot) hq.intact hq.ticketed hnb (hq.awaits _ List.mem_cons_self)
          (Document.deaf_append.1 hq.deaf).1
        -- those that wait after it go on waiting
        have hwait : Queued row nodes (block.mountCreated parent (some spot) w₁).world := by
          refine hrow.step hb.2 hone.tunes hapart.symm fun T hT hx => ?_
          have hspot := hrow.apart T hT.tree hx spot hahead.1
          exact ((hdwells T hT.tree hx).mountCreated (Zone.besides_admits T)
            ((Zone.besides T : Zone H).parent hT hspot hparent) (fun a ha => Option.some.inj ha ▸ hspot) hT).world
        dsimp only
        cases (block.mountCreated parent (some spot) w₁).result with
        | error fault => exact hone.cons (hwait.turn (.ok ())) hn
        | ok =>
          have hrest := ih hb.2 ha.2 he.2 (held ++ (block.mountCreated parent (some spot) w₁).self.handles) hnrow hhrow
            (hwait.discard hb.2 hahead.1 (held ++ (block.mountCreated parent (some spot) w₁).self.handles ++
              (after.map (·.2) ++ later))) hahead.2
          exact hone.cons (hrest.after (World.retunes_discard hwait.intact _ _)) hn

/-- others go on waiting while the blocks of a row are mounted -/
theorem Queued.mountRow {other : List (Nested H)} (h : Queued row nodes w) (hb : ∀ n ∈ row, n.block.Built)
    (ha : ∀ n ∈ row, n.block.Each (·.template.Apt) fun _ => True) (ho : Queued other nodes w)
    (hbo : ∀ n ∈ other, n.block.Built) (hapart : List.Disjoint (handlesOf row) (handlesOf other))
    (hK : List.Disjoint (channelsOf row) (channelsOf other)) (fragment : NodeId) (held later : List NodeId)
    (hs : ∀ spot ∈ spots, spot.2 ∈ nodes)
    (ht : TurnAll row w (LiveMarkup.mountRow fragment held later row spots w)) :
    Queued other nodes (LiveMarkup.mountRow fragment held later row spots w).world := by
  refine ho.step hbo ht.tunes hK.symm fun T hT hx => ?_
  have hdwells : ∀ n ∈ row, n.block.Dwells (Zone.besides T) := fun n hn =>
    (h.awaits n hn).dwells (hb n hn) (ha n hn) h.intact.valid hT.tree fun hin =>
      hapart (mem_handlesOf_iff.2 ⟨n, hn, hin⟩) hx
  exact ((Zone.besides T : Zone H).mountRow hdwells
    (fun n hn target anchor w ht hanchor hw => (hdwells n hn).mountCreated (Zone.besides_admits T) ht hanchor hw)
    fragment held later (fun spot hspot => ho.apart T hT.tree hx _ (hs spot hspot)) hT).world

/-- what a component finds below its fragment is in none of these trees -/
theorem Queued.found {fragment : NodeId} (h : Queued row nodes w) (hf : fragment ∈ nodes) {category : Category}
    {indices : List Nat} (hs : w.spots fragment category indices = .ok spots) :
    Queued row (nodes ++ spots.map (·.2)) w := by
  refine ⟨h.intact, h.ticketed, h.awaits, h.deaf, fun T hT hx => List.forall_mem_append.2 ⟨h.apart T hT hx, fun x hin => ?_⟩⟩
  obtain ⟨spot, hspot, rfl⟩ := List.mem_map.1 hin
  exact (Zone.besides T : Zone H).spots (w := w) ⟨h.intact, hT⟩ (h.apart T hT hx fragment hf) hs spot hspot

/-- what is nested in a component goes on waiting while the component is bound -/
theorem Queued.bind {c : Core H} {fragment : NodeId} (h : Queued row [] w) (hb : ∀ n ∈ row, n.block.Built)
    (hc : c.Awaits w.document) (ha : c.template.Apt) (hp : c.phase = .created fragment)
    (hr : w.Retunes [c.channel] (c.bind fragment w).world) (hnot : c.channel ∉ channelsOf row)
    (hdis : List.Disjoint c.handles (handlesOf row)) : Queued row [fragment] (c.bind fragment w).world := by
  have hf : fragment ∈ c.handles := Core.mem_handles.2 (.inl (by rw [hp]; rfl))
  have hother : ∀ T : Node (Listener H.Handler) × Forest (Node (Listener H.Handler)), T.1.id ∈ handlesOf row →
      T.1.id ∉ c.handles := fun T hx hin => hdis hin hx
  have hfirst : Queued row [fragment] w := ⟨h.intact, h.ticketed, h.awaits, h.deaf, fun T hT hx =>
    List.forall_mem_singleton.2 (hc.outside h.intact.valid hT (hother T hx) hf)⟩
  refine hfirst.step hb hr (List.disjoint_singleton.2 hnot) fun T hT hx => ?_
  exact ((hc.dwells ha h.intact.valid hT.tree (hother T hx)).bind hT (hc.outside h.intact.valid hT.tree (hother T hx) hf)).1

end

/-- **Mounting** what awaits being mounted is a turn, whatever it results in. -/
theorem Block.enters {b : Block H} (hb : b.Built) (ha : b.Each (·.template.Apt) fun _ => True) : b.Enters := by
  refine Block.built_induct (P := fun b => b.Built → b.Each (·.template.Apt) (fun _ => True) → b.Enters)
    (fun t _ _ _ target anchor w hd _ _ hawaits _ => ⟨?_, rfl, trivial⟩)
    (fun core slots children hapt ihs ihc hb ha target anchor w hd ht hn hawaits hq => ?_) hb ha hb ha
  · obtain ⟨x, hx, -⟩ := hawaits.each
    show w.Retunes [] (t.mount target anchor w).2
    rw [TextBlock.mount, TextBlock.create, hx]
    dsimp only
    rw [hx]
    exact ⟨rfl, Document.retunes_insertBefore hd target x anchor⟩
  · obtain ⟨-, -, hbs, hbc⟩ := hb
    obtain ⟨-, has, hac⟩ := ha
    rw [builtAll_iff] at hbs hbc
    rw [eachOf_iff] at has hac
    obtain ⟨hcore, haws, hawc, hheld⟩ := Component.awaits_mk.1 hawaits
    obtain ⟨fragment, hp, hcopy⟩ := hcore.copy
    obtain ⟨hnot, hboth⟩ := List.nodup_cons.1 hn
    obtain ⟨hns, hnc, hapart⟩ := List.nodup_append'.1 hboth
    rw [List.mem_append, not_or] at hnot
    obtain ⟨hownSlots, hhc, hdisc⟩ := List.nodup_append'.1 hheld
    obtain ⟨-, hhs, hdiss⟩ := List.nodup_append'.1 hownSlots
    rw [List.disjoint_append_left] at hdisc
    obtain ⟨hbound, ears, hl, hseats⟩ := hcore.attends_bind hd hapt hp (hq _ (Component.mem_channels _))
    have hqueued : ∀ row, (∀ n ∈ row, n.block.Awaits w.document) →
        channelsOf row ⊆ Block.channels (.component (.mk core slots children)) → Queued row [] w :=
      fun row haw hsub => ⟨hd, ht, haw, hq.subset hsub, fun _ _ _ => List.forall_mem_nil _⟩
    have hslots := (hqueued slots haws fun k hk => mem_channels_mk.2 (.inr (.inl hk))).bind hbs hcore hapt hp hbound
      hnot.1 hdiss
    have hchildren := (hqueued children hawc fun k hk => mem_channels_mk.2 (.inr (.inr hk))).bind hbc hcore hapt hp hbound
      hnot.2 hdisc.1
    have hvalues := core.bind_values fragment w
    have hphase : (core.bind fragment w).self.phase.Active := by
      rw [core.phase_bind, hp]
      trivial
    have hfirst : w.Retunes (Block.channels (.component (.mk core slots children))) (core.bind fragment w).world :=
      hbound.mono fun k hk => mem_channels_mk.2 (.inl (List.mem_singleton.1 hk))
    show Turn _ w (((Component.mk core slots children).mountCreated target anchor w).map .component)
    rw [Component.mountCreated, hp]
    dsimp only
    -- however far it has come, the component is given up with what is nested in it
    have habandon : ∀ {c : Core H} {contents kids : List (Nested H)} {u : World H} (fault : LifecycleFault),
        c.channel = core.channel → c.phase.Active → channelsOf contents = channelsOf slots →
        channelsOf kids = channelsOf children → (∀ n ∈ contents, n.block.Built) → (∀ n ∈ kids, n.block.Built) →
        u.document.Ticketed → w.Retunes (Block.channels (.component (.mk core slots children))) u →
        c.Listens ears u.document → (∀ n ∈ contents, n.block.Attends u.document) →
        (∀ n ∈ kids, n.block.Attends u.document) →
        (Block.component (.mk core slots children)).Turn w
          (((Component.mk c contents kids).abandon fault u).map .component) := by
      intro c contents kids u fault hchannel hp hcs hck hbs hbk htu hr hl has hak
      have hsame : Block.channels (.component (.mk c contents kids)) =
          Block.channels (.component (.mk core slots children)) := by
        rw [channels, Component.channels, hchannel, hcs, hck]
        rfl
      exact (Component.abandon_turn hbs hbk hp fault hr.tunes.intact htu (hsame ▸ hn) hl has hak).after hsame hr
    have hearly := fun fault => habandon (c := (core.bind fragment w).self) fault hvalues.channel hphase rfl rfl hbs hbc
      hslots.ticketed hfirst hl hslots.attends hchildren.attends
    cases hresult : (core.bind fragment w).result with
    | error fault => exact hearly fault
    | ok =>
      dsimp only
      cases hslotSpots : (core.bind fragment w).world.spots fragment .slot (indicesOf core.template.placeholders .slot) with
      | error fault => exact hearly fault
      | ok slotSpots =>
        cases hchildSpots : (core.bind fragment w).world.spots fragment .child
            (indicesOf core.template.placeholders .child) with
        | error fault => exact hearly fault
        | ok childSpots =>
          dsimp only
          have hin : fragment ∈ [fragment] := List.mem_singleton.2 rfl
          have hslots' := (hslots.found hin hslotSpots).found (List.mem_append_left _ hin) hchildSpots
          have hchildren' := (hchildren.found hin hslotSpots).found (List.mem_append_left _ hin) hchildSpots
          generalize ((core.bind fragment w).world.document.children fragment).filter
            (!((slotSpots ++ childSpots).map (·.2)).contains ·) = roots
          generalize Core.handles { (core.bind fragment w).self with roots } = held
          have hspots : ∀ spot ∈ slotSpots, spot.2 ∈ [fragment] ++ slotSpots.map (·.2) ++ childSpots.map (·.2) :=
            fun spot hspot => List.mem_append_left _ (List.mem_append_right _ (List.mem_map_of_mem hspot))
          have hcontents := mountRow_turn hbs has (fun n hn => ihs n hn (hbs n hn) (has n hn)) fragment held
            (childSpots.map (·.2)) hns hhs hslots' hspots
          have hbuilt := mountRow_built hbs fragment held (childSpots.map (·.2)) slotSpots (core.bind fragment w).world
          have hwait := hslots'.mountRow hbs has hchildren' hbc hdisc.2 hapart fragment held (childSpots.map (·.2)) hspots
            hcontents
          generalize LiveMarkup.mountRow fragment held (childSpots.map (·.2)) slots slotSpots
            (core.bind fragment w).world = contents at hcontents hbuilt hwait ⊢
          have hl' := hl.retunes hcontents.tunes.tunes (hvalues.channel ▸ hnot.1)
          have hsecond := hfirst.trans (hcontents.tunes.mono fun k hk =>
            mem_channels_mk.2 (.inr (.inl hk)))
          cases contents.result with
          | error fault =>
            exact habandon fault hvalues.channel hphase hcontents.channels rfl hbuilt hbc hwait.ticketed hsecond
              ⟨hl'.cleanups, hl'.hears⟩ hcontents.attends hwait.attends
          | ok =>
            dsimp only
            have hkids := mountRow_turn hbc hac (fun n hn => ihc n hn (hbc n hn) (hac n hn)) fragment
              (held ++ handlesOf contents.self) [] hnc hhc hwait
              fun spot hspot => List.mem_append_right _ (List.mem_map_of_mem hspot)
            have hbuilt' := mountRow_built hbc fragment (held ++ handlesOf contents.self) [] childSpots contents.world
            generalize LiveMarkup.mountRow fragment (held ++ handlesOf contents.self) [] children childSpots
              contents.world = kids at hkids hbuilt' ⊢
            cases kids.result with
            | error fault =>
              have hl'' := hl'.retunes hkids.tunes.tunes (hvalues.channel ▸ hnot.2)
              refine habandon fault hvalues.channel hphase hcontents.channels hkids.channels hbuilt hbuilt'
                (hkids.tunes.tunes.ticketed hwait.ticketed)
                (hsecond.trans (hkids.tunes.mono fun k hk => mem_channels_mk.2 (.inr (.inr hk))))
                ⟨hl''.cleanups, hl''.hears⟩ (attends_retunes hcontents.attends hkids.tunes.tunes ?_) hkids.attends
              rw [hcontents.channels]
              exact hapart
            | ok =>
              have hcopied : (core.bind fragment w).world.document.Copied core.template fragment :=
                (Document.copied hd.valid hcopy).retunes hbound.tunes
              refine Component.turn_mk (c := { (core.bind fragment w).self with roots, phase := .mounted }) hn hbound
                hvalues.channel ⟨ears, ⟨hl.cleanups, hl.hears⟩, fun he => absurd rfl he, fun _ => ⟨fragment, ?_, ?_⟩⟩
                hcontents hkids ⟨rfl, Document.retunes_insertBefore hkids.tunes.tunes.intact target fragment anchor⟩
              · exact hvalues.template ▸ hcopied
              · exact (hseats hresult).trans (congrArg (Template.seats · fragment) hvalues.template.symm)

end LiveMarkup
