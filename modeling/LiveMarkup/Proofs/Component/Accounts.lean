/-
Components and the ledger.

The ledger says which actions each component has begun and not ended. A component is in accord with it if it holds a cleanup
for every ear on its channel and for every last hook that is due: while it is mounted an ear for every event placeholder,
and at any other time none, and nothing in the ledger. `Block.Settles` says of a call on a block that whatever it noted is
what the ledger says of it, and that all that is nested in the block is in accord with the ledger again.

- `Block.closes`: a block is destroyed;
- `Block.leaves`: nothing is left of a block that is dropped;
- `Block.hears`, `Block.moves`: a block is told new values, or that it comes in or goes out.
-/
import LiveMarkup.Proofs.Component.Answering
import LiveMarkup.Proofs.Component.Noting

namespace LiveMarkup

open Markup Marker Forest

variable {H : Host} {B : Logbook H}

/-! ## The ledger -/

/-- what was noted on the way from one world to another is what becomes of the ledger; only these channels are concerned,
and nothing was put into a marker, if `q` -/
structure World.Books (B : Logbook H) (S : List Subject) (q : Prop) (K : List Nat) (w : World H) (g : Ledger) (w₁ : World H)
    (g₁ : Ledger) : Prop where
  goes : ∃ notes, w.Goes B K notes w₁ ∧ Unfolds S (w.noted B) g notes g₁
  fills : q → w.document.FillsNone w₁.document
  elsewhere : ∀ k ∉ K, g₁ k = g k

namespace World.Books

variable {S S' : List Subject} {q q' : Prop} {K K' : List Nat} {w w₁ w₂ : World H} {g g₁ g₂ : Ledger} {errands : List Errand}
  {notes : List Remark} {k : Nat}

theorem keeps (h : w.Books B S q K g w₁ g₁) :
    Document.Keeps (fun k => B.guarded k ∧ k ∉ K) w.document w₁.document := by
  obtain ⟨notes, hg, -⟩ := h.goes
  exact hg.keeps

theorem sober (h : w.Books B S q K g w₁ g₁) (hw : w.Sober B) : w₁.Sober B := by
  obtain ⟨notes, hg, -⟩ := h.goes
  exact hg.sober hw

theorem refl (hd : w.document.Intact) : w.Books B S q K g w g :=
  ⟨⟨[], (World.Does.refl hd).toGoes, .done⟩, fun _ => .refl _, fun _ _ => rfl⟩

theorem mono (h : w.Books B S q K g w₁ g₁) (hS : S ⊆ S') (hq : q' → q) (hK : K ⊆ K') : w.Books B S' q' K' g w₁ g₁ := by
  obtain ⟨notes, hg, hu⟩ := h.goes
  exact ⟨⟨notes, hg.mono hK, hu.mono hS⟩, fun h' => h.fills (hq h'), fun k hk => h.elsewhere k fun hin => hk (hK hin)⟩

/-- the same with more channels -/
theorem channels (h : w.Books B S q K g w₁ g₁) (hK : K ⊆ K') : w.Books B S q K' g w₁ g₁ :=
  h.mono (List.Subset.refl S) id hK

theorem trans (h : w.Books B S q K g w₁ g₁) (h' : w₁.Books B S q K g₁ w₂ g₂) (hd : w.document.Intact) :
    w.Books B S q K g w₂ g₂ := by
  obtain ⟨notes, hg, hu⟩ := h.goes
  obtain ⟨more, hg', hu'⟩ := h'.goes
  rw [hg.noted] at hu'
  exact ⟨⟨notes ++ more, hg.trans hg' hd, hu.trans hu'⟩,
    fun hq => (h.fills hq).trans (h'.fills hq) hg.keeps.intact.valid hg.keeps.fresh,
    fun k hk => (h'.elsewhere k hk).trans (h.elsewhere k hk)⟩

/-- nothing was noted -/
theorem of_does (h : w.Does B K [] w₁) : w.Books B S q K g w₁ g :=
  ⟨⟨[], h.toGoes, .done⟩, fun _ => h.fills, fun _ _ => rfl⟩

/-- a component has begun its actions -/
theorem opens (h : w.Does B [k] (beginnings errands) w₁) (hk : g k = none) (hf : Follow (w.noted B) errands) :
    w.Books B [.presence] q [k] g w₁ (g.set k (some errands)) :=
  ⟨⟨_, h.toGoes, .open_one List.mem_cons_self hk hf⟩, fun _ => h.fills,
    fun _ hj => g.set_of_ne (fun he => hj (List.mem_singleton.2 he)) _⟩

/-- a component has ended its actions, if it has begun any -/
theorem closes (h : w.Does B [k] (endings errands) w₁) (hk : g k = some errands ∨ g k = none ∧ errands = []) :
    w.Books B [.presence] q [k] g w₁ (g.set k none) := by
  refine ⟨⟨_, h.toGoes, ?_⟩, fun _ => h.fills, fun _ hj => g.set_of_ne (fun he => hj (List.mem_singleton.2 he)) _⟩
  rcases hk with hk | ⟨hk, rfl⟩
  · exact .close_one List.mem_cons_self hk
  · rw [g.set_same hk]
    exact .done

/-- hooks of actions that have begun were told values -/
theorem told (h : w.Does B [] notes w₁) (ht : ToldTo ((g k).getD []) notes) : w.Books B [.values] q [] g w₁ g := by
  refine ⟨⟨notes, h.toGoes, ?_⟩, fun _ => h.fills, fun _ _ => rfl⟩
  have hall : ∀ n, Unfolds [.values] n g notes g := by
    clear h
    induction notes with
    | nil => exact fun _ => .done
    | cons note notes ih =>
      obtain ⟨⟨errand, hmem, hupdates, rfl⟩, hrest⟩ := List.forall_mem_cons.1 ht
      cases hk : g k with
      | none =>
        rw [hk] at hmem
        cases hmem
      | some errands =>
        rw [hk] at hmem
        exact fun n => .tells List.mem_cons_self hk hmem hupdates (ih hrest (n + 1))
  exact hall _

end World.Books

/-! ## Accord -/

/-- a component is in accord with the ledger: it holds what it has to, and it has an ear for every event placeholder and an
entry in the ledger while it is mounted, and neither at any other time -/
structure Core.Accounts (B : Logbook H) (g : Ledger) (d : Document (Listener H.Handler)) (c : Core H) : Prop where
  noting : c.Noting B
  holds : ∃ ears, c.Holds B ears ((g c.channel).getD []) d ∧
    (c.phase = .mounted → ears.map (fun ear => (ear.event, ear.topic)) = c.template.eventTopics ∧ g c.channel ≠ none) ∧
    (c.phase ≠ .mounted → ears = [] ∧ g c.channel = none)

def Block.Accounts (B : Logbook H) (g : Ledger) (d : Document (Listener H.Handler)) (b : Block H) : Prop :=
  b.Each (Core.Accounts B g d) fun _ => True

/-- a component is not mounted, and nothing is in the markers and texts of what it has created -/
structure Core.Unfilled (d : Document (Listener H.Handler)) (c : Core H) : Prop where
  waiting : c.phase ≠ .mounted
  fragment : ∀ x, c.phase = .created x → d.Vacant .fragment x
  texts : ∀ cell ∈ c.textCells, d.Vacant (.text "") cell.node

def Block.Unfilled (d : Document (Listener H.Handler)) (b : Block H) : Prop :=
  b.Each (Core.Unfilled d) fun t => ∀ x, t.node = some x → d.Vacant (.text "") x

section

variable {g g₁ : Ledger} {d d₁ : Document (Listener H.Handler)} {c : Core H} {b : Block H} {row : List (Nested H)}

/-- a component that is not mounted holds nothing, and nothing is in the ledger -/
theorem Core.Accounts.resting (h : c.Accounts B g d) (hp : c.phase ≠ .mounted) :
    c.Holds B [] [] d ∧ g c.channel = none := by
  obtain ⟨ears, hheld, -, hidle⟩ := h.holds
  obtain ⟨rfl, hnone⟩ := hidle hp
  rw [hnone] at hheld
  exact ⟨hheld, hnone⟩

theorem Core.Accounts.rests (hn : c.Noting B) (hp : c.phase ≠ .mounted) (hh : c.Holds B [] [] d) (hg : g c.channel = none) :
    c.Accounts B g d :=
  ⟨hn, [], by rw [hg]; exact hh, fun he => absurd he hp, fun _ => ⟨rfl, hg⟩⟩

theorem Core.Accounts.frame {P : Nat → Prop} (h : c.Accounts B g d) (hk : Document.Keeps P d d₁) (hc : P c.channel)
    (hg : g₁ c.channel = g c.channel) : c.Accounts B g₁ d₁ := by
  obtain ⟨ears, hheld, hmounted, hidle⟩ := h.holds
  refine ⟨h.noting, ears, ?_, ?_, ?_⟩
  · rw [hg]
    exact hheld.keeps hk hc
  · rw [hg]
    exact hmounted
  · rw [hg]
    exact hidle

theorem Component.accounts_mk {core : Core H} {slots children : List (Nested H)} :
    (Block.component (.mk core slots children)).Accounts B g d ↔
      core.Accounts B g d ∧ (∀ n ∈ slots, n.block.Accounts B g d) ∧ ∀ n ∈ children, n.block.Accounts B g d :=
  and_congr_right fun _ => and_congr eachOf_iff eachOf_iff

theorem Component.unfilled_mk {core : Core H} {slots children : List (Nested H)} :
    (Block.component (.mk core slots children)).Unfilled d ↔
      core.Unfilled d ∧ (∀ n ∈ slots, n.block.Unfilled d) ∧ ∀ n ∈ children, n.block.Unfilled d :=
  and_congr_right fun _ => and_congr eachOf_iff eachOf_iff

theorem Core.Unfilled.fills (h : c.Unfilled d) (hf : d.FillsNone d₁) (hle : d.fresh ≤ d₁.fresh) : c.Unfilled d₁ :=
  ⟨h.waiting, fun x hx => (h.fragment x hx).fills hf hle, fun cell hcell => (h.texts cell hcell).fills hf hle⟩

/-- nothing comes into its markers where nothing is put into markers -/
theorem Block.Unfilled.fills (h : b.Unfilled d) (hf : d.FillsNone d₁) (hle : d.fresh ≤ d₁.fresh) : b.Unfilled d₁ :=
  Block.Each.imp (fun _ hc => hc.fills hf hle) (fun _ ht x hx => (ht x hx).fills hf hle) h

variable {S : List Subject} {q : Prop} {K : List Nat} {w w₁ : World H}

theorem Core.Unfilled.books (h : c.Unfilled w.document) (hb : w.Books B S True K g w₁ g₁) : c.Unfilled w₁.document :=
  h.fills (hb.fills trivial) hb.keeps.fresh

theorem Block.Unfilled.books (h : b.Unfilled w.document) (hb : w.Books B S True K g w₁ g₁) : b.Unfilled w₁.document :=
  h.fills (hb.fills trivial) hb.keeps.fresh

/-- what concerns other channels makes no difference -/
theorem Core.Accounts.books (h : c.Accounts B g w.document) (hb : w.Books B S q K g w₁ g₁) (hK : c.channel ∉ K) :
    c.Accounts B g₁ w₁.document := h.frame hb.keeps ⟨h.noting.guarded, hK⟩ (hb.elsewhere _ hK)

theorem Block.Accounts.books (h : b.Accounts B g w.document) (hb : w.Books B S q K g w₁ g₁)
    (hK : List.Disjoint b.channels K) : b.Accounts B g₁ w₁.document :=
  (Block.Each.and h b.each_channels).imp (fun _ hc => hc.1.books hb fun hin => hK hc.2 hin) fun _ _ => trivial

theorem accounts_books (h : ∀ n ∈ row, n.block.Accounts B g w.document) (hb : w.Books B S q K g w₁ g₁)
    (hK : List.Disjoint (channelsOf row) K) : ∀ n ∈ row, n.block.Accounts B g₁ w₁.document := fun n hn =>
  (h n hn).books hb fun _ hk hin => hK (mem_channelsOf.2 ⟨n, hn, hk⟩) hin

end

/-! ## Settling -/

/-- what a call on a block noted is what the ledger says of its channels, and everything in it is in accord with that -/
structure Block.Settles (B : Logbook H) (S : List Subject) (q : Prop) (b : Block H) (w : World H) (g : Ledger)
    (o : Outcome H (Block H)) (g₁ : Ledger) : Prop where
  books : w.Books B S q b.channels g o.world g₁
  channels : o.self.channels = b.channels
  accounts : o.self.Accounts B g₁ o.world.document

structure SettlesAll (B : Logbook H) (S : List Subject) (q : Prop) (row : List (Nested H)) (w : World H) (g : Ledger)
    (o : Outcome H (List (Nested H))) (g₁ : Ledger) : Prop where
  books : w.Books B S q (channelsOf row) g o.world g₁
  channels : channelsOf o.self = channelsOf row
  accounts : ∀ n ∈ o.self, n.block.Accounts B g₁ o.world.document

section

variable {S : List Subject} {q : Prop} {b : Block H} {row : List (Nested H)} {w w₁ w₂ : World H} {g g₁ g₂ g₃ : Ledger}

theorem Block.Settles.refl (hd : w.document.Intact) (h : b.Accounts B g w.document) {result : Except LifecycleFault Unit} :
    b.Settles B S q w g ⟨b, w, result⟩ g := ⟨.refl hd, rfl, h⟩

theorem SettlesAll.refl (hd : w.document.Intact) (h : ∀ n ∈ row, n.block.Accounts B g w.document)
    {result : Except LifecycleFault Unit} : SettlesAll B S q row w g ⟨row, w, result⟩ g := ⟨.refl hd, rfl, h⟩

/-- the blocks of a row are left alone -/
theorem SettlesAll.left (hd : w.document.Intact) (h : ∀ n ∈ row, n.block.Accounts B g w.document) :
    SettlesAll B S q row w g (.ok row w) g := .refl hd h

/-- something else was done before -/
theorem Block.Settles.after {b' : Block H} {o : Outcome H (Block H)} (h : b'.Settles B S q w₁ g₁ o g₂)
    (hb : b'.channels = b.channels) (hw : w.Books B S q b.channels g w₁ g₁) (hd : w.document.Intact) :
    b.Settles B S q w g o g₂ :=
  ⟨hw.trans (hb ▸ h.books) hd, h.channels.trans hb, h.accounts⟩

theorem SettlesAll.after {o : Outcome H (List (Nested H))} (h : SettlesAll B S q row w₁ g₁ o g₂)
    (hw : w.Books B S q (channelsOf row) g w₁ g₁) (hd : w.document.Intact) : SettlesAll B S q row w g o g₂ :=
  ⟨hw.trans h.books hd, h.channels, h.accounts⟩

/-- a block has settled, and then the blocks after it -/
theorem Block.Settles.cons {index index' : Nat} {atRoot atRoot' : Bool} {o : Outcome H (Block H)}
    {others : Outcome H (List (Nested H))} (h : b.Settles B S q w g o g₁) (hrest : SettlesAll B S q row o.world g₁ others g₂)
    (hd : w.document.Intact) (hn : (channelsOf (.mk index atRoot b :: row)).Nodup) {result : Except LifecycleFault Unit} :
    SettlesAll B S q (.mk index atRoot b :: row) w g ⟨.mk index' atRoot' o.self :: others.self, others.world, result⟩ g₂ := by
  obtain ⟨-, -, hapart⟩ := List.nodup_append'.1 hn
  refine ⟨(h.books.channels (List.subset_append_left _ _)).trans (hrest.books.channels (List.subset_append_right _ _)) hd,
    congrArg₂ (· ++ ·) h.channels hrest.channels, List.forall_mem_cons.2 ⟨?_, hrest.accounts⟩⟩
  refine Block.Accounts.books (b := o.self) h.accounts hrest.books ?_
  rw [h.channels]
  exact hapart

/-- a component has settled, then its slot contents, and then its children -/
theorem Component.settles_mk {core c : Core H} {slots children : List (Nested H)}
    {contents kids : Outcome H (List (Nested H))} {result : Except LifecycleFault Unit} (hd : w.document.Intact)
    (hn : (Block.component (.mk core slots children)).channels.Nodup) (hown : w.Books B S q [core.channel] g w₁ g₁)
    (hchannel : c.channel = core.channel) (ha : c.Accounts B g₁ w₁.document)
    (hcontents : SettlesAll B S q slots w₁ g₁ contents g₂) (hkids : SettlesAll B S q children contents.world g₂ kids g₃) :
    (Block.component (.mk core slots children)).Settles B S q w g
      ⟨.component (.mk c contents.self kids.self), kids.world, result⟩ g₃ := by
  obtain ⟨hnot, hboth⟩ := List.nodup_cons.1 hn
  rw [List.mem_append, not_or, ← hchannel] at hnot
  obtain ⟨-, -, hapart⟩ := List.nodup_append'.1 hboth
  have hfirst : w.Books B S q (Block.channels (.component (.mk core slots children))) g w₁ g₁ :=
    hown.channels fun k hk => mem_channels_mk.2 (.inl (List.mem_singleton.1 hk))
  have hslots : w₁.Books B S q (Block.channels (.component (.mk core slots children))) g₁ contents.world g₂ :=
    hcontents.books.channels fun k hk => mem_channels_mk.2 (.inr (.inl hk))
  have hchildren : contents.world.Books B S q (Block.channels (.component (.mk core slots children))) g₂ kids.world g₃ :=
    hkids.books.channels fun k hk => mem_channels_mk.2 (.inr (.inr hk))
  refine ⟨(hfirst.trans hslots hd).trans hchildren hd, ?_, Component.accounts_mk.2
    ⟨(ha.books hcontents.books hnot.1).books hkids.books hnot.2, accounts_books hcontents.accounts hkids.books ?_,
      hkids.accounts⟩⟩
  · show c.channel :: (channelsOf contents.self ++ channelsOf kids.self) = _
    rw [hchannel, hcontents.channels, hkids.channels]
    rfl
  · rw [hcontents.channels]
    exact hapart

end

/-! ## Destroying -/

section

variable [ForeignBlocks H] {w : World H} {g : Ledger} {row : List (Nested H)}

/-- blocks of the host leave guarded channels and markers alone and note nothing; they are not mounted in shut nodes -/
structure GuestsHeed [ForeignBlocks H] (B : Logbook H) : Prop where
  create : ∀ (f : H.Foreign) (w : World H), w.document.Intact → w.Noted B [] (ForeignBlocks.create f w).world
  mount : ∀ target anchor (f : H.Foreign) (w : World H), w.document.Intact → w.document.Plain target →
    w.Noted B [] (ForeignBlocks.mount target anchor f w).world
  stays : ∀ target anchor (f : H.Foreign) (w : World H), w.document.Intact → w.document.Plain target →
    w.document.Moors (fun _ => False) (ForeignBlocks.mount target anchor f w).world.document
  update : ∀ changed (f : H.Foreign) (w : World H), w.document.Intact →
    w.Noted B [] (ForeignBlocks.update changed f w).world
  transition : ∀ t isLocal (f : H.Foreign) (w : World H), w.document.Intact →
    w.Noted B [] (ForeignBlocks.transition t isLocal f w).2
  destroy : ∀ detaching (f : H.Foreign) (w : World H), w.document.Intact →
    w.Noted B [] (ForeignBlocks.destroy detaching f w).world

omit [ForeignBlocks H] in
/-- a block that is no component has no accounts to settle -/
theorem Block.settles_of_does {S : List Subject} {q : Prop} {b : Block H} {o : Outcome H (Block H)}
    (h : w.Does B [] [] o.world) (hb : b.channels = []) (hs : o.self.channels = []) (ha : o.self.Accounts B g o.world.document) :
    b.Settles B S q w g o g := ⟨.of_does (hb ▸ h), hs.trans hb.symm, ha⟩

def Block.Closes (B : Logbook H) (b : Block H) : Prop :=
  ∀ (detaching : Bool) {w : World H} {g : Ledger}, w.Sober B → b.channels.Nodup → b.Accounts B g w.document →
    ∃ g₁, b.Settles B [.presence] True w g (b.destroy detaching w) g₁

theorem destroyAll_settles (h : ∀ n ∈ row, n.block.Closes B) (detaching : Bool) (hw : w.Sober B)
    (hn : (channelsOf row).Nodup) (ha : ∀ n ∈ row, n.block.Accounts B g w.document) :
    ∃ g₁, SettlesAll B [.presence] True row w g (destroyAll detaching row w) g₁ := by
  induction row generalizing w g with
  | nil => exact ⟨g, .refl hw.intact ha⟩
  | cons n row ih =>
    obtain ⟨index, atRoot, block⟩ := n
    rw [List.forall_mem_cons] at h ha
    obtain ⟨hblock, hrest, hapart⟩ := List.nodup_append'.1 hn
    obtain ⟨g₁, hone⟩ := h.1 (detaching && atRoot) hw hblock ha.1
    obtain ⟨g₂, hothers⟩ := ih h.2 (hone.books.sober hw) hrest (accounts_books ha.2 hone.books hapart.symm)
    exact ⟨g₂, hone.cons hothers hw.intact hn⟩

/-- a component that is created or mounted is destroyed, however far it has been bound -/
theorem Component.destroy_settles {core : Core H} {slots children : List (Nested H)} (hs : ∀ n ∈ slots, n.block.Closes B)
    (hc : ∀ n ∈ children, n.block.Closes B) (hp : core.phase.Active) (detaching : Bool) (hw : w.Sober B)
    (hn : (Block.component (.mk core slots children)).channels.Nodup) (hnoting : core.Noting B) {ears : List Ear}
    {errands : List Errand} (hh : core.Holds B ears errands w.document)
    (hg : g core.channel = some errands ∨ g core.channel = none ∧ errands = [])
    (has : ∀ n ∈ slots, n.block.Accounts B g w.document) (hac : ∀ n ∈ children, n.block.Accounts B g w.document) :
    ∃ g₁, (Block.component (.mk core slots children)).Settles B [.presence] True w g
      (((Component.mk core slots children).destroy detaching w).map .component) g₁ := by
  have hdetached : w.Does B [] [] (if detaching && core.phase = .mounted then core.detachRoots w else w) := by
    split
    · exact core.detachRoots_does hw.intact
    · exact .refl hw.intact
  rw [Component.destroy_eq hp]
  dsimp only
  generalize (if detaching && core.phase = .mounted then core.detachRoots w else w) = w₁ at hdetached ⊢
  have hw₁ := hdetached.sober hw
  obtain ⟨hcleaned, hnone⟩ := core.cleanUp_goes hw₁ hnoting.guarded
    (hh.keeps hdetached.keeps ⟨hnoting.guarded, List.not_mem_nil⟩)
  have hown : w.Books B [.presence] True [core.channel] g (core.cleanUp w₁) (g.set core.channel none) :=
    (World.Books.of_does (hdetached.mono (List.nil_subset _))).trans (.closes hcleaned hg) hw.intact
  have hw₂ := hown.sober hw
  obtain ⟨hnot, hboth⟩ := List.nodup_cons.1 hn
  rw [List.mem_append, not_or] at hnot
  obtain ⟨hns, hnc, hapart⟩ := List.nodup_append'.1 hboth
  have hother : ∀ {K : List Nat}, core.channel ∉ K → List.Disjoint K [core.channel] := fun h =>
    List.disjoint_singleton.2 h
  obtain ⟨g₂, hcontents⟩ := destroyAll_settles hs detaching hw₂ hns (accounts_books has hown (hother hnot.1))
  obtain ⟨g₃, hkids⟩ := destroyAll_settles hc detaching (hcontents.books.sober hw₂) hnc
    (accounts_books (accounts_books hac hown (hother hnot.2)) hcontents.books hapart.symm)
  have hcleared : core.cleared.Accounts B (g.set core.channel none) (core.cleanUp w₁).document :=
    .rests ⟨hnoting.template, hnoting.guarded, List.forall_mem_nil _⟩ (fun he => nomatch he) (.none rfl rfl hnone)
      (g.set_self _ _)
  exact ⟨g₃, Component.settles_mk hw.intact hn hown rfl hcleared hcontents hkids⟩

/-- **Destroying** a block settles it. -/
theorem Block.closes (hf : GuestsHeed B) (b : Block H) : b.Closes B := by
  induction b using Block.induct with
  | text t =>
    intro detaching w g hw _ _
    refine ⟨g, Block.settles_of_does ?_ rfl rfl trivial⟩
    show w.Does B [] [] (t.destroy detaching w).2
    unfold TextBlock.destroy
    cases t.node with
    | none => exact .refl hw.intact
    | some node =>
      cases detaching with
      | false => exact .refl hw.intact
      | true => exact World.does_detach hw.intact node
  | foreign f =>
    intro detaching w g hw _ _
    exact ⟨g, Block.settles_of_does (hf.destroy detaching f w hw.intact).does rfl rfl trivial⟩
  | component core slots children ihs ihc =>
    intro detaching w g hw hn ha
    obtain ⟨hcore, has, hac⟩ := Component.accounts_mk.1 ha
    by_cases hp : core.phase.Active
    · obtain ⟨ears, hheld, -, hidle⟩ := hcore.holds
      refine Component.destroy_settles ihs ihc hp detaching hw hn hcore.noting hheld ?_ has hac
      cases hg : g core.channel with
      | none => exact .inr ⟨rfl, rfl⟩
      | some errands => exact .inl rfl
    · -- nothing is done to what is neither created nor mounted
      have hsame : ((Component.mk core slots children).destroy detaching w).self = .mk core slots children ∧
          ((Component.mk core slots children).destroy detaching w).world = w := by
        rw [Component.destroy]
        cases hphase : core.phase with
        | unmounted => exact ⟨rfl, rfl⟩
        | destroyed => exact ⟨rfl, rfl⟩
        | created fragment => rw [hphase] at hp; exact absurd trivial hp
        | mounted => rw [hphase] at hp; exact absurd trivial hp
      refine ⟨g, ?_⟩
      show Settles B _ True _ w g ⟨.component _, _, _⟩ g
      rw [hsame.1, hsame.2]
      exact .refl hw.intact ha

/-! ## Dropping -/

omit [ForeignBlocks H] in
/-- nothing is left of channels: nothing in the ledger, and nobody hears them -/
structure World.Left (B : Logbook H) (K : List Nat) (w : World H) (g : Ledger) (w₁ : World H) (g₁ : Ledger) : Prop where
  books : w.Books B [.presence] True K g w₁ g₁
  guarded : ∀ k ∈ K, B.guarded k
  ledger : ∀ k ∈ K, g₁ k = none
  attached : ∀ k ∈ K, w₁.document.Attached k []

omit [ForeignBlocks H] in
theorem World.Left.append {K K' : List Nat} {w₁ w₂ : World H} {g₁ g₂ : Ledger} (h : w.Left B K g w₁ g₁)
    (h' : w₁.Left B K' g₁ w₂ g₂) (hK : List.Disjoint K K') (hd : w.document.Intact) : w.Left B (K ++ K') g w₂ g₂ :=
  ⟨(h.books.channels (List.subset_append_left _ _)).trans (h'.books.channels (List.subset_append_right _ _)) hd,
    List.forall_mem_append.2 ⟨h.guarded, h'.guarded⟩,
    List.forall_mem_append.2 ⟨fun k hk => (h'.books.elsewhere k (hK hk)).trans (h.ledger k hk), h'.ledger⟩,
    List.forall_mem_append.2 ⟨fun k hk => (h.attached k hk).keeps h'.books.keeps ⟨h.guarded k hk, hK hk⟩, h'.attached⟩⟩

omit [ForeignBlocks H] in
def Block.Leaves (B : Logbook H) (b : Block H) : Prop :=
  ∀ {w : World H} {g : Ledger}, w.Sober B → b.channels.Nodup → b.Accounts B g w.document →
    ∃ g₁, w.Left B b.channels g (b.drop w) g₁

omit [ForeignBlocks H] in
theorem dropAll_left (h : ∀ n ∈ row, n.block.Leaves B) (hw : w.Sober B) (hn : (channelsOf row).Nodup)
    (ha : ∀ n ∈ row, n.block.Accounts B g w.document) : ∃ g₁, w.Left B (channelsOf row) g (dropAll row w) g₁ := by
  induction row generalizing w g with
  | nil => exact ⟨g, .refl hw.intact, List.forall_mem_nil _, List.forall_mem_nil _, List.forall_mem_nil _⟩
  | cons n row ih =>
    obtain ⟨index, atRoot, block⟩ := n
    rw [List.forall_mem_cons] at h ha
    obtain ⟨hblock, hrest, hapart⟩ := List.nodup_append'.1 hn
    obtain ⟨g₁, hone⟩ := h.1 hw hblock ha.1
    obtain ⟨g₂, hothers⟩ := ih h.2 (hone.books.sober hw) hrest (accounts_books ha.2 hone.books hapart.symm)
    exact ⟨g₂, hone.append hothers hapart hw.intact⟩

omit [ForeignBlocks H] in
/-- **Dropping.** -/
theorem Block.leaves (b : Block H) : b.Leaves B := by
  induction b using Block.induct with
  | text t => exact fun hw _ _ => ⟨_, .refl hw.intact, List.forall_mem_nil _, List.forall_mem_nil _, List.forall_mem_nil _⟩
  | foreign f => exact fun hw _ _ => ⟨_, .refl hw.intact, List.forall_mem_nil _, List.forall_mem_nil _, List.forall_mem_nil _⟩
  | component core slots children ihs ihc =>
    intro w g hw hn ha
    obtain ⟨hcore, has, hac⟩ := Component.accounts_mk.1 ha
    obtain ⟨ears, hheld, -⟩ := hcore.holds
    obtain ⟨hcleaned, hnone⟩ := core.cleanUp_goes hw hcore.noting.guarded hheld
    -- closing the channel changes neither the document nor the diary
    have hclosed : w.Does B [core.channel] (endings ((g core.channel).getD []))
        ((core.cleanUp w).updateChannel core.channel .close) :=
      ⟨⟨hcleaned.keeps, hcleaned.discreet, hcleaned.diary⟩, hcleaned.fills⟩
    have hown : w.Left B [core.channel] g ((core.cleanUp w).updateChannel core.channel .close) (g.set core.channel none) := by
      refine ⟨.closes hclosed ?_, List.forall_mem_singleton.2 hcore.noting.guarded,
        List.forall_mem_singleton.2 (g.set_self _ _), List.forall_mem_singleton.2 hnone⟩
      cases hg : g core.channel with
      | none => exact .inr ⟨rfl, rfl⟩
      | some errands => exact .inl rfl
    obtain ⟨hout, hboth⟩ := List.nodup_cons.1 hn
    have hnot := not_or.1 (List.mem_append.not.1 hout)
    obtain ⟨hns, hnc, hapart⟩ := List.nodup_append'.1 hboth
    have hw₁ := hown.books.sober hw
    obtain ⟨g₂, hcontents⟩ := dropAll_left ihs hw₁ hns
      (accounts_books has hown.books (List.disjoint_singleton.2 hnot.1))
    obtain ⟨g₃, hkids⟩ := dropAll_left ihc (hcontents.books.sober hw₁) hnc
      (accounts_books (accounts_books hac hown.books (List.disjoint_singleton.2 hnot.2)) hcontents.books hapart.symm)
    have hnested := hcontents.append hkids hapart hw₁.intact
    exact ⟨g₃, hown.append hnested (List.singleton_disjoint.2 hout) hw.intact⟩

/-! ## New values -/

omit [ForeignBlocks H] in
/-- a component is in accord after it has been told new values -/
theorem Core.Accounts.applyEntries {core : Core H} (h : core.Accounts B g w.document) (hd : w.document.Intact)
    (changed : Props) : w.Books B [.values] True [core.channel] g (core.applyEntries w changed).2 g ∧
      (core.applyEntries w changed).1.channel = core.channel ∧
      (core.applyEntries w changed).1.Accounts B g (core.applyEntries w changed).2.document := by
  obtain ⟨ears, hheld, hmounted, hidle⟩ := h.holds
  obtain ⟨notes, htold, hdoes, hnoting, hheld₁⟩ := Core.applyEntries_goes hd h.noting hheld changed
  have hfooting := core.applyEntries_footing w changed
  refine ⟨(World.Books.told hdoes htold).channels (List.nil_subset _), hfooting.channel, hnoting, ears, ?_⟩
  rw [hfooting.channel, hfooting.phase, hfooting.template]
  exact ⟨hheld₁, hmounted, hidle⟩

def Block.Hears (B : Logbook H) (b : Block H) : Prop :=
  ∀ (changed : Props) {w : World H} {g : Ledger}, w.Sober B → b.channels.Nodup → b.Accounts B g w.document →
    b.Settles B [.values] True w g (b.update changed w) g

theorem updateRow_settles (h : ∀ n ∈ row, n.block.Hears B) (deliver : Nat → Option Props) (hw : w.Sober B)
    (hn : (channelsOf row).Nodup) (ha : ∀ n ∈ row, n.block.Accounts B g w.document) :
    SettlesAll B [.values] True row w g (updateRow deliver row w) g := by
  induction row generalizing w with
  | nil => exact .refl hw.intact ha
  | cons n row ih =>
    obtain ⟨index, atRoot, block⟩ := n
    rw [List.forall_mem_cons] at h ha
    obtain ⟨hblock, hrest, hapart⟩ := List.nodup_append'.1 hn
    rw [updateRow_cons]
    cases deliver index with
    | none =>
      have hstays : block.Settles B [.values] True w g (.ok block w) g := .refl hw.intact ha.1
      exact hstays.cons (ih h.2 hw hrest ha.2) hw.intact hn
    | some changed =>
      have hone := h.1 changed hw hblock ha.1
      have hw₁ := hone.books.sober hw
      have hothers := accounts_books ha.2 hone.books hapart.symm
      dsimp only
      change block.Settles B [.values] True w g (block.update changed w) g at hone
      cases (block.update changed w).result with
      | error fault => exact hone.cons (.left hw₁.intact hothers) hw.intact hn
      | ok => exact hone.cons (ih h.2 hw₁ hrest hothers) hw.intact hn

/-- slot contents are told what is new in the slot context -/
theorem Component.updateSlots_settles {core : Core H} {slots : List (Nested H)} (children : List (Nested H))
    (h : ∀ n ∈ slots, n.block.Hears B) (context : Option Props) (hw : w.Sober B) (hn : (channelsOf slots).Nodup)
    (hc : core.Accounts B g w.document) (ha : ∀ n ∈ slots, n.block.Accounts B g w.document) :
    ∃ core' contents, (Component.mk core slots children).updateSlots context w =
        ⟨.mk core' contents.self children, contents.world, contents.result⟩ ∧
      core'.Accounts B g w.document ∧ core'.channel = core.channel ∧
      SettlesAll B [.values] True slots w g contents g := by
  rw [Component.updateSlots_mk]
  cases context with
  | none => exact ⟨core, .ok slots w, rfl, hc, rfl, .refl hw.intact ha⟩
  | some incoming =>
    dsimp only
    split
    · exact ⟨core, .ok slots w, rfl, hc, rfl, .refl hw.intact ha⟩
    · obtain ⟨hnoting, ears, hheld, hphase⟩ := hc
      exact ⟨_, _, rfl, ⟨⟨hnoting.template, hnoting.guarded, hnoting.named⟩, ears,
        ⟨hheld.cleanups, hheld.hooks, hheld.attached⟩, hphase⟩, rfl, updateRow_settles h _ hw hn ha⟩

/-- **New values** settle a block. -/
theorem Block.hears (hf : GuestsHeed B) (b : Block H) : b.Hears B := by
  induction b using Block.induct with
  | text t =>
    intro changed w g hw _ _
    show Settles B [.values] True _ w g ⟨.text (t.update changed w).1, (t.update changed w).2, .ok ()⟩ g
    rw [TextBlock.update]
    cases t.prop.bind changed.get? with
    | none => exact .refl (b := .text t) hw.intact trivial
    | some value =>
      cases t.node with
      | none => exact Block.settles_of_does (.refl hw.intact) rfl rfl trivial
      | some x => exact Block.settles_of_does (World.does_setData hw.intact x value.toText) rfl rfl trivial
  | foreign f =>
    intro changed w g hw _ _
    exact Block.settles_of_does (hf.update changed f w hw.intact).does rfl rfl trivial
  | component core slots children ihs ihc =>
    intro changed w g hw hn ha
    obtain ⟨hcore, has, hac⟩ := Component.accounts_mk.1 ha
    show Settles B [.values] True _ w g (((Component.mk core slots children).update changed w).map .component) g
    rw [Component.update_mk]
    split
    · exact .refl hw.intact ha
    · obtain ⟨hown, hchannel, haccounts⟩ := hcore.applyEntries hw.intact changed
      have hw₁ := hown.sober hw
      obtain ⟨hnot, hboth⟩ := List.nodup_cons.1 hn
      rw [List.mem_append, not_or] at hnot
      have hslots := accounts_books has hown (List.disjoint_singleton.2 hnot.1)
      have hkids := updateRow_settles ihc (forwardedTo core.template.placeholders changed) hw₁
        (List.nodup_append'.1 hboth).2.1 (accounts_books hac hown (List.disjoint_singleton.2 hnot.2))
      exact Component.settles_mk hw.intact hn hown hchannel haccounts (.left hw₁.intact hslots) hkids

/-- a tick settles a component -/
theorem Component.ticks (hf : GuestsHeed B) (incoming : Props) (context : Option Props) {c : Component H}
    (hw : w.Sober B) (hn : c.channels.Nodup) (ha : (Block.component c).Accounts B g w.document) :
    (Block.component c).Settles B [.values] True w g ((c.tick incoming context w).map .component) g := by
  obtain ⟨core, slots, children⟩ := c
  obtain ⟨hcore, has, hac⟩ := Component.accounts_mk.1 ha
  rw [Component.tick_mk]
  split
  · exact .refl hw.intact ha
  · obtain ⟨hown, hchannel, haccounts⟩ := hcore.applyEntries hw.intact (core.props.changes incoming)
    have hw₁ := hown.sober hw
    obtain ⟨hnot, hboth⟩ := List.nodup_cons.1 hn
    rw [List.mem_append, not_or] at hnot
    obtain ⟨hns, hnc, hapart⟩ := List.nodup_append'.1 hboth
    obtain ⟨core', contents, heq, haccounts', hchannel', hcontents⟩ := Component.updateSlots_settles children
      (fun n _ => n.block.hears hf) context hw₁ hns haccounts (accounts_books has hown (List.disjoint_singleton.2 hnot.1))
    have hchildren := accounts_books (accounts_books hac hown (List.disjoint_singleton.2 hnot.2)) hcontents.books hapart.symm
    have hw₂ := hcontents.books.sober hw₁
    dsimp only
    rw [heq]
    dsimp only
    cases contents.result with
    | error fault =>
      exact Component.settles_mk hw.intact hn hown (hchannel'.trans hchannel) haccounts' hcontents
        (.left hw₂.intact hchildren)
    | ok =>
      exact Component.settles_mk hw.intact hn hown (hchannel'.trans hchannel) haccounts' hcontents
        (updateRow_settles (fun n _ => n.block.hears hf) _ hw₂ hnc hchildren)

/-! ## Coming in and going out -/

def Block.Moves (B : Logbook H) (b : Block H) : Prop :=
  ∀ (t : Transition) (isLocal : Bool) {w : World H} {g : Ledger}, w.Sober B → b.channels.Nodup →
    b.Accounts B g w.document →
    b.Settles B [] True w g (.ok (b.transition t isLocal w).1 (b.transition t isLocal w).2) g

theorem transitionAll_settles (h : ∀ n ∈ row, n.block.Moves B) (t : Transition) (isLocal : Bool) (hw : w.Sober B)
    (hn : (channelsOf row).Nodup) (ha : ∀ n ∈ row, n.block.Accounts B g w.document) :
    SettlesAll B [] True row w g (.ok (transitionAll t isLocal row w).1 (transitionAll t isLocal row w).2) g := by
  induction row generalizing w with
  | nil => exact .refl hw.intact ha
  | cons n row ih =>
    obtain ⟨index, atRoot, block⟩ := n
    rw [List.forall_mem_cons] at h ha
    obtain ⟨hblock, hrest, hapart⟩ := List.nodup_append'.1 hn
    have hone := h.1 t isLocal hw hblock ha.1
    exact hone.cons (ih h.2 (hone.books.sober hw) hrest (accounts_books ha.2 hone.books hapart.symm)) hw.intact hn

/-- **Coming in and going out** settle a block. -/
theorem Block.moves (hf : GuestsHeed B) (b : Block H) : b.Moves B := by
  induction b using Block.induct with
  | text t => exact fun _ _ _ _ hw _ ha => .refl hw.intact ha
  | foreign f =>
    intro t isLocal w g hw _ _
    exact Block.settles_of_does (hf.transition t isLocal f w hw.intact).does rfl rfl trivial
  | component core slots children ihs ihc =>
    intro t isLocal w g hw hn ha
    obtain ⟨hcore, has, hac⟩ := Component.accounts_mk.1 ha
    obtain ⟨hns, hnc, hapart⟩ := List.nodup_append'.1 (List.nodup_cons.1 hn).2
    have hcontents := transitionAll_settles ihs t isLocal hw hns has
    have hkids := transitionAll_settles ihc t isLocal (hcontents.books.sober hw) hnc
      (accounts_books hac hcontents.books hapart.symm)
    exact Component.settles_mk hw.intact hn (.refl hw.intact) rfl hcore hcontents hkids

end

end LiveMarkup
