/-
Mounting under a diary.

When a component is mounted, it gets ears and begins its actions, and then its slot contents and its children are mounted in
turn. The markers of those wait to be taken out: nothing is in them, so nobody hears less without them. If a marker is
missing or a block fails, the component is given up: whatever it has begun by then it ends.

- `mountRow_settles`: the blocks of a row are mounted in the places of their markers;
- `Component.opens`: a component that was created is mounted, or given up.
-/
import LiveMarkup.Proofs.Component.Preparing

namespace LiveMarkup

open Markup Marker Forest

variable {H : Host} {B : Logbook H} [ForeignBlocks H]

section

variable {w : World H} {g : Ledger} {row : List (Nested H)} {spots : List (Nat × NodeId)}

omit [ForeignBlocks H] in
/-- nobody hears less when a marker that waits to be taken out is taken out -/
theorem World.does_discard (hw : w.Sober B) {x : NodeId} (hx : w.document.Pending x) (held : List NodeId) :
    w.Does B [] [] (w.discard held x) :=
  World.does_edit (Document.keeps_discard hw.intact hw.discreet hx held.contains)
    (Document.fillsNone_discard hw.intact held.contains x)

omit [ForeignBlocks H] in
/-- the others go on waiting -/
theorem World.Does.pending {K : List Nat} {notes : List Remark} {w₁ : World H} (h : w.Does B K notes w₁)
    (hd : w.document.Intact) (hs : ∀ spot ∈ spots, w.document.Pending spot.2) :
    ∀ spot ∈ spots, w₁.document.Pending spot.2 := fun spot hspot => (hs spot hspot).step h.fills h.keeps hd.valid

omit [ForeignBlocks H] in
theorem World.does_discardAll (hw : w.Sober B) (hs : ∀ spot ∈ spots, w.document.Pending spot.2) (held : List NodeId) :
    w.Does B [] [] (w.discardAll held spots) := by
  induction spots generalizing w with
  | nil => exact .refl hw.intact
  | cons spot spots ih =>
    obtain ⟨index, x⟩ := spot
    rw [List.forall_mem_cons] at hs
    have hone : w.Does B [] [] (w.discard (held ++ spots.map (·.2)) x) := World.does_discard hw hs.1 _
    exact hone.trans (ih (hone.sober hw) (hone.pending hw.intact hs.2)) hw.intact

/-- a block that was created settles when it is mounted in something that is no marker -/
def Block.Opens (B : Logbook H) (b : Block H) : Prop :=
  ∀ (target : NodeId) (anchor : Option NodeId) {w : World H} {g : Ledger}, w.document.Plain target → w.Sober B →
    b.channels.Nodup → b.Accounts B g w.document → b.Unfilled w.document →
    ∃ g₁, b.Settles B [.presence] True w g (b.mountCreated target anchor w) g₁

omit [ForeignBlocks H] in
/-- the blocks of a row wait for being mounted, and their markers wait to be taken out -/
structure RowWaits (B : Logbook H) (g : Ledger) (row : List (Nested H)) (spots : List (Nat × NodeId)) (w : World H) : Prop where
  sober : w.Sober B
  nodup : (channelsOf row).Nodup
  accounts : ∀ n ∈ row, n.block.Accounts B g w.document
  unfilled : ∀ n ∈ row, n.block.Unfilled w.document
  pending : ∀ spot ∈ spots, w.document.Pending spot.2

namespace RowWaits

variable {S : List Subject} {K : List Nat} {w₁ : World H} {g₁ : Ledger} {n : Nested H} {more : List (Nat × NodeId)}

omit [ForeignBlocks H]

/-- they go on waiting while others are dealt with -/
theorem step (h : RowWaits B g row spots w) (hb : w.Books B S True K g w₁ g₁) (hK : List.Disjoint (channelsOf row) K) :
    RowWaits B g₁ row spots w₁ :=
  ⟨hb.sober h.sober, h.nodup, accounts_books h.accounts hb hK, fun n hn => (h.unfilled n hn).books hb,
    fun spot hspot => (h.pending spot hspot).step (hb.fills trivial) hb.keeps h.sober.intact.valid⟩

/-- the blocks behind the first -/
theorem tail (h : RowWaits B g (n :: row) spots w) : RowWaits B g row spots w := by
  obtain ⟨index, atRoot, block⟩ := n
  exact ⟨h.sober, (List.nodup_append'.1 h.nodup).2.1, (List.forall_mem_cons.1 h.accounts).2,
    (List.forall_mem_cons.1 h.unfilled).2, h.pending⟩

/-- some of the markers -/
theorem few (h : RowWaits B g row spots w) (hs : more ⊆ spots) : RowWaits B g row more w :=
  ⟨h.sober, h.nodup, h.accounts, h.unfilled, fun spot hspot => h.pending spot (hs hspot)⟩

/-- with their markers -/
theorem withSpots (h : RowWaits B g row [] w) (hs : ∀ spot ∈ spots, w.document.Pending spot.2) : RowWaits B g row spots w :=
  ⟨h.sober, h.nodup, h.accounts, h.unfilled, hs⟩

end RowWaits

/-- the blocks of a row are mounted in turn, each before its marker -/
theorem mountRow_settles (h : ∀ n ∈ row, n.block.Opens B) (fragment : NodeId) (held later : List NodeId)
    (hr : RowWaits B g row spots w) :
    ∃ g₁, SettlesAll B [.presence] True row w g (mountRow fragment held later row spots w) g₁ := by
  induction row generalizing held spots w g with
  | nil => exact ⟨g, .of_does (World.does_discardAll hr.sober hr.pending _), rfl, List.forall_mem_nil _⟩
  | cons n row ih =>
    obtain ⟨index, atRoot, block⟩ := n
    have hn := hr.nodup
    have hdiscarded := World.does_discardAll hr.sober (hr.few (List.takeWhile_subset (·.1 ≠ index))).pending
      (held ++ (spots.dropWhile (·.1 ≠ index)).map (·.2) ++ later)
    rw [mountRow]
    dsimp only
    generalize w.discardAll (held ++ (spots.dropWhile (·.1 ≠ index)).map (·.2) ++ later)
      (spots.takeWhile (·.1 ≠ index)) = w₁ at hdiscarded ⊢
    have hbooks : w.Books B [.presence] True [] g w₁ g := .of_does hdiscarded
    suffices hafter : ∃ g₁, SettlesAll B [.presence] True (.mk index atRoot block :: row) w₁ g _ g₁ by
      obtain ⟨g₁, hsettles⟩ := hafter
      exact ⟨g₁, hsettles.after (hbooks.channels (List.nil_subset _)) hr.sober.intact⟩
    replace hr := (hr.few (List.dropWhile_suffix (·.1 ≠ index)).subset).step hbooks (List.disjoint_nil_right _)
    have hw₁ := hr.sober
    rw [List.forall_mem_cons] at h
    obtain ⟨hnb, -, hapart⟩ := List.nodup_append'.1 hn
    have hstays : block.Settles B [.presence] True w₁ g (.ok block w₁) g :=
      .refl hw₁.intact (hr.accounts _ List.mem_cons_self)
    cases hspots : spots.dropWhile (·.1 ≠ index) with
    | nil =>
      have hnone : RowWaits B g row [] w₁ := hr.tail.few (List.nil_subset _)
      obtain ⟨g₁, hrest⟩ := ih h.2 held hnone
      exact ⟨g₁, hstays.cons hrest hw₁.intact hn⟩
    | cons spot after =>
      obtain ⟨place, spot⟩ := spot
      rw [hspots] at hr
      have hpending := hr.pending _ List.mem_cons_self
      have hrest := hr.tail.few (List.subset_cons_self _ after)
      dsimp only
      cases hparent : w₁.document.parent? spot with
      | none =>
        have hgone := World.does_discard hw₁ hpending (held ++ (after.map (·.2) ++ later))
        have hbooks₁ : w₁.Books B [.presence] True [] g _ g := .of_does hgone
        obtain ⟨g₁, hothers⟩ := ih h.2 held (hrest.step hbooks₁ (List.disjoint_nil_right _))
        exact ⟨g₁, hstays.cons (hothers.after (hbooks₁.channels (List.nil_subset _)) hw₁.intact) hw₁.intact hn⟩
      | some parent =>
        have hplain : w₁.document.Plain parent := ⟨hw₁.intact.valid.below
          (Document.mem_ids_of_parent? hw₁.intact.valid hparent).1, hpending.parent parent hparent⟩
        obtain ⟨g₁, hone⟩ := h.1 parent (some spot) hplain hw₁ hnb (hr.accounts _ List.mem_cons_self)
          (hr.unfilled _ List.mem_cons_self)
        have hw₂ := hone.books.sober hw₁
        replace hrest := hrest.step hone.books hapart.symm
        dsimp only
        cases (block.mountCreated parent (some spot) w₁).result with
        | error fault => exact ⟨g₁, hone.cons (.left hw₂.intact hrest.accounts) hw₁.intact hn⟩
        | ok =>
          have hgone := World.does_discard hw₂ (hpending.step (hone.books.fills trivial) hone.books.keeps hw₁.intact.valid)
            (held ++ (block.mountCreated parent (some spot) w₁).self.handles ++ (after.map (·.2) ++ later))
          have hbooks₁ : World.Books B [.presence] True [] _ g₁ _ g₁ := .of_does hgone
          obtain ⟨g₂, hothers⟩ := ih h.2 (held ++ (block.mountCreated parent (some spot) w₁).self.handles)
            (hrest.step hbooks₁ (List.disjoint_nil_right _))
          exact ⟨g₂, hone.cons (hothers.after (hbooks₁.channels (List.nil_subset _)) hw₂.intact) hw₁.intact hn⟩

/-- a component that is given up ends what it has begun, however far it has been bound -/
theorem Component.abandon_settles (hf : GuestsHeed B) {core : Core H} {slots children : List (Nested H)}
    (hp : core.phase.Active) (fault : LifecycleFault) (hw : w.Sober B)
    (hn : (Block.component (.mk core slots children)).channels.Nodup) (hnoting : core.Noting B) {ears : List Ear}
    {errands : List Errand} (hh : core.Holds B ears errands w.document) (hg : g core.channel = some errands)
    (has : ∀ n ∈ slots, n.block.Accounts B g w.document) (hac : ∀ n ∈ children, n.block.Accounts B g w.document) :
    ∃ g₁, (Block.component (.mk core slots children)).Settles B [.presence] True w g
      (((Component.mk core slots children).abandon fault w).map .component) g₁ := by
  obtain ⟨g₁, hsettles⟩ := Component.destroy_settles (fun n _ => n.block.closes hf) (fun n _ => n.block.closes hf) hp false hw
    hn hnoting hh (.inl hg) has hac
  rw [Component.destroy_eq hp] at hsettles
  obtain ⟨hcleared, hslots, hchildren⟩ := Component.accounts_mk.1 hsettles.accounts
  obtain ⟨hheld, hnone⟩ := hcleared.resting fun he => nomatch he
  rw [Component.abandon, Component.destroy_eq hp]
  exact ⟨g₁, hsettles.books, hsettles.channels, Component.accounts_mk.2 ⟨.rests ⟨hcleared.noting.template,
    hcleared.noting.guarded, hcleared.noting.named⟩ (fun he => nomatch he) ⟨hheld.cleanups, hheld.hooks, hheld.attached⟩ hnone,
    hslots, hchildren⟩⟩

omit [ForeignBlocks H] in
/-- more was done after a block had settled, which concerned none of its channels -/
theorem Block.Settles.before {S : List Subject} {q : Prop} {b : Block H} {o : Outcome H (Block H)} {g₁ : Ledger}
    {w₂ : World H} {result : Except LifecycleFault Unit} (h : b.Settles B S q w g o g₁)
    (hw : o.world.Books B S q [] g₁ w₂ g₁) (hd : w.document.Intact) : b.Settles B S q w g ⟨o.self, w₂, result⟩ g₁ :=
  ⟨h.books.trans (hw.channels (List.nil_subset _)) hd, h.channels, h.accounts.books hw (List.disjoint_nil_right _)⟩

omit [ForeignBlocks H] in
theorem Block.Settles.imp {S : List Subject} {q q' : Prop} {b : Block H} {o : Outcome H (Block H)} {g₁ : Ledger}
    (h : b.Settles B S q w g o g₁) (hq : q' → q) : b.Settles B S q' w g o g₁ :=
  ⟨h.books.mono (List.Subset.refl _) hq (List.Subset.refl _), h.channels, h.accounts⟩

omit [ForeignBlocks H] in
theorem SettlesAll.imp {S : List Subject} {q q' : Prop} {o : Outcome H (List (Nested H))} {g₁ : Ledger}
    (h : SettlesAll B S q row w g o g₁) (hq : q' → q) : SettlesAll B S q' row w g o g₁ :=
  ⟨h.books.mono (List.Subset.refl _) hq (List.Subset.refl _), h.channels, h.accounts⟩

/-- the blocks of a component that has been bound are mounted, and its nodes go to the target -/
theorem Component.mountBlocks_settles (hf : GuestsHeed B) {core : Core H} {fragment : NodeId} (target : NodeId)
    (anchor : Option NodeId) {slotSpots childSpots : List (Nat × NodeId)} {slots children : List (Nested H)}
    (hs : ∀ n ∈ slots, n.block.Opens B) (hc : ∀ n ∈ children, n.block.Opens B) (hp : core.phase = .created fragment)
    (hn : (Block.component (.mk core slots children)).channels.Nodup) (hnoting : core.Noting B) {ears : List Ear}
    {errands : List Errand} (hh : core.Holds B ears errands w.document) (hg : g core.channel = some errands)
    (hears : ears.map (fun ear => (ear.event, ear.topic)) = core.template.eventTopics)
    (hhollow : w.document.Hollow fragment) (hrs : RowWaits B g slots slotSpots w) (hrc : RowWaits B g children childSpots w) :
    ∃ g₁, (Block.component (.mk core slots children)).Settles B [.presence] (w.document.Plain target) w g
      ((core.mountBlocks fragment target anchor slotSpots childSpots slots children w).map .component) g₁ := by
  obtain ⟨hnot, hboth⟩ := List.nodup_cons.1 hn
  rw [List.mem_append, not_or] at hnot
  obtain ⟨-, -, hapart⟩ := List.nodup_append'.1 hboth
  have hw := hrs.sober
  have hactive : core.phase.Active := by
    rw [hp]
    trivial
  rw [Core.mountBlocks]
  dsimp only
  generalize (w.document.children fragment).filter (!((slotSpots ++ childSpots).map (·.2)).contains ·) = roots
  generalize Core.handles { core with roots } = handles
  have hroots : ∀ {d : Document (Listener H.Handler)}, core.Holds B ears errands d →
      Core.Holds B ears errands { core with roots } d := fun h => ⟨h.cleanups, h.hooks, h.attached⟩
  have hrootedActive : (Core.phase { core with roots }).Active := hactive
  have hrooted : Core.Noting B { core with roots } := ⟨hnoting.template, hnoting.guarded, hnoting.named⟩
  have hsame : (Block.component (.mk { core with roots } slots children)).channels =
      (Block.component (.mk core slots children)).channels := rfl
  obtain ⟨g₁, hcontents⟩ := mountRow_settles hs fragment handles (childSpots.map (·.2)) hrs
  have hother := hcontents.books.fills trivial
  have hheld := hh.keeps hcontents.books.keeps ⟨hnoting.guarded, hnot.1⟩
  have hentry : g₁ core.channel = some errands := (hcontents.books.elsewhere _ hnot.1).trans hg
  replace hrc := hrc.step hcontents.books hapart.symm
  generalize mountRow fragment handles (childSpots.map (·.2)) slots slotSpots w = contents at *
  have hw₁ := hcontents.books.sober hw
  -- giving up after the slot contents or after the children
  have habandon : ∀ {row row' : List (Nested H)} {w₁ : World H} {g₁ : Ledger} (fault : LifecycleFault),
      w.Books B [.presence] True (Block.channels (.component (.mk core slots children))) g w₁ g₁ →
      channelsOf row = channelsOf slots → channelsOf row' = channelsOf children → core.Holds B ears errands w₁.document →
      g₁ core.channel = some errands → (∀ n ∈ row, n.block.Accounts B g₁ w₁.document) →
      (∀ n ∈ row', n.block.Accounts B g₁ w₁.document) →
      ∃ g₂, (Block.component (.mk core slots children)).Settles B [.presence] (w.document.Plain target) w g
        (((Component.mk { core with roots } row row').abandon fault w₁).map .component) g₂ := by
    intro row row' w₁ g₁ fault hbooks hrow hrow' hheld hentry har har'
    have hchannels : Block.channels (.component (.mk { core with roots } row row')) =
        Block.channels (.component (.mk core slots children)) := by
      show core.channel :: (channelsOf row ++ channelsOf row') = _
      rw [hrow, hrow']
      rfl
    obtain ⟨g₂, hgone⟩ := Component.abandon_settles hf hrootedActive fault (hbooks.sober hw)
      (hchannels ▸ hn) hrooted (hroots hheld) hentry har har'
    exact ⟨g₂, (hgone.after hchannels hbooks hw.intact).imp fun _ => trivial⟩
  have hfirst : w.Books B [.presence] True (Block.channels (.component (.mk core slots children))) g contents.world g₁ :=
    hcontents.books.channels fun k hk => mem_channels_mk.2 (.inr (.inl hk))
  cases contents.result with
  | error fault => exact habandon fault hfirst hcontents.channels rfl hheld hentry hcontents.accounts hrc.accounts
  | ok =>
    dsimp only
    obtain ⟨g₂, hkids⟩ := mountRow_settles hc fragment (handles ++ handlesOf contents.self) [] hrc
    generalize mountRow fragment (handles ++ handlesOf contents.self) [] children childSpots contents.world = kids at *
    have hlast := hkids.books.fills trivial
    cases kids.result with
    | error fault =>
      refine habandon fault (hfirst.trans (hkids.books.channels fun k hk => mem_channels_mk.2 (.inr (.inr hk))) hw.intact)
        hcontents.channels hkids.channels (hheld.keeps hkids.books.keeps ⟨hnoting.guarded, hnot.2⟩)
        ((hkids.books.elsewhere _ hnot.2).trans hentry) (accounts_books hcontents.accounts hkids.books ?_) hkids.accounts
      rw [hcontents.channels]
      exact hapart
    | ok =>
      have hmounted : Core.Accounts B g w.document { core with roots, phase := .mounted } := by
        refine ⟨⟨hnoting.template, hnoting.guarded, hnoting.named⟩, ears, ?_, fun _ => ⟨hears, ?_⟩, fun he => absurd rfl he⟩
        · show Core.Holds B ears ((g core.channel).getD []) _ _
          rw [hg]
          exact ⟨hh.cleanups, hh.hooks, hh.attached⟩
        · show g core.channel ≠ none
          rw [hg]
          exact Option.some_ne_none errands
      have hsettled : (Block.component (.mk core slots children)).Settles B [.presence] True w g
          (.ok (.component (.mk { core with roots, phase := .mounted } contents.self kids.self)) kids.world) g₂ :=
        Component.settles_mk hw.intact hn (.refl hw.intact) rfl hmounted hcontents hkids
      have hw₂ := hkids.books.sober hw₁
      have hgoes : kids.world.Goes B [] [] (kids.world.edit (·.insertBefore target fragment anchor)) :=
        .of_keeps (Document.keeps_insertBefore hw₂.intact target fragment anchor) (List.append_nil _).symm
      refine ⟨g₂, (hsettled.imp fun _ => trivial).before ⟨⟨[], hgoes, .done⟩, fun hplain => ?_, fun _ _ => rfl⟩ hw.intact⟩
      -- what is in the fragment is hollow, and goes to something that is no marker
      have hboth := hother.trans hlast hw₁.intact.valid hcontents.books.keeps.fresh
      have hfresh := Nat.le_trans hcontents.books.keeps.fresh hkids.books.keeps.fresh
      exact Document.fillsNone_insertBefore hw₂.intact (hplain.fills hboth hfresh).unshut (hboth.hollow _ hhollow) anchor

omit [ForeignBlocks H] in
/-- a component that was created binds itself, and the blocks that are nested in it go on waiting -/
theorem Component.binds {core : Core H} {slots children : List (Nested H)} {fragment : NodeId}
    (hp : core.phase = .created fragment) (hw : w.Sober B)
    (hn : (Block.component (.mk core slots children)).channels.Nodup)
    (ha : (Block.component (.mk core slots children)).Accounts B g w.document)
    (hu : (Block.component (.mk core slots children)).Unfilled w.document) :
    let o := core.bind fragment w
    ∃ ears errands, w.Does B [core.channel] (beginnings errands) o.world ∧
      w.Books B [.presence] True [core.channel] g o.world (g.set core.channel (some errands)) ∧
      o.self.Holds B ears errands o.world.document ∧ o.self.Noting B ∧
      (o.result = .ok () → ears.map (fun ear => (ear.event, ear.topic)) = core.template.eventTopics) ∧
      RowWaits B (g.set core.channel (some errands)) slots [] o.world ∧
      RowWaits B (g.set core.channel (some errands)) children [] o.world := by
  intro o
  obtain ⟨hcore, has, hac⟩ := Component.accounts_mk.1 ha
  obtain ⟨hown, hus, huc⟩ := Component.unfilled_mk.1 hu
  obtain ⟨hheld, hnone⟩ := hcore.resting hown.waiting
  obtain ⟨ears, errands, hdoes, hfollow, hbound, hnoting, hears⟩ :=
    core.bind_goes hw.intact hcore.noting (hown.fragment fragment hp).hollow
      (fun cell hcell => (hown.texts cell hcell).hollow) hheld
  have hbooks : w.Books B [.presence] True [core.channel] g (core.bind fragment w).world
      (g.set core.channel (some errands)) := .opens hdoes hnone hfollow
  obtain ⟨hnot, hboth⟩ := List.nodup_cons.1 hn
  rw [List.mem_append, not_or] at hnot
  obtain ⟨hns, hnc, -⟩ := List.nodup_append'.1 hboth
  have hslots : RowWaits B g slots [] w := ⟨hw, hns, has, hus, List.forall_mem_nil _⟩
  have hchildren : RowWaits B g children [] w := ⟨hw, hnc, hac, huc, List.forall_mem_nil _⟩
  exact ⟨ears, errands, hdoes, hbooks, hbound, hnoting, hears, hslots.step hbooks (List.disjoint_singleton.2 hnot.1),
    hchildren.step hbooks (List.disjoint_singleton.2 hnot.2)⟩

/-- **Mounting** a component that was created settles it, whatever it results in. -/
theorem Component.opens (hf : GuestsHeed B) {core : Core H} {slots children : List (Nested H)}
    (hs : ∀ n ∈ slots, n.block.Opens B) (hc : ∀ n ∈ children, n.block.Opens B) (target : NodeId) (anchor : Option NodeId)
    (hw : w.Sober B) (hn : (Block.component (.mk core slots children)).channels.Nodup)
    (ha : (Block.component (.mk core slots children)).Accounts B g w.document)
    (hu : (Block.component (.mk core slots children)).Unfilled w.document) :
    ∃ g₁, (Block.component (.mk core slots children)).Settles B [.presence] (w.document.Plain target) w g
      (((Component.mk core slots children).mountCreated target anchor w).map .component) g₁ := by
  by_cases hp : ∃ fragment, core.phase = .created fragment
  · obtain ⟨fragment, hp⟩ := hp
    obtain ⟨ears, errands, hdoes, hbooks, hbound, hnoting, hears, hslots, hchildren⟩ := Component.binds hp hw hn ha hu
    have hw₁ := hslots.sober
    have hvalues := core.bind_values fragment w
    have hphase : (core.bind fragment w).self.phase = .created fragment := (core.phase_bind fragment w).trans hp
    have hentry : (g.set core.channel (some errands)) (core.bind fragment w).self.channel = some errands := by
      rw [hvalues.channel]
      exact g.set_self _ _
    have hchannels : Block.channels (.component (.mk (core.bind fragment w).self slots children)) =
        Block.channels (.component (.mk core slots children)) := by
      show (core.bind fragment w).self.channel :: _ = _
      rw [hvalues.channel]
      rfl
    have hfirst : w.Books B [.presence] True (Block.channels (.component (.mk core slots children))) g
        (core.bind fragment w).world (g.set core.channel (some errands)) :=
      hbooks.channels fun k hk => mem_channels_mk.2 (.inl (List.mem_singleton.1 hk))
    rcases Component.mountCreated_cases hp target anchor slots children w with ⟨fault, heq⟩ |
      ⟨hok, slotSpots, childSpots, hslotSpots, hchildSpots, heq⟩
    · rw [heq]
      have hactive : (core.bind fragment w).self.phase.Active := by
        rw [hphase]
        trivial
      obtain ⟨g₁, hgone⟩ := Component.abandon_settles hf hactive fault hw₁ (hchannels ▸ hn) hnoting hbound hentry
        hslots.accounts hchildren.accounts
      exact ⟨g₁, (hgone.after hchannels hfirst hw.intact).imp fun _ => trivial⟩
    · rw [heq]
      have hstill := hdoes.fills.hollow _ ((Component.unfilled_mk.1 hu).1.fragment fragment hp).hollow
      have hindices := (Component.accounts_mk.1 ha).1.noting.template.sound.indices_lt
      obtain ⟨g₁, hsettles⟩ := Component.mountBlocks_settles hf target anchor hs hc hphase
        (hchannels ▸ hn) hnoting hbound hentry (by rw [hvalues.template]; exact hears hok) hstill
        (hslots.withSpots (World.pending_of_spots hw₁.intact hstill rfl (hindices .slot) hslotSpots))
        (hchildren.withSpots (World.pending_of_spots hw₁.intact hstill rfl (hindices .child) hchildSpots))
      refine ⟨g₁, Block.Settles.after (hsettles.imp fun hplain => ?_) hchannels
        (hfirst.mono (List.Subset.refl _) (fun _ => trivial) (List.Subset.refl _)) hw.intact⟩
      exact hplain.fills hdoes.fills hdoes.keeps.fresh
  · have hrefused : ∃ fault, (Component.mk core slots children).mountCreated target anchor w =
        .fail fault (.mk core slots children) w := by
      rw [Component.mountCreated]
      cases hphase : core.phase with
      | created fragment => exact absurd ⟨fragment, hphase⟩ hp
      | mounted => exact ⟨_, rfl⟩
      | unmounted => exact ⟨_, rfl⟩
      | destroyed => exact ⟨_, rfl⟩
    obtain ⟨fault, heq⟩ := hrefused
    rw [heq]
    exact ⟨g, .refl hw.intact ha⟩

/-- so does every block -/
theorem Block.opens (hf : GuestsHeed B) (b : Block H) : b.Opens B := by
  induction b using Block.induct with
  | text t =>
    intro target anchor w g hplain hw hn ha hu
    have hprepared := Block.prepares hf (.text t) (S := [.presence]) hw hn ha hu .nil
    refine ⟨g, ?_⟩
    show Settles B [.presence] True _ w g ⟨.text (t.mount target anchor w).1, (t.mount target anchor w).2, .ok ()⟩ g
    have hcreated : (Block.text t).Settles B [.presence] True w g ⟨.text (t.create w).1, (t.create w).2, .ok ()⟩ g :=
      hprepared.toSettles
    have hw₁ := hcreated.books.sober hw
    have hunfilled : ∀ x, (t.create w).1.node = some x → (t.create w).2.document.Vacant (.text "") x := hprepared.unfilled
    rw [TextBlock.mount]
    dsimp only
    cases hnode : (t.create w).1.node with
    | none => exact hcreated
    | some x =>
      have hplain₁ := hplain.fills (hcreated.books.fills trivial) hcreated.books.keeps.fresh
      refine hcreated.before (.of_does (World.does_edit (Document.keeps_insertBefore hw₁.intact target x anchor) ?_)) hw.intact
      exact Document.fillsNone_insertBefore hw₁.intact hplain₁.unshut (hunfilled x hnode).hollow anchor
  | foreign f =>
    intro target anchor w g hplain hw _ _ _
    exact ⟨g, Block.settles_of_does (hf.mount target anchor f w hw.intact hplain).does rfl rfl trivial⟩
  | component core slots children ihs ihc =>
    intro target anchor w g hplain hw hn ha hu
    obtain ⟨g₁, hsettles⟩ := Component.opens hf ihs ihc target anchor hw hn ha hu
    exact ⟨g₁, hsettles.imp fun _ => hplain⟩

end

end LiveMarkup
