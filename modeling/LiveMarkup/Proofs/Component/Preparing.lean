/-
Creating under a diary.

A component that is created makes a copy of its skeleton, and so do all that are nested in it. Each copy is in a fragment of
its own, with nothing in the markers, and nothing is noted.

- `Fresh.append`: fragments that are made one after another are different;
- `Block.prepares`: a block is created.
-/
import LiveMarkup.Proofs.Component.Accounts

namespace LiveMarkup

open Markup Marker Forest

variable {H : Host} {B : Logbook H}

/-! ## Fragments -/

/-- the fragment of a component that has been created and not mounted yet -/
def Phase.fragments : Phase → List NodeId
  | .created fragment => [fragment]
  | _ => []

theorem Phase.mem_fragments {phase : Phase} {f : NodeId} : f ∈ phase.fragments ↔ phase = .created f := by
  cases phase with
  | created x => exact List.mem_singleton.trans ⟨fun he => by rw [he], fun he => (Phase.created.inj he).symm⟩
  | unmounted | mounted | destroyed => exact ⟨fun h => absurd h List.not_mem_nil, fun he => nomatch he⟩

theorem Phase.fragments_nodup (phase : Phase) : phase.fragments.Nodup := by
  cases phase with
  | created x => exact List.nodup_singleton x
  | unmounted | mounted | destroyed => exact .nil

mutual
/-- the fragments of a component and of all that are nested in it -/
def Component.fragments : Component H → List NodeId
  | .mk core slots children => core.phase.fragments ++ (fragmentsOf slots ++ fragmentsOf children)
def fragmentsOf : List (Nested H) → List NodeId
  | [] => []
  | .mk _ _ block :: row => block.fragments ++ fragmentsOf row
def Block.fragments : Block H → List NodeId
  | .text _ => []
  | .foreign _ => []
  | .component c => c.fragments
end

theorem mem_fragmentsOf {row : List (Nested H)} {f : NodeId} : f ∈ fragmentsOf row ↔ ∃ n ∈ row, f ∈ n.block.fragments := by
  induction row with
  | nil => exact ⟨fun h => absurd h List.not_mem_nil, fun ⟨_, h, _⟩ => absurd h List.not_mem_nil⟩
  | cons n row ih =>
    obtain ⟨index, atRoot, block⟩ := n
    rw [fragmentsOf, List.mem_append, ih, List.exists_mem_cons_iff, Nested.block]

theorem Component.fragments_mk {core : Core H} {slots children : List (Nested H)} {f : NodeId} :
    f ∈ (Block.component (.mk core slots children)).fragments ↔
      core.phase = .created f ∨ f ∈ fragmentsOf slots ∨ f ∈ fragmentsOf children := by
  show f ∈ core.phase.fragments ++ (fragmentsOf slots ++ fragmentsOf children) ↔ _
  rw [List.mem_append, List.mem_append, Phase.mem_fragments]

/-- the fragments of what waits to be mounted are fragments, with nothing in their markers -/
theorem Block.Unfilled.vacant {b : Block H} {d : Document (Listener H.Handler)} (h : b.Unfilled d) :
    ∀ f ∈ b.fragments, d.Vacant .fragment f := by
  induction b using Block.induct with
  | text t => exact List.forall_mem_nil _
  | foreign f => exact List.forall_mem_nil _
  | component core slots children ihs ihc =>
    obtain ⟨hown, hs, hc⟩ := Component.unfilled_mk.1 h
    intro f hf
    rcases Component.fragments_mk.1 hf with hf | hf | hf
    · exact hown.fragment f hf
    · obtain ⟨n, hn, hf⟩ := mem_fragmentsOf.1 hf
      exact ihs n hn (hs n hn) f hf
    · obtain ⟨n, hn, hf⟩ := mem_fragmentsOf.1 hf
      exact ihc n hn (hc n hn) f hf

mutual
/-- a component has the same fragments on the same footing -/
theorem Component.Like.fragments : (c c' : Component H) → c.Like footing c' → c'.fragments = c.fragments
  | .mk _ slots children, .mk _ slots' children', h => by
    rw [Component.fragments, Component.fragments, Core.SameFooting.phase h.1, likeAll.fragments slots slots' h.2.1,
      likeAll.fragments children children' h.2.2]
theorem likeAll.fragments : (row row' : List (Nested H)) → likeAll footing row row' → fragmentsOf row' = fragmentsOf row
  | [], [], _ => rfl
  | .mk _ _ block :: row, .mk _ _ block' :: row', h => by
    rw [fragmentsOf, fragmentsOf, Block.Like.fragments block block' h.2.1, likeAll.fragments row row' h.2.2]
theorem Block.Like.fragments : (b b' : Block H) → b.Like footing b' → b'.fragments = b.fragments
  | .text _, .text _, _ => rfl
  | .foreign _, .foreign _, _ => rfl
  | .component c, .component c', h => Component.Like.fragments c c' h
end

/-- what has nothing in a document has no fragments -/
theorem Block.Idle.fragments {b : Block H} (h : b.Idle) : b.fragments = [] := by
  induction b using Block.induct with
  | text t => rfl
  | foreign f => rfl
  | component core slots children ihs ihc =>
    refine List.eq_nil_iff_forall_not_mem.2 fun f hf => ?_
    rcases Component.fragments_mk.1 hf with hf | hf | hf
    · exact h.1.phase (by rw [hf]; trivial)
    · obtain ⟨n, hn, hf⟩ := mem_fragmentsOf.1 hf
      rw [ihs n hn (eachOf_iff.1 h.2.1 n hn)] at hf
      cases hf
    · obtain ⟨n, hn, hf⟩ := mem_fragmentsOf.1 hf
      rw [ihc n hn (eachOf_iff.1 h.2.2 n hn)] at hf
      cases hf

/-- nor is anything in its markers -/
theorem Block.Idle.unfilled {b : Block H} (h : b.Idle) (d : Document (Listener H.Handler)) : b.Unfilled d :=
  Block.Each.imp (fun core hc => ⟨fun he => hc.phase (by rw [he]; trivial), fun x hx => absurd (by rw [hx]; trivial) hc.phase, by
    rw [hc.textCells]; exact List.forall_mem_nil _⟩) (fun t ht x hx => by rw [ht] at hx; cases hx) h

/-- what waits to be mounted goes on waiting on the same footing -/
theorem Component.Like.unfilled {c c' : Component H} {d : Document (Listener H.Handler)} (h : c.Like footing c')
    (hu : (Block.component c).Unfilled d) : (Block.component c').Unfilled d :=
  Component.Like.each (fun a b hab hc => ⟨by rw [Core.SameFooting.phase hab]; exact hc.waiting, by
    rw [Core.SameFooting.phase hab]; exact hc.fragment, by rw [Core.SameFooting.textCells hab]; exact hc.texts⟩)
    (fun a b hab ht => by rw [show b.node = a.node from hab]; exact ht) h hu

/-- no two of the new numbers are the same, and each is an old one or not below `n` -/
structure Fresh (n : NodeId) (old new : List NodeId) : Prop where
  nodup : new.Nodup
  since : ∀ f ∈ new, f ∈ old ∨ n ≤ f

section

variable {n m : NodeId} {a a' b b' : List NodeId}

theorem Fresh.refl (h : a.Nodup) : Fresh n a a := ⟨h, fun _ => .inl⟩

/-- what is new later is different from what was new before -/
theorem Fresh.append (h : Fresh n a a') (h' : Fresh m b b') (hle : n ≤ m) (hb : ∀ f ∈ b, f < n) (ha : ∀ f ∈ a', f < m)
    (hab : List.Disjoint a b) : Fresh n (a ++ b) (a' ++ b') := by
  refine ⟨List.nodup_append'.2 ⟨h.nodup, h'.nodup, fun f hin hin' => ?_⟩,
    List.forall_mem_append.2 ⟨fun f hin => ?_, fun f hin => ?_⟩⟩
  · rcases h'.since f hin' with hold | hnew
    · rcases h.since f hin with hold' | hnew
      · exact hab hold' hold
      · exact Nat.lt_irrefl _ (Nat.lt_of_lt_of_le (hb f hold) hnew)
    · exact Nat.lt_irrefl _ (Nat.lt_of_lt_of_le (ha f hin) hnew)
  · exact (h.since f hin).imp_left (List.mem_append_left b)
  · exact (h'.since f hin).imp (List.mem_append_right a) (Nat.le_trans hle)

theorem Fresh.swap (h : Fresh n (a ++ b) (a' ++ b')) : Fresh n (b ++ a) (b' ++ a') :=
  ⟨(List.perm_append_comm.nodup_iff).1 h.nodup, fun f hin => (h.since f (List.perm_append_comm.mem_iff.1 hin)).imp_left
    List.perm_append_comm.mem_iff.1⟩

end

/-! ## Creating -/

section

variable [ForeignBlocks H] {S : List Subject} {w : World H} {g : Ledger} {b : Block H} {row : List (Nested H)}

omit [ForeignBlocks H] in
/-- a component settles also if its children come before its slot contents -/
theorem Component.settles_swap {S : List Subject} {q : Prop} {core c : Core H} {slots children contents kids : List (Nested H)}
    {w₁ : World H} {g₁ : Ledger} {result : Except LifecycleFault Unit}
    (h : (Block.component (.mk core children slots)).Settles B S q w g ⟨.component (.mk c kids contents), w₁, result⟩ g₁)
    (hc : channelsOf contents = channelsOf slots) (hk : channelsOf kids = channelsOf children) :
    (Block.component (.mk core slots children)).Settles B S q w g ⟨.component (.mk c contents kids), w₁, result⟩ g₁ := by
  have hchannel : c.channel = core.channel := (List.cons.inj h.channels).1
  obtain ⟨hown, hkids, hcontents⟩ := Component.accounts_mk.1 h.accounts
  refine ⟨h.books.channels fun k hk => ?_, ?_, Component.accounts_mk.2 ⟨hown, hcontents, hkids⟩⟩
  · rw [mem_channels_mk] at hk ⊢
    exact hk.imp_right Or.symm
  · show c.channel :: (channelsOf contents ++ channelsOf kids) = _
    rw [hchannel, hc, hk]
    rfl

omit [ForeignBlocks H] in
/-- a block has been created as far as that went: it has settled, nothing is in the markers, and its fragments are different -/
structure Block.Prepared (B : Logbook H) (S : List Subject) (b : Block H) (w : World H) (g : Ledger)
    (o : Outcome H (Block H)) : Prop extends b.Settles B S True w g o g where
  unfilled : o.self.Unfilled o.world.document
  fragments : Fresh w.document.fresh b.fragments o.self.fragments

omit [ForeignBlocks H] in
structure PreparedAll (B : Logbook H) (S : List Subject) (row : List (Nested H)) (w : World H) (g : Ledger)
    (o : Outcome H (List (Nested H))) : Prop extends SettlesAll B S True row w g o g where
  unfilled : ∀ n ∈ o.self, n.block.Unfilled o.world.document
  fragments : Fresh w.document.fresh (fragmentsOf row) (fragmentsOf o.self)

omit [ForeignBlocks H] in
/-- the fragments of what waits to be mounted have been made -/
theorem fragmentsOf_known {d : Document (Listener H.Handler)} (h : ∀ n ∈ row, n.block.Unfilled d) :
    ∀ f ∈ fragmentsOf row, f < d.fresh := fun f hf =>
  have ⟨n, hn, hf⟩ := mem_fragmentsOf.1 hf
  ((h n hn).vacant f hf).known

omit [ForeignBlocks H] in
/-- the blocks of a row are left alone -/
theorem PreparedAll.left (hd : w.document.Intact) (h : ∀ n ∈ row, n.block.Accounts B g w.document)
    (hu : ∀ n ∈ row, n.block.Unfilled w.document) (hf : (fragmentsOf row).Nodup) :
    PreparedAll B S row w g (.ok row w) := ⟨.left hd h, hu, .refl hf⟩

omit [ForeignBlocks H] in
/-- a block has been created, and then the blocks after it -/
theorem Block.Prepared.cons {index : Nat} {atRoot : Bool} {o : Outcome H (Block H)} {others : Outcome H (List (Nested H))}
    (h : b.Prepared B S w g o) (hrest : PreparedAll B S row o.world g others) (hd : w.document.Intact)
    (hn : (channelsOf (.mk index atRoot b :: row)).Nodup) (hu : ∀ n ∈ row, n.block.Unfilled w.document)
    (hf : (fragmentsOf (.mk index atRoot b :: row)).Nodup) {result : Except LifecycleFault Unit} :
    PreparedAll B S (.mk index atRoot b :: row) w g ⟨.mk index atRoot o.self :: others.self, others.world, result⟩ :=
  ⟨h.toSettles.cons hrest.toSettlesAll hd hn,
    List.forall_mem_cons.2 ⟨Block.Unfilled.books h.unfilled hrest.books, hrest.unfilled⟩,
    h.fragments.append hrest.fragments h.books.keeps.fresh (fragmentsOf_known hu)
      (fun f hf => (h.unfilled.vacant f hf).known) (List.nodup_append'.1 hf).2.2⟩

/-- a block is created, with nothing in the markers and fragments of its own -/
def Block.Prepares (B : Logbook H) (b : Block H) : Prop :=
  ∀ {S : List Subject} {w : World H} {g : Ledger}, w.Sober B → b.channels.Nodup → b.Accounts B g w.document →
    b.Unfilled w.document → b.fragments.Nodup → b.Prepared B S w g (b.create w)

theorem createAll_prepared (h : ∀ n ∈ row, n.block.Prepares B) (hw : w.Sober B)
    (hn : (channelsOf row).Nodup) (ha : ∀ n ∈ row, n.block.Accounts B g w.document)
    (hu : ∀ n ∈ row, n.block.Unfilled w.document) (hf : (fragmentsOf row).Nodup) :
    PreparedAll B S row w g (createAll row w) := by
  induction row generalizing w with
  | nil => exact .left hw.intact ha hu hf
  | cons n row ih =>
    obtain ⟨index, atRoot, block⟩ := n
    have hall := hu
    rw [List.forall_mem_cons] at h ha hu
    obtain ⟨hblock, hrest, hapart⟩ := List.nodup_append'.1 hn
    obtain ⟨hfirst, hothers, -⟩ := List.nodup_append'.1 hf
    have hone := h.1 (S := S) hw hblock ha.1 hu.1 hfirst
    have hw₁ := hone.books.sober hw
    have haccounts := accounts_books ha.2 hone.books hapart.symm
    have hunfilled : ∀ n ∈ row, n.block.Unfilled (block.create w).world.document := fun n hn => (hu.2 n hn).books hone.books
    rw [createAll]
    cases (block.create w).result with
    | error fault => exact hone.cons (.left hw₁.intact haccounts hunfilled hothers) hw.intact hn hu.2 hf
    | ok => exact hone.cons (ih h.2 hw₁ hrest haccounts hunfilled hothers) hw.intact hn hu.2 hf

/-- **Creating** a block settles it, with nothing in the markers and fragments of its own. -/
theorem Block.prepares (hf : GuestsHeed B) (b : Block H) : b.Prepares B := by
  induction b using Block.induct with
  | text t =>
    intro S w g hw _ _ hu _
    show Prepared B S _ w g ⟨.text (t.create w).1, (t.create w).2, .ok ()⟩
    rw [TextBlock.create]
    cases hnode : t.node with
    | some x => exact ⟨.refl (b := .text t) hw.intact trivial, hu, .refl .nil⟩
    | none =>
      obtain ⟨hdoes, hnew⟩ := World.does_addText (B := B) hw.intact t.data
      exact ⟨Block.settles_of_does hdoes rfl rfl trivial, fun y hy => Option.some.inj hy ▸ hnew, .refl .nil⟩
  | foreign f =>
    intro S w g hw _ _ _ _
    exact ⟨Block.settles_of_does (hf.create f w hw.intact).does rfl rfl trivial, trivial, .refl .nil⟩
  | component core slots children ihs ihc =>
    intro S w g hw hn ha hu hfragments
    obtain ⟨hcore, has, hac⟩ := Component.accounts_mk.1 ha
    obtain ⟨-, hus, huc⟩ := Component.unfilled_mk.1 hu
    show Prepared B S _ w g (((Component.mk core slots children).create w).map .component)
    by_cases hp : core.phase.Active
    · -- nothing is done to what is created or mounted
      have hsame : ((Component.mk core slots children).create w).self = .mk core slots children ∧
          ((Component.mk core slots children).create w).world = w := by
        rw [Component.create]
        cases hphase : core.phase with
        | created fragment => exact ⟨rfl, rfl⟩
        | mounted => exact ⟨rfl, rfl⟩
        | unmounted => rw [hphase] at hp; exact hp.elim
        | destroyed => rw [hphase] at hp; exact hp.elim
      show Prepared B S _ w g ⟨.component _, _, _⟩
      rw [hsame.1, hsame.2]
      exact ⟨.refl hw.intact ha, hu, .refl hfragments⟩
    · have hmounted : core.phase ≠ .mounted := fun he => hp (by rw [he]; trivial)
      obtain ⟨hheld, hnone⟩ := hcore.resting hmounted
      obtain ⟨hprepared, hfragment, htexts, hnames⟩ := core.prepare_does (B := B) hw.intact hcore.noting.template.sound
      have hown : w.Books B S True [core.channel] g (core.prepare w).2.2 g :=
        .of_does (hprepared.mono (List.nil_subset _))
      have hheld₁ := hheld.keeps hprepared.keeps ⟨hcore.noting.guarded, List.not_mem_nil⟩
      have hchannel : (core.prepare w).1.channel = core.channel := rfl
      have hnoting : (core.prepare w).1.Noting B := ⟨hcore.noting.template, hcore.noting.guarded, hnames⟩
      -- whether it gets as far as being created or not
      have haccounts : ∀ phase : Phase, phase ≠ .mounted →
          Core.Accounts B g (core.prepare w).2.2.document { (core.prepare w).1 with phase } := fun phase hphase =>
        .rests ⟨hnoting.template, hnoting.guarded, hnoting.named⟩ hphase ⟨hheld₁.cleanups, hheld₁.hooks, hheld₁.attached⟩ hnone
      have hunfilled : ∀ phase : Phase, phase ≠ .mounted → (∀ x, phase = .created x → x = (core.prepare w).2.1) →
          Core.Unfilled (core.prepare w).2.2.document { (core.prepare w).1 with phase } := fun phase hwaiting hphase =>
        ⟨hwaiting, fun x hx => by rw [hphase x hx]; exact hfragment, htexts⟩
      have hw₁ := hown.sober hw
      obtain ⟨hnot, hboth⟩ := List.nodup_cons.1 hn
      rw [List.mem_append, not_or] at hnot
      obtain ⟨hns, hnc, hapart⟩ := List.nodup_append'.1 hboth
      have hswapped : (Block.component (.mk core children slots)).channels.Nodup :=
        List.nodup_cons.2 ⟨by rw [List.mem_append, not_or]; exact hnot.symm, List.nodup_append'.2 ⟨hnc, hns, hapart.symm⟩⟩
      have hbefore : core.phase.fragments = [] := by
        cases hphase : core.phase with
        | created fragment => rw [hphase] at hp; exact absurd trivial hp
        | unmounted | mounted | destroyed => rfl
      have hnested : (fragmentsOf slots ++ fragmentsOf children).Nodup := by
        have hsame : (Block.component (.mk core slots children)).fragments = _ :=
          congrArg (· ++ (fragmentsOf slots ++ fragmentsOf children)) hbefore
        rwa [hsame] at hfragments
      obtain ⟨hfs, hfc, hfapart⟩ := List.nodup_append'.1 hnested
      have hkids := createAll_prepared (S := S) ihc hw₁ hnc
        (accounts_books hac hown (List.disjoint_singleton.2 hnot.2)) (fun n hn => (huc n hn).books hown) hfc
      have hslots := accounts_books (accounts_books has hown (List.disjoint_singleton.2 hnot.1)) hkids.books hapart
      have huslots : ∀ n ∈ slots, n.block.Unfilled (createAll children (core.prepare w).2.2).world.document := fun n hn =>
        ((hus n hn).books hown).books hkids.books
      have hinactive : ∀ x, core.phase = .created x → x = (core.prepare w).2.1 := fun x hx => by
        rw [hx] at hp
        exact absurd trivial hp
      have hpast : (core.prepare w).2.1 = w.document.fresh := rfl
      have hnew : ∀ (phase : Phase) {contents kids : List (Nested H)},
          (∀ x, phase = .created x → x = (core.prepare w).2.1) → Fresh (core.prepare w).2.2.document.fresh
            (fragmentsOf children ++ fragmentsOf slots) (fragmentsOf kids ++ fragmentsOf contents) →
          Fresh w.document.fresh (Block.component (.mk core slots children)).fragments
            (Block.component (.mk { (core.prepare w).1 with phase } contents kids)).fragments := by
        intro phase contents kids hphase hrest
        have hsame : (Block.component (.mk core slots children)).fragments = [] ++ (fragmentsOf slots ++ fragmentsOf children) :=
          congrArg (· ++ (fragmentsOf slots ++ fragmentsOf children)) hbefore
        have hphases : ∀ x ∈ phase.fragments, x = (core.prepare w).2.1 := fun x hx => hphase x (Phase.mem_fragments.1 hx)
        rw [hsame]
        refine Fresh.append ⟨phase.fragments_nodup, fun x hx => .inr (Nat.le_of_eq ?_)⟩ hrest.swap hown.keeps.fresh
          (List.forall_mem_append.2 ⟨fragmentsOf_known hus, fragmentsOf_known huc⟩) (fun x hx => ?_) (List.disjoint_nil_left _)
        · exact hpast.symm.trans (hphases x hx).symm
        · rw [hphases x hx]
          exact hfragment.known
      rw [Component.create_eq hp]
      dsimp only
      generalize createAll children (core.prepare w).2.2 = kids at hkids hslots huslots ⊢
      have hw₂ := hkids.books.sober hw₁
      -- whatever becomes of the slot contents
      have hall : ∀ (phase : Phase) {contents : Outcome H (List (Nested H))} {result : Except LifecycleFault Unit},
          phase ≠ .mounted → (∀ x, phase = .created x → x = (core.prepare w).2.1) →
          PreparedAll B S slots kids.world g contents → (Block.component (.mk core slots children)).Prepared B S w g
            ⟨.component (.mk { (core.prepare w).1 with phase } contents.self kids.self), contents.world, result⟩ :=
        fun phase contents result hwaiting hphase hcontents =>
        ⟨Component.settles_swap (Component.settles_mk hw.intact hswapped hown hchannel (haccounts phase hwaiting)
            hkids.toSettlesAll hcontents.toSettlesAll) hcontents.channels hkids.channels,
          Component.unfilled_mk.2 ⟨((hunfilled phase hwaiting hphase).books hkids.books).books hcontents.books,
            hcontents.unfilled, fun n hn => (hkids.unfilled n hn).books hcontents.books⟩,
          hnew phase hphase (hkids.fragments.append hcontents.fragments hkids.books.keeps.fresh
            (fragmentsOf_known fun n hn => (hus n hn).books hown) (fragmentsOf_known hkids.unfilled) hfapart.symm)⟩
      cases kids.result with
      | error fault => exact hall core.phase hmounted hinactive (.left hw₂.intact hslots huslots hfs)
      | ok =>
        dsimp only
        have hcontents := createAll_prepared (S := S) ihs hw₂ hns hslots huslots hfs
        generalize createAll slots kids.world = contents at hcontents ⊢
        cases contents.result with
        | error fault => exact hall core.phase hmounted hinactive hcontents
        | ok =>
          exact hall (.created (core.prepare w).2.1) (by simp) (fun x hx => (Phase.created.inj hx).symm) hcontents

end

end LiveMarkup
