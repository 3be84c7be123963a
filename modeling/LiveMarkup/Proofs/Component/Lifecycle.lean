/-
Lives of components in which no marker is lost.

A component makes calls on its children and on the components in its slots, and each of them is a state machine that can
refuse. As long as every mount finds all markers, and each still has its place when the turn of its block comes, none of
them refuses: all components of a tree go through the same states together, and which call has which result is said by
an automaton (`State.after`).

- `Component.findsMarkers`: a mount finds all markers in their places, at every depth;
- `Component.In.obeys`: one call, from any state of the automaton and in any world;
- `Component.lifecycle`: any number of calls, from the start.
-/
import LiveMarkup.Proofs.Component.Built

namespace LiveMarkup

variable {H : Host}

/-! ## The automaton -/

/-- the state after a call from this state, and what the call results in -/
def State.after {N : Type} : State → Call N → State × Except LifecycleFault Unit
  | .mounted, .create => (.mounted, .error .alreadyMounted)
  | .unmounted, .create | .created, .create | .destroyed, .create => (.created, .ok ())
  | .mounted, .mount _ _ => (.mounted, .error .alreadyMounted)
  | .unmounted, .mount _ _ | .created, .mount _ _ | .destroyed, .mount _ _ => (.mounted, .ok ())
  | .destroyed, .update _ | .destroyed, .set _ | .destroyed, .tick _ _ => (.destroyed, .error .updateAfterDestroy)
  | .unmounted, .destroy _ => (.unmounted, .ok ())
  | .created, .destroy _ | .mounted, .destroy _ => (.destroyed, .ok ())
  | .destroyed, .destroy _ => (.destroyed, .error .alreadyDestroyed)
  | s, _ => (s, .ok ())

/-- the component is in this state with all that are nested in it -/
def Component.In (s : State) (c : Component H) : Prop := c.Each (·.phase.state = s) fun _ => True

def Block.In (s : State) (b : Block H) : Prop := b.Each (·.phase.state = s) fun _ => True

theorem Component.In.phase {s : State} {c : Component H} (h : c.In s) : c.core.phase.state = s := by
  obtain ⟨core, slots, children⟩ := c
  exact h.1

theorem Component.Like.inState {s : State} {c c' : Component H} (h : c.Like footing c') (hc : c.In s) : c'.In s :=
  h.each (fun _ _ hf hp => (congrArg Phase.state (Core.SameFooting.phase hf)).trans hp) (fun _ _ _ => id) hc

theorem Phase.eq_created_of {p : Phase} (h : p.state = .created) : ∃ fragment, p = .created fragment := by
  cases p with
  | created fragment => exact ⟨fragment, rfl⟩
  | _ => cases h

theorem Phase.eq_unmounted_of {p : Phase} (h : p.state = .unmounted) : p = .unmounted := by
  cases p with
  | unmounted => rfl
  | _ => cases h

theorem Phase.eq_mounted_of {p : Phase} (h : p.state = .mounted) : p = .mounted := by
  cases p with
  | mounted => rfl
  | _ => cases h

theorem Phase.eq_destroyed_of {p : Phase} (h : p.state = .destroyed) : p = .destroyed := by
  cases p with
  | destroyed => rfl
  | _ => cases h

theorem Phase.not_active_of {p : Phase} (h : p.state = .unmounted ∨ p.state = .destroyed) : ¬ p.Active := by
  cases p with
  | unmounted => exact id
  | destroyed => exact id
  | created fragment => rcases h with h | h <;> cases h
  | mounted => rcases h with h | h <;> cases h

variable [ForeignBlocks H]

/-- such blocks of the host are created, and take what they are given, without fail -/
structure ForeignBlocks.Willing (guest : H.Foreign → Prop) : Prop where
  create : ∀ f, guest f → ∀ w, (create f w).result = .ok ()
  update : ∀ f, guest f → ∀ changed w, (update changed f w).result = .ok ()

theorem ForeignBlocks.willing_none : Willing fun _ : H.Foreign => False :=
  ⟨fun _ h => h.elim, fun _ h => h.elim⟩

/-! ## Creating -/

section

variable {row : List (Nested H)} {s : State} {guest : H.Foreign → Prop}

/-- a row is created if each of its blocks is, whatever the world -/
theorem createAll_in (h : ∀ n ∈ row, ∀ w, (n.block.create w).result = .ok () ∧ (n.block.create w).self.In s)
    (w : World H) : (createAll row w).result = .ok () ∧ eachOf (·.phase.state = s) (fun _ => True) (createAll row w).self := by
  induction row generalizing w with
  | nil => exact ⟨rfl, trivial⟩
  | cons n row ih =>
    obtain ⟨index, atRoot, block⟩ := n
    rw [List.forall_mem_cons] at h
    obtain ⟨hok, hin⟩ := h.1 w
    have hok : (block.create w).result = .ok () := hok
    rw [createAll, hok]
    exact ⟨(ih h.2 _).1, hin, (ih h.2 _).2⟩

theorem Component.In.create {c : Component H} (h : c.In s) (hs : s = .unmounted ∨ s = .destroyed)
    (hf : ForeignBlocks.Willing guest) (hg : c.Guests guest) (w : World H) :
    (c.create w).result = .ok () ∧ (c.create w).self.In .created := by
  induction c using Component.induct generalizing w with
  | mk core slots children ihs ihc =>
    obtain ⟨hp, hslots, hchildren⟩ := h
    have hrow : ∀ row : List (Nested H), (∀ n ∈ row, ∀ c, n.block = .component c → c.In s → c.Guests guest → ∀ w,
        (c.create w).result = .ok () ∧ (c.create w).self.In .created) →
        eachOf (·.phase.state = s) (fun _ => True) row → guestsOf guest row →
        ∀ n ∈ row, ∀ w, (n.block.create w).result = .ok () ∧ (n.block.create w).self.In .created := by
      intro row ih hin hguests n hn w
      have hin := eachOf_iff.1 hin n hn
      have hguests := guestsOf_iff.1 hguests n hn
      cases hblock : n.block with
      | text t => exact ⟨rfl, trivial⟩
      | foreign f =>
        rw [hblock] at hguests
        exact ⟨hf.create f hguests w, trivial⟩
      | component c =>
        rw [hblock] at hin hguests
        exact ih n hn c hblock hin hguests w
    have hinactive : ¬ core.phase.Active := Phase.not_active_of (by rw [show core.phase.state = s from hp]; exact hs)
    obtain ⟨hkids, hkidsIn⟩ := createAll_in (hrow children ihc hchildren hg.2) (core.prepare w).2.2
    obtain ⟨hcontents, hcontentsIn⟩ := createAll_in (hrow slots ihs hslots hg.1)
      (createAll children (core.prepare w).2.2).world
    rw [create_eq hinactive]
    dsimp only
    rw [hkids]
    dsimp only
    rw [hcontents]
    exact ⟨rfl, rfl, hcontentsIn, hkidsIn⟩

end

/-! ## Finding markers -/

mutual
/-- a component that was created finds all its markers when it is mounted, each in its place when it is needed -/
def Component.findsMarkers : Component H → World H → Bool
  | .mk core slots children, w =>
    match core.phase with
    | .created fragment =>
      let own := core.bind fragment w
      match own.result, own.world.spots fragment .slot (indicesOf core.template.placeholders .slot),
          own.world.spots fragment .child (indicesOf core.template.placeholders .child) with
      | .ok _, .ok slotSpots, .ok childSpots =>
        let spots := (slotSpots ++ childSpots).map (·.2)
        let core := { own.self with roots := (own.world.document.children fragment).filter (!spots.contains ·) }
        let contents := mountRow fragment core.handles (childSpots.map (·.2)) slots slotSpots own.world
        rowFindsMarkers fragment core.handles (childSpots.map (·.2)) slots slotSpots own.world &&
          rowFindsMarkers fragment (core.handles ++ handlesOf contents.self) [] children childSpots contents.world
      | _, _, _ => false
    | _ => true
/-- no marker of a row has lost its place when the turn of its block comes, and each block finds its own markers -/
def rowFindsMarkers (fragment : NodeId) (held later : List NodeId) :
    List (Nested H) → List (Nat × NodeId) → World H → Bool
  | [], _, _ => true
  | .mk index _ block :: row, spots, w =>
    let ahead := spots.dropWhile (·.1 ≠ index)
    let w := w.discardAll (held ++ ahead.map (·.2) ++ later) (spots.takeWhile (·.1 ≠ index))
    match ahead with
    | [] => rowFindsMarkers fragment held later row [] w
    | (_, spot) :: after =>
      match w.document.parent? spot with
      | none => false
      | some parent =>
        let o := block.mountCreated parent (some spot) w
        let held := held ++ o.self.handles
        block.findsMarkers w && rowFindsMarkers fragment held later row after
          (o.world.discard (held ++ (after.map (·.2) ++ later)) spot)
def Block.findsMarkers : Block H → World H → Bool
  | .component c, w => c.findsMarkers w
  | .text _, _ | .foreign _, _ => true
end

/-- no marker is lost by a call; only a mount looks for markers -/
def Component.findsFor (c : Component H) (w : World H) : Call NodeId → Bool
  | .mount _ _ =>
    match c.core.phase with
    | .created _ => c.findsMarkers w
    | .mounted => true
    | .unmounted | .destroyed => (c.create w).self.findsMarkers (c.create w).world
  | _ => true

/-- no marker is lost by any of these calls, each made in its world -/
def Component.findsAll (c : Component H) : List (Call NodeId × World H) → Bool
  | [] => true
  | e :: calls => c.findsFor e.2 e.1 && (c.call e.2 e.1).self.findsAll calls

theorem Component.findsAll_append (c : Component H) (calls more : List (Call NodeId × World H)) :
    c.findsAll (calls ++ more) = (c.findsAll calls && (c.over calls).findsAll more) := by
  induction calls generalizing c with
  | nil => exact (Bool.true_and _).symm
  | cons e calls ih =>
    rw [List.cons_append, findsAll, findsAll, ih, Bool.and_assoc]
    rfl

/-! ## Mounting -/

/-- the first of some blocks whose markers come in this order has its marker among them, and the others are behind it -/
theorem exists_spot {i : Nat} {is : List Nat} {spots : List (Nat × NodeId)} (h : (i :: is).Sublist (spots.map (·.1))) :
    ∃ s after, spots.dropWhile (·.1 ≠ i) = (i, s) :: after ∧ is.Sublist (after.map (·.1)) := by
  induction spots with
  | nil => cases h
  | cons e spots ih =>
    obtain ⟨j, s⟩ := e
    by_cases hj : j = i
    · subst hj
      refine ⟨s, spots, by simp, ?_⟩
      rcases List.cons_sublist_cons'.1 h with h | ⟨-, h⟩
      · exact (List.sublist_cons_self j is).trans h
      · exact h
    · rcases List.cons_sublist_cons'.1 h with h | ⟨he, -⟩
      · obtain ⟨t, after, hdrop, hafter⟩ := ih h
        refine ⟨t, after, ?_, hafter⟩
        rw [List.dropWhile_cons_of_pos (by simpa using hj)]
        exact hdrop
      · exact absurd he.symm hj

omit [ForeignBlocks H] in
/-- the markers that are found are those that were looked for -/
theorem World.spots_indices {w : World H} {fragment : NodeId} {category : Category} {is : List Nat}
    {spots : List (Nat × NodeId)} (h : w.spots fragment category is = .ok spots) : spots.map (·.1) = is := by
  induction is generalizing spots with
  | nil =>
    obtain rfl : [] = spots := Except.ok.inj h
    rfl
  | cons i is ih =>
    rw [World.spots] at h
    cases hm : w.marker fragment ⟨category, i⟩ with
    | error fault => rw [hm] at h; cases h
    | ok spot =>
      rw [hm] at h
      cases hs : w.spots fragment category is with
      | error fault => rw [hs] at h; cases h
      | ok others =>
        rw [hs] at h
        obtain rfl : (i, spot) :: others = spots := Except.ok.inj h
        rw [List.map_cons, ih hs]

/-- the blocks of a row are all mounted if no marker is lost -/
theorem mountRow_in {row : List (Nested H)}
    (h : ∀ n ∈ row, ∀ t a w, n.block.findsMarkers w = true →
      (n.block.mountCreated t a w).result = .ok () ∧ (n.block.mountCreated t a w).self.In .mounted)
    (fragment : NodeId) (held later : List NodeId) (spots : List (Nat × NodeId)) (w : World H)
    (hi : (row.map Nested.index).Sublist (spots.map (·.1)))
    (hf : rowFindsMarkers fragment held later row spots w = true) :
    (mountRow fragment held later row spots w).result = .ok () ∧
      eachOf (·.phase.state = .mounted) (fun _ => True) (mountRow fragment held later row spots w).self := by
  induction row generalizing held spots w with
  | nil => exact ⟨rfl, trivial⟩
  | cons n row ih =>
    obtain ⟨index, atRoot, block⟩ := n
    rw [List.forall_mem_cons] at h
    obtain ⟨s, after, hdrop, hafter⟩ := exists_spot hi
    have hdrop : spots.dropWhile (·.1 ≠ index) = (index, s) :: after := hdrop
    rw [rowFindsMarkers, hdrop] at hf
    rw [mountRow, hdrop]
    dsimp only at hf ⊢
    generalize w.discardAll (held ++ List.map (fun x => x.2) ((index, s) :: after) ++ later)
      (spots.takeWhile (·.1 ≠ index)) = u at hf ⊢
    cases hp : u.document.parent? s with
    | none => rw [hp] at hf; cases hf
    | some parent =>
      rw [hp] at hf
      dsimp only at hf ⊢
      rw [Bool.and_eq_true] at hf
      obtain ⟨hok, hin⟩ := h.1 parent (some s) u hf.1
      have hok : (block.mountCreated parent (some s) u).result = .ok () := hok
      rw [hok]
      obtain ⟨hrest, hrestIn⟩ := ih h.2 _ after _ hafter hf.2
      exact ⟨hrest, hin, hrestIn⟩

/-- a component that was created with all that is nested in it is mounted with all that, if no marker is lost -/
theorem Component.In.mountCreated {c : Component H} (h : c.In .created) (hb : c.Built) (target : NodeId)
    (anchor : Option NodeId) {w : World H} (hf : c.findsMarkers w = true) :
    (c.mountCreated target anchor w).result = .ok () ∧ (c.mountCreated target anchor w).self.In .mounted := by
  induction c using Component.induct generalizing target anchor w with
  | mk core slots children ihs ihc =>
    obtain ⟨hp, hslots, hchildren⟩ := h
    have hrow : ∀ row : List (Nested H), (∀ n ∈ row, ∀ c, n.block = .component c → c.In .created → c.Built →
        ∀ (t : NodeId) (a : Option NodeId) {w : World H}, c.findsMarkers w = true →
          (c.mountCreated t a w).result = .ok () ∧ (c.mountCreated t a w).self.In .mounted) →
        eachOf (·.phase.state = .created) (fun _ => True) row → builtAll row →
        ∀ n ∈ row, ∀ t a w, n.block.findsMarkers w = true →
          (n.block.mountCreated t a w).result = .ok () ∧ (n.block.mountCreated t a w).self.In .mounted := by
      intro row ih hin hbuilt n hn t a w hfinds
      have hin := eachOf_iff.1 hin n hn
      have hbuilt := builtAll_iff.1 hbuilt n hn
      cases hblock : n.block with
      | text x => exact ⟨rfl, trivial⟩
      | foreign f => rw [hblock] at hbuilt; exact hbuilt.elim
      | component c =>
        rw [hblock] at hin hbuilt hfinds
        exact ih n hn c hblock hin hbuilt t a hfinds
    obtain ⟨fragment, hphase⟩ := Phase.eq_created_of hp
    have hphase : core.phase = .created fragment := hphase
    rw [Component.findsMarkers, hphase] at hf
    rw [Component.mountCreated, hphase]
    dsimp only at hf ⊢
    cases hbind : (core.bind fragment w).result with
    | error fault => rw [hbind] at hf; cases hf
    | ok =>
      rw [hbind] at hf
      cases hslotSpots : (core.bind fragment w).world.spots fragment .slot (indicesOf core.template.placeholders .slot) with
      | error fault => rw [hslotSpots] at hf; cases hf
      | ok slotSpots =>
        rw [hslotSpots] at hf
        cases hchildSpots : (core.bind fragment w).world.spots fragment .child
            (indicesOf core.template.placeholders .child) with
        | error fault => rw [hchildSpots] at hf; cases hf
        | ok childSpots =>
          rw [hchildSpots] at hf
          dsimp only at hf ⊢
          rw [Bool.and_eq_true] at hf
          obtain ⟨hcontents, hcontentsIn⟩ := mountRow_in (hrow slots ihs hslots hb.2.2.1) fragment _ _ slotSpots _
            (by rw [World.spots_indices hslotSpots]; exact hb.1) hf.1
          obtain ⟨hkids, hkidsIn⟩ := mountRow_in (hrow children ihc hchildren hb.2.2.2) fragment _ _ childSpots _
            (by rw [World.spots_indices hchildSpots, hb.2.1]) hf.2
          rw [hcontents]
          dsimp only
          rw [hkids]
          exact ⟨rfl, rfl, hcontentsIn, hkidsIn⟩

/-! ## Updating -/

theorem updateRow_ok {row : List (Nested H)} (deliver : Nat → Option Props)
    (h : ∀ n ∈ row, ∀ changed w, (n.block.update changed w).result = .ok ()) (w : World H) :
    (updateRow deliver row w).result = .ok () := by
  induction row generalizing w with
  | nil => rfl
  | cons n row ih =>
    obtain ⟨index, atRoot, block⟩ := n
    rw [List.forall_mem_cons] at h
    rw [updateRow_cons]
    cases deliver index with
    | none => exact ih h.2 w
    | some changed =>
      have hok : (block.update changed w).result = .ok () := h.1 changed w
      dsimp only
      rw [hok]
      exact ih h.2 _

/-- no component of a tree is destroyed -/
def Component.Alive (c : Component H) : Prop := c.Each (·.phase ≠ .destroyed) fun _ => True

section

variable {s : State} {c : Component H}

omit [ForeignBlocks H] in
theorem Component.In.alive (h : c.In s) (hs : s ≠ .destroyed) : c.Alive :=
  Component.Each.imp (fun core (hc : core.phase.state = s) (hp : core.phase = .destroyed) =>
    hs (hc.symm.trans (congrArg Phase.state hp))) (fun _ h => h) h

omit [ForeignBlocks H] in
theorem Component.Active.alive (h : c.Active) : c.Alive :=
  Component.Each.imp (fun core (hc : core.phase.Active) (hp : core.phase = .destroyed) => by rw [hp] at hc; exact hc)
    (fun _ h => h) h

section

variable {guest : H.Foreign → Prop} (hf : ForeignBlocks.Willing guest)
include hf

theorem Component.Alive.update (h : c.Alive) (hg : c.Guests guest) (changed : Props) (w : World H) :
    (c.update changed w).result = .ok () := by
  induction c using Component.induct generalizing changed w with
  | mk core slots children _ ihc =>
    rw [Component.update_mk, if_neg h.1]
    refine updateRow_ok _ (fun n hn changed w => ?_) _
    have halive := eachOf_iff.1 h.2.2 n hn
    have hguests := guestsOf_iff.1 hg.2 n hn
    cases hblock : n.block with
    | text t => rfl
    | foreign f =>
      rw [hblock] at hguests
      exact hf.update f hguests changed w
    | component c =>
      rw [hblock] at halive hguests
      exact ihc n hn c hblock halive hguests changed w

theorem updateRow_alive {row : List (Nested H)} (hg : guestsOf guest row)
    (h : eachOf (·.phase ≠ .destroyed) (fun _ => True) row) (deliver : Nat → Option Props) (w : World H) :
    (updateRow deliver row w).result = .ok () := by
  refine updateRow_ok deliver (fun n hn changed w => ?_) w
  have halive := eachOf_iff.1 h n hn
  have hguests := guestsOf_iff.1 hg n hn
  cases hblock : n.block with
  | text t => rfl
  | foreign f =>
    rw [hblock] at hguests
    exact hf.update f hguests changed w
  | component c =>
    rw [hblock] at halive hguests
    exact Component.Alive.update hf halive hguests changed w

theorem Component.Alive.tick (h : c.Alive) (hg : c.Guests guest) (incoming : Props) (context : Option Props)
    (w : World H) : (c.tick incoming context w).result = .ok () := by
  obtain ⟨core, slots, children⟩ := c
  rw [Component.tick_mk, if_neg h.1]
  dsimp only
  generalize core.applyEntries w (core.props.changes incoming) = applied
  have hslots : ((Component.mk applied.1 slots children).updateSlots context applied.2).result = .ok () ∧
      ((Component.mk applied.1 slots children).updateSlots context applied.2).self.children = children := by
    cases context with
    | none => exact ⟨rfl, rfl⟩
    | some given =>
      rw [updateSlots_mk]
      dsimp only
      split
      · exact ⟨rfl, rfl⟩
      · exact ⟨updateRow_alive hf hg.1 h.2.1 _ _, rfl⟩
  rw [hslots.1, hslots.2]
  exact updateRow_alive hf hg.2 h.2.2 _ _

end

theorem Component.In.update (h : c.In s) (hs : s ≠ .destroyed) (hb : c.Built) (changed : Props) (w : World H) :
    (c.update changed w).result = .ok () := (h.alive hs).update ForeignBlocks.willing_none hb.guests changed w

theorem Component.In.tick (h : c.In s) (hs : s ≠ .destroyed) (hb : c.Built) (incoming : Props) (context : Option Props)
    (w : World H) : (c.tick incoming context w).result = .ok () :=
  (h.alive hs).tick ForeignBlocks.willing_none hb.guests incoming context w

end

/-! ## Destroying -/

theorem destroyAll_in {row : List (Nested H)} (h : ∀ n ∈ row, ∀ d w, (n.block.destroy d w).self.In .destroyed)
    (detaching : Bool) (w : World H) :
    eachOf (·.phase.state = .destroyed) (fun _ => True) (destroyAll detaching row w).self := by
  induction row generalizing w with
  | nil => trivial
  | cons n row ih =>
    obtain ⟨index, atRoot, block⟩ := n
    rw [List.forall_mem_cons] at h
    exact ⟨h.1 (detaching && atRoot) w, ih h.2 _⟩

theorem destroyAll_ok {row : List (Nested H)} (h : ∀ n ∈ row, ∀ d w, (n.block.destroy d w).result = .ok ())
    (detaching : Bool) (w : World H) : (destroyAll detaching row w).result = .ok () := by
  induction row generalizing w with
  | nil => rfl
  | cons n row ih =>
    obtain ⟨index, atRoot, block⟩ := n
    rw [List.forall_mem_cons] at h
    have hok : (block.destroy (detaching && atRoot) w).result = .ok () := h.1 (detaching && atRoot) w
    rw [destroyAll]
    dsimp only
    rw [hok, ih h.2]
    rfl

/-- a component that is created or mounted with all that is nested in it is destroyed with all that, even if a block of the
host fails -/
theorem Component.Active.destroy_in {c : Component H} (h : c.Active) (detaching : Bool) (w : World H) :
    (c.destroy detaching w).self.In .destroyed := by
  induction c using Component.induct generalizing detaching w with
  | mk core slots children ihs ihc =>
    have hrow : ∀ row : List (Nested H), (∀ n ∈ row, ∀ c, n.block = .component c → c.Active → ∀ d w,
        (c.destroy d w).self.In .destroyed) → eachOf (·.phase.Active) (fun _ => True) row →
        ∀ n ∈ row, ∀ d w, (n.block.destroy d w).self.In .destroyed := by
      intro row ih hactive n hn d w
      have hactive := eachOf_iff.1 hactive n hn
      cases hblock : n.block with
      | text t => trivial
      | foreign f => trivial
      | component c =>
        rw [hblock] at hactive
        exact ih n hn c hblock hactive d w
    have hp : core.phase.Active := h.1
    rw [Component.destroy]
    split
    · next hphase => rw [hphase] at hp; exact hp.elim
    · next hphase => rw [hphase] at hp; exact hp.elim
    all_goals exact ⟨rfl, destroyAll_in (hrow slots ihs h.2.1) _ _, destroyAll_in (hrow children ihc h.2.2) _ _⟩

/-- without blocks of the host that does not fail -/
theorem Component.Active.destroy_ok {c : Component H} (h : c.Active) (hb : c.Built) (detaching : Bool) (w : World H) :
    (c.destroy detaching w).result = .ok () := by
  induction c using Component.induct generalizing detaching w with
  | mk core slots children ihs ihc =>
    have hrow : ∀ row : List (Nested H), (∀ n ∈ row, ∀ c, n.block = .component c → c.Active → c.Built → ∀ d w,
        (c.destroy d w).result = .ok ()) → eachOf (·.phase.Active) (fun _ => True) row → builtAll row →
        ∀ n ∈ row, ∀ d w, (n.block.destroy d w).result = .ok () := by
      intro row ih hactive hbuilt n hn d w
      have hactive := eachOf_iff.1 hactive n hn
      have hbuilt := builtAll_iff.1 hbuilt n hn
      cases hblock : n.block with
      | text t => rfl
      | foreign f => rw [hblock] at hbuilt; exact hbuilt.elim
      | component c =>
        rw [hblock] at hactive hbuilt
        exact ih n hn c hblock hactive hbuilt d w
    have hp : core.phase.Active := h.1
    have hcontents := destroyAll_ok (hrow slots ihs h.2.1 hb.2.2.1) detaching
    have hkids := destroyAll_ok (hrow children ihc h.2.2 hb.2.2.2) detaching
    rw [Component.destroy]
    split
    · next hphase => rw [hphase] at hp; exact hp.elim
    · next hphase => rw [hphase] at hp; exact hp.elim
    all_goals
      dsimp only
      rw [hcontents, hkids]
      rfl

omit [ForeignBlocks H] in
theorem Component.In.active {s : State} {c : Component H} (h : c.In s) (hs : s = .created ∨ s = .mounted) : c.Active :=
  Component.Each.imp (fun core (hc : core.phase.state = s) => by
    cases hp : core.phase with
    | created | mounted => trivial
    | unmounted | destroyed =>
      rw [hp] at hc
      rcases hs with rfl | rfl <;> cases hc) (fun _ h => h) h

theorem Component.In.destroy {s : State} {c : Component H} (h : c.In s) (hs : s = .created ∨ s = .mounted) (hb : c.Built)
    (detaching : Bool) (w : World H) :
    (c.destroy detaching w).result = .ok () ∧ (c.destroy detaching w).self.In .destroyed :=
  ⟨(h.active hs).destroy_ok hb detaching w, (h.active hs).destroy_in detaching w⟩

/-! ## Calls -/

/-- what a call on `c` in the world `w` came to: this result, and this state of all components; a call that fails changes
neither the component nor the world -/
structure Obeys (next : State × Except LifecycleFault Unit) (c : Component H) (w : World H)
    (o : Outcome H (Component H)) : Prop where
  result : o.result = next.2
  state : o.self.In next.1
  unchanged : o.result ≠ .ok () → o.self = c ∧ o.world = w

section

variable {s : State} {c : Component H} {w : World H}

omit [ForeignBlocks H] in
theorem Obeys.ok {o : Outcome H (Component H)} (hok : o.result = .ok ()) (h : o.self.In s) :
    Obeys (s, .ok ()) c w o := ⟨hok, h, fun hno => absurd hok hno⟩

omit [ForeignBlocks H] in
theorem Obeys.refused (h : c.In s) (fault : LifecycleFault) : Obeys (s, .error fault) c w (.fail fault c w) :=
  ⟨rfl, h, fun _ => ⟨rfl, rfl⟩⟩

theorem Component.In.obeys_create (h : c.In s) (hb : c.Built) :
    Obeys (s.after (.create : Call NodeId)) c w (c.create w) := by
  have hnew : s = .unmounted ∨ s = .destroyed → Obeys (.created, .ok ()) c w (c.create w) := fun hs =>
    .ok (h.create hs ForeignBlocks.willing_none hb.guests w).1 (h.create hs ForeignBlocks.willing_none hb.guests w).2
  cases s with
  | unmounted => exact hnew (.inl rfl)
  | destroyed => exact hnew (.inr rfl)
  | created =>
    obtain ⟨fragment, hp⟩ := Phase.eq_created_of h.phase
    have hsame : c.create w = .ok c w := by
      obtain ⟨core, slots, children⟩ := c
      rw [Component.create, show core.phase = .created fragment from hp]
    rw [hsame]
    exact .ok rfl h
  | mounted =>
    have hp := Phase.eq_mounted_of h.phase
    have hsame : c.create w = .fail .alreadyMounted c w := by
      obtain ⟨core, slots, children⟩ := c
      rw [Component.create, show core.phase = .mounted from hp]
    rw [hsame]
    exact .refused h _

theorem Component.In.obeys_mount (h : c.In s) (hb : c.Built) (target : NodeId) (anchor : Option NodeId)
    (hf : c.findsFor w (.mount target anchor) = true) :
    Obeys (s.after (.mount target anchor)) c w (c.mount target anchor w) := by
  rw [findsFor] at hf
  have hnew : s = .unmounted ∨ s = .destroyed → Obeys (.mounted, .ok ()) c w (c.mount target anchor w) := by
    intro hs
    have hp := Phase.not_active_of (by rw [h.phase]; exact hs)
    obtain ⟨hok, hin⟩ := h.create hs ForeignBlocks.willing_none hb.guests w
    have hfinds : (c.create w).self.findsMarkers (c.create w).world = true := by
      cases hphase : c.core.phase with
      | unmounted => rw [hphase] at hf; exact hf
      | destroyed => rw [hphase] at hf; exact hf
      | created => rw [hphase] at hp; exact absurd trivial hp
      | mounted => rw [hphase] at hp; exact absurd trivial hp
    rw [mount_of_ok hp target anchor hok]
    have hbuilt : (c.create w).self.Built := (c.create_values w).built_of_values hb
    exact .ok (hin.mountCreated hbuilt target anchor hfinds).1 (hin.mountCreated hbuilt target anchor hfinds).2
  cases s with
  | unmounted => exact hnew (.inl rfl)
  | destroyed => exact hnew (.inr rfl)
  | created =>
    obtain ⟨fragment, hp⟩ := Phase.eq_created_of h.phase
    rw [hp] at hf
    rw [Component.mount, hp]
    exact .ok (h.mountCreated hb target anchor hf).1 (h.mountCreated hb target anchor hf).2
  | mounted =>
    rw [Component.mount, Phase.eq_mounted_of h.phase]
    exact .refused h _

theorem Component.In.obeys_destroy (h : c.In s) (hb : c.Built) (detaching : Bool) :
    Obeys (s.after (.destroy detaching : Call NodeId)) c w (c.destroy detaching w) := by
  have hgone : s = .created ∨ s = .mounted → Obeys (.destroyed, .ok ()) c w (c.destroy detaching w) := fun hs =>
    .ok (h.destroy hs hb detaching w).1 (h.destroy hs hb detaching w).2
  cases s with
  | created => exact hgone (.inl rfl)
  | mounted => exact hgone (.inr rfl)
  | unmounted =>
    have hp := Phase.eq_unmounted_of h.phase
    have hsame : c.destroy detaching w = .ok c w := by
      obtain ⟨core, slots, children⟩ := c
      rw [Component.destroy, show core.phase = .unmounted from hp]
    rw [hsame]
    exact .ok rfl h
  | destroyed =>
    have hp := Phase.eq_destroyed_of h.phase
    have hsame : c.destroy detaching w = .fail .alreadyDestroyed c w := by
      obtain ⟨core, slots, children⟩ := c
      rw [Component.destroy, show core.phase = .destroyed from hp]
    rw [hsame]
    exact .refused h _

/-- a call that brings new values to a component -/
def Call.Updates {N : Type} : Call N → Prop
  | .update _ | .set _ | .tick _ _ => True
  | _ => False

theorem Component.In.obeys_updates (h : c.In s) (hb : c.Built) {call : Call NodeId} (hu : call.Updates) :
    Obeys (s.after call) c w (c.call w call) := by
  by_cases hs : s = .destroyed
  · subst hs
    have hp := Phase.eq_destroyed_of h.phase
    have hafter : State.after .destroyed call = (.destroyed, .error .updateAfterDestroy) := by
      cases call <;> first | rfl | exact hu.elim
    have hsame : c.call w call = .fail .updateAfterDestroy c w := by
      obtain ⟨core, slots, children⟩ := c
      cases call with
      | update changed => exact if_pos hp
      | set incoming => exact if_pos hp
      | tick incoming context => exact if_pos hp
      | _ => exact hu.elim
    rw [hafter, hsame]
    exact .refused h _
  · have hafter : s.after call = (s, .ok ()) := by
      cases s with
      | destroyed => exact absurd rfl hs
      | _ => cases call <;> first | rfl | cases hu
    have hgives : call.Gives := by
      cases call <;> trivial
    rw [hafter]
    refine .ok ?_ ((c.call_footing hgives w).inState h)
    cases call with
    | update changed => exact h.update hs hb changed w
    | set incoming => exact h.tick hs hb incoming none w
    | tick incoming context => exact h.tick hs hb incoming context w
    | _ => exact hu.elim

/-- **One call.** A component that is in some state with all that is nested in it goes to the next state with all that,
and the call results in what the automaton says. -/
theorem Component.In.obeys (h : c.In s) (hb : c.Built) (call : Call NodeId) (hf : c.findsFor w call = true) :
    Obeys (s.after call) c w (c.call w call) := by
  cases call with
  | create => exact h.obeys_create hb
  | mount target anchor => exact h.obeys_mount hb target anchor hf
  | destroy detaching => exact h.obeys_destroy hb detaching
  | transition t isLocal =>
    have hafter : s.after (.transition t isLocal : Call NodeId) = (s, .ok ()) := by cases s <;> rfl
    rw [hafter]
    exact .ok rfl ((c.transition_footing t isLocal w).inState h)
  | update changed => exact h.obeys_updates hb trivial
  | set incoming => exact h.obeys_updates hb trivial
  | tick incoming context => exact h.obeys_updates hb trivial

end

/-! ## Lives -/

def State.over {N : Type} (s : State) (calls : List (Call N)) : State := calls.foldl (fun s call => (s.after call).1) s

theorem Component.In.over {s : State} {c : Component H} (h : c.In s) (hb : c.Built)
    {calls : List (Call NodeId × World H)} (hf : c.findsAll calls = true) :
    (c.over calls).In (s.over (calls.map (·.1))) := by
  induction calls generalizing s c with
  | nil => exact h
  | cons e calls ih =>
    obtain ⟨hcall, hcalls⟩ := Bool.and_eq_true_iff.1 hf
    exact ih (h.obeys hb e.1 hcall).state (hb.call e.1 e.2) hcalls

omit [ForeignBlocks H] in
/-- an instance is unmounted, and so are its children -/
theorem Component.InstanceOf.unmounted {t : Template (Action H)} {props : Props} {c : Component H}
    (h : c.InstanceOf t props) : c.In .unmounted := by
  induction h with
  | mk channel indices flags placed kids ih =>
    refine ⟨rfl, trivial, eachOf_iff.2 fun n hn => ?_⟩
    obtain ⟨u, bindings, child, hp, hblock⟩ := placed n hn
    rw [hblock]
    exact ih n hn u bindings child hp hblock

omit [ForeignBlocks H] in
/-- an instance whose slots were given blocks that are unmounted is unmounted with all of them -/
theorem Component.furnished_in {t : Template (Action H)} {options : Options H}
    (h : ∀ e ∈ options.slots, e.2.In .unmounted) (w : World H) : (furnished t options w).In .unmounted := by
  have hin := (ofTemplate_instance t options.props w).unmounted
  unfold furnished
  generalize (ofTemplate t options.props w).1 = c at hin
  obtain ⟨core, slots, children⟩ := c
  refine ⟨hin.1, eachOf_iff.2 fun n hn => ?_, hin.2.2⟩
  obtain ⟨e, he, hb⟩ := mem_fillSlots hn
  exact hb ▸ h e he

/-- **The life of a component.** A component whose children and slot contents are unmounted like itself is at every time
in the state that the automaton is in after the same calls, and so are all components that are nested in it. The next
call results in what the automaton says, and a call that fails changes neither a component nor the world. All this holds
as long as no marker is lost, whatever else happens to the world between the calls. On a faithful backend none is lost by
an accepted template (`Life.findsAll_trace`). -/
theorem Component.lifecycle {c : Component H} (hb : c.Built) (h : c.In .unmounted)
    {calls : List (Call NodeId × World H)} {call : Call NodeId} {w : World H}
    (hf : c.findsAll (calls ++ [(call, w)]) = true) :
    let now := c.over calls
    let s := State.unmounted.over (calls.map (·.1))
    let o := now.call w call
    now.In s ∧ o.result = (s.after call).2 ∧ o.self.In (s.after call).1 ∧
      (o.result ≠ .ok () → o.self = now ∧ o.world = w) := by
  intro now s o
  rw [findsAll_append, findsAll, findsAll, Bool.and_true, Bool.and_eq_true] at hf
  obtain ⟨hcalls, hcall⟩ := hf
  have hnow : now.In s := h.over hb hcalls
  have hobeys : Obeys (s.after call) now w o := hnow.obeys (hb.over calls) call hcall
  exact ⟨hnow, hobeys.result, hobeys.state, hobeys.unchanged⟩

/-- an instance of the framed paragraph -/
def Component.frame : Component Script.host := furnished Template.framed Options.default World.blank

/-- with this block in the main slot -/
def Options.around (block : Block Script.host) : Options Script.host :=
  { (Options.default : Options Script.host) with slots := [("main", block)] }

/-- a stack with the frame in its slot -/
def Component.crowded : Component Script.host :=
  furnished Template.stacked (Options.around (.component frame)) World.blank

theorem Component.crowded_built : crowded.Built := by
  refine furnished_built (fun e he => ?_) World.blank
  obtain rfl := List.mem_singleton.1 he
  exact furnished_built (fun e he => absurd he List.not_mem_nil) World.blank

theorem Component.crowded_in : crowded.In .unmounted := by
  refine furnished_in (fun e he => ?_) World.blank
  obtain rfl := List.mem_singleton.1 he
  exact furnished_in (fun e he => absurd he List.not_mem_nil) World.blank

def Component.crowdedLife : List (Call NodeId × World Script.host) :=
  [(.mount 0 none, World.blank), (.destroy true, (crowded.run World.blank [.mount 0 none]).2)]

/-- then it is mounted again -/
theorem Component.lifecycle_crowded :
    ((crowded.over crowdedLife).call World.blank (.mount 0 none)).result = .ok () := by
  have hfinds : crowded.findsAll (crowdedLife ++ [(.mount 0 none, World.blank)]) = true := by decide +kernel
  exact (lifecycle crowded_built crowded_in hfinds).2.1

end LiveMarkup
