/-
What components are like after any calls.

A component that is created or mounted is so with all that is nested in it; one that is not has nothing to undo, and is
idle if no creation of it has failed half-way: nothing of it is in a document. Every call keeps this, in every world and
whatever it results in.

- `Orderly.creating`, `Active.mounting`, `Active.destroy`: what single calls make of a component;
- `Orderly.mount`: a mount that fails after the component was created gives it up, and leaves it and all its children but
  at most one destroyed;
- `Orderly.over`: every number of calls keeps a component orderly.
-/
import LiveMarkup.Proofs.Component.Nesting
import LiveMarkup.Proofs.Component.Stands

namespace LiveMarkup

variable {H : Host}

/-! ## Active and idle components -/

/-- created and not yet destroyed -/
def Phase.Active : Phase → Prop
  | created _ | mounted => True
  | unmounted | destroyed => False

namespace Core

/-- as it was before it was created, with the values that it has by now -/
def renewed (c : Core H) : Core H :=
  { c with phase := .unmounted, roots := [], textCells := [], attributeCells := [], cleanups := [], updateHooks := [] }

/-- neither created nor mounted, with no nodes and nothing to undo -/
structure Idle (c : Core H) : Prop where
  phase : ¬ c.phase.Active
  roots : c.roots = []
  textCells : c.textCells = []
  attributeCells : c.attributeCells = []
  cleanups : c.cleanups = []
  updateHooks : c.updateHooks = []

/-- neither created nor mounted, with nothing to undo; a creation that failed may have left cells -/
structure Dormant (c : Core H) : Prop where
  phase : ¬ c.phase.Active
  roots : c.roots = []
  cleanups : c.cleanups = []
  updateHooks : c.updateHooks = []

theorem Idle.dormant {c : Core H} (h : c.Idle) : c.Dormant := ⟨h.phase, h.roots, h.cleanups, h.updateHooks⟩

theorem Idle.of_footing {c c' : Core H} (h : c.SameFooting c') (hc : c.Idle) : c'.Idle where
  phase := by rw [h.phase]; exact hc.phase
  roots := h.roots.trans hc.roots
  textCells := h.textCells.trans hc.textCells
  attributeCells := by
    have := h.attributeCells
    rw [hc.attributeCells, List.map_nil] at this
    exact List.map_eq_nil_iff.1 this
  cleanups := h.cleanups.trans hc.cleanups
  updateHooks := h.updateHooks.trans hc.updateHooks

theorem Dormant.of_footing {c c' : Core H} (h : c.SameFooting c') (hc : c.Dormant) : c'.Dormant :=
  ⟨by rw [h.phase]; exact hc.phase, h.roots.trans hc.roots, h.cleanups.trans hc.cleanups,
    h.updateHooks.trans hc.updateHooks⟩

theorem cleared_idle (c : Core H) : c.cleared.Idle := ⟨id, rfl, rfl, rfl, rfl, rfl⟩

end Core

/-- created or mounted, with all that is nested in it -/
def Component.Active (c : Component H) : Prop := c.Each (·.phase.Active) fun _ => True

/-- nothing of it is in a document, nor of anything nested in it -/
def Component.Idle (c : Component H) : Prop := c.Each Core.Idle (·.node = none)

def Block.Active (b : Block H) : Prop := b.Each (·.phase.Active) fun _ => True

def Block.Idle (b : Block H) : Prop := b.Each Core.Idle (·.node = none)

/-- what components are like after any calls: those that are created or mounted are so with all that is nested in them,
and the others have nothing to undo -/
inductive Component.Orderly : Component H → Prop
  | active {c : Component H} (h : c.Active) : Orderly c
  | resting {core : Core H} {slots children : List (Nested H)} (own : core.Dormant)
      (contents : ∀ n ∈ slots, ∀ c, n.block = .component c → Orderly c)
      (kids : ∀ n ∈ children, ∀ c, n.block = .component c → Orderly c) : Orderly (.mk core slots children)

def Block.Orderly (b : Block H) : Prop := ∀ c, b = .component c → c.Orderly

/-- whether this is a component that is unmounted -/
def Block.unmounted : Block H → Bool
  | .component c => c.core.phase = .unmounted
  | _ => false

theorem Component.Idle.orderly {c : Component H} (h : c.Idle) : c.Orderly := by
  induction c using Component.induct with
  | mk core slots children ihs ihc =>
    have hrow : ∀ row : List (Nested H), (∀ n ∈ row, ∀ c, n.block = .component c → c.Idle → c.Orderly) →
        eachOf Core.Idle (·.node = none) row → ∀ n ∈ row, ∀ c, n.block = .component c → c.Orderly := by
      intro row ih h n hn c hc
      have hn' := eachOf_iff.1 h n hn
      rw [hc] at hn'
      exact ih n hn c hc hn'
    exact .resting h.1.dormant (hrow slots ihs h.2.1) (hrow children ihc h.2.2)

theorem Block.text_orderly (t : TextBlock) : (Block.text t : Block H).Orderly := by
  rintro c ⟨⟩

theorem Block.foreign_orderly (f : H.Foreign) : (Block.foreign f : Block H).Orderly := by
  rintro c ⟨⟩

theorem Block.Idle.orderly {b : Block H} (h : b.Idle) : b.Orderly := by
  rintro c rfl
  exact Component.Idle.orderly h

theorem Block.Active.not_unmounted {b : Block H} (h : b.Active) : b.unmounted = false := by
  cases b with
  | text t => rfl
  | foreign f => rfl
  | component c =>
    obtain ⟨core, slots, children⟩ := c
    refine decide_eq_false fun hp => ?_
    have hphase : core.phase.Active := h.1
    rw [show core.phase = .unmounted from hp] at hphase
    exact hphase

theorem Component.Like.orderly {c c' : Component H} (h : c.Like footing c') (hc : c.Orderly) : c'.Orderly := by
  induction hc generalizing c' with
  | active hactive =>
    exact .active (h.each (fun a b hab ha => by rw [hab.phase]; exact ha) (fun _ _ _ => id) hactive)
  | @resting core slots children own hs hc ihs ihc =>
    obtain ⟨core', slots', children'⟩ := c'
    have hrow : ∀ row row' : List (Nested H), likeAll footing row row' →
        (∀ n ∈ row, ∀ c, n.block = .component c → ∀ {c' : Component H}, c.Like footing c' → c'.Orderly) →
        ∀ n ∈ row', ∀ c, n.block = .component c → c.Orderly := by
      intro row row' hlike ih n' hn' c' hc'
      obtain ⟨n, hn, -, hblock⟩ := exists_of_forall₂ (likeAll_iff.1 hlike) n' hn'
      rw [hc'] at hblock
      cases hb : n.block with
      | component c => rw [hb] at hblock; exact ih n hn c hb hblock
      | text t => rw [hb] at hblock; exact hblock.elim
      | foreign f => rw [hb] at hblock; exact hblock.elim
    exact .resting (own.of_footing h.1) (hrow slots slots' h.2.1 ihs) (hrow children children' h.2.2 ihc)

variable [ForeignBlocks H]

/-! ## Destroying -/

theorem destroyAll_idle {row : List (Nested H)} (h : ∀ n ∈ row, ∀ d w, (n.block.destroy d w).self.Idle)
    (detaching : Bool) (w : World H) : eachOf Core.Idle (·.node = none) (destroyAll detaching row w).self := by
  induction row generalizing w with
  | nil => trivial
  | cons n row ih =>
    obtain ⟨index, atRoot, block⟩ := n
    rw [List.forall_mem_cons] at h
    exact ⟨h.1 _ w, ih h.2 _⟩

/-- destroying a component that is created or mounted -/
theorem Component.destroy_eq {core : Core H} (hp : core.phase.Active) (slots children : List (Nested H))
    (detaching : Bool) (w : World H) :
    (Component.mk core slots children).destroy detaching w =
      let undone := core.cleanUp (if detaching && core.phase = .mounted then core.detachRoots w else w)
      let contents := destroyAll detaching slots undone
      let kids := destroyAll detaching children contents.world
      ⟨.mk core.cleared contents.self kids.self, kids.world, firstFault contents.result kids.result⟩ := by
  rw [destroy]
  cases hphase : core.phase with
  | created fragment => rfl
  | mounted => rfl
  | unmounted => rw [hphase] at hp; exact hp.elim
  | destroyed => rw [hphase] at hp; exact hp.elim

/-- destroying a component that is created or mounted, with whatever is nested in it -/
theorem Component.destroy_idle_of {core : Core H} {slots children : List (Nested H)} (hp : core.phase.Active)
    (hs : ∀ n ∈ slots, ∀ d w, (n.block.destroy d w).self.Idle)
    (hc : ∀ n ∈ children, ∀ d w, (n.block.destroy d w).self.Idle) (detaching : Bool) (w : World H) :
    ((Component.mk core slots children).destroy detaching w).self.Idle := by
  rw [destroy_eq hp]
  exact ⟨core.cleared_idle, destroyAll_idle hs _ _, destroyAll_idle hc _ _⟩

theorem Component.Idle.destroy {c : Component H} (h : c.Idle) (detaching : Bool) (w : World H) :
    (c.destroy detaching w).self = c := by
  obtain ⟨core, slots, children⟩ := c
  have hp : ¬ core.phase.Active := h.1.phase
  rw [Component.destroy]
  split
  · rfl
  · rfl
  · next h => rw [h] at hp; exact absurd trivial hp
  · next h => rw [h] at hp; exact absurd trivial hp

theorem Component.Active.destroy {c : Component H} (h : c.Active) (detaching : Bool) (w : World H) :
    (c.destroy detaching w).self.Idle := by
  induction c using Component.induct generalizing detaching w with
  | mk core slots children ihs ihc =>
    have hrow : ∀ row : List (Nested H), (∀ n ∈ row, ∀ c, n.block = .component c → c.Active → ∀ d w,
        (c.destroy d w).self.Idle) → eachOf (·.phase.Active) (fun _ => True) row →
          ∀ n ∈ row, ∀ d w, (n.block.destroy d w).self.Idle := by
      intro row ih h n hn d w
      have hactive := eachOf_iff.1 h n hn
      cases hb : n.block with
      | text t => rfl
      | foreign f => trivial
      | component c =>
        rw [hb] at hactive
        exact ih n hn c hb hactive d w
    exact destroy_idle_of h.1 (hrow slots ihs h.2.1) (hrow children ihc h.2.2) detaching w

theorem Block.destroy_idle {b : Block H} (h : b.Active ∨ b.Idle) (detaching : Bool) (w : World H) :
    (b.destroy detaching w).self.Idle := by
  cases b with
  | text t => rfl
  | foreign f => trivial
  | component c =>
    rcases h with h | h
    · exact Component.Active.destroy h detaching w
    · show (c.destroy detaching w).self.Idle
      rw [Component.Idle.destroy h]
      exact h

theorem Component.Orderly.destroy {c : Component H} (h : c.Orderly) (detaching : Bool) (w : World H) :
    (c.destroy detaching w).self.Orderly := by
  cases h with
  | active h => exact (h.destroy detaching w).orderly
  | @resting core slots children own hs hc =>
    have hsame : ((Component.mk core slots children).destroy detaching w).self = .mk core slots children := by
      have hp := own.phase
      rw [Component.destroy]
      split
      · rfl
      · rfl
      · next h => rw [h] at hp; exact absurd trivial hp
      · next h => rw [h] at hp; exact absurd trivial hp
    rw [hsame]
    exact .resting own hs hc

/-- destroying unmounts nothing -/
theorem Block.unmounted_destroy (b : Block H) (detaching : Bool) (w : World H) :
    (b.destroy detaching w).self.unmounted = b.unmounted := by
  cases b with
  | text t => rfl
  | foreign f => rfl
  | component c =>
    obtain ⟨core, slots, children⟩ := c
    show (((Component.mk core slots children).destroy detaching w).map Block.component).self.unmounted = _
    rw [Component.destroy]
    split
    · rfl
    · rfl
    all_goals
      next h =>
      show decide (Phase.destroyed = .unmounted) = decide (core.phase = .unmounted)
      rw [h]
      rfl

theorem countP_destroyAll (row : List (Nested H)) (detaching : Bool) (w : World H) :
    (destroyAll detaching row w).self.countP (·.block.unmounted) = row.countP (·.block.unmounted) := by
  induction row generalizing w with
  | nil => rfl
  | cons n row ih =>
    obtain ⟨index, atRoot, block⟩ := n
    rw [destroyAll]
    dsimp only
    rw [List.countP_cons, List.countP_cons, ih, Nested.block, Nested.block, block.unmounted_destroy]

/-! ## Creating -/

/-- creating a component that is not created yet: its cells, its children, the contents of its slots -/
theorem Component.create_eq {core : Core H} (hp : ¬ core.phase.Active) (slots children : List (Nested H))
    (w : World H) : (Component.mk core slots children).create w =
      let kids := createAll children (core.prepare w).2.2
      match kids.result with
      | .error fault => .fail fault (.mk (core.prepare w).1 slots kids.self) kids.world
      | .ok _ =>
        let contents := createAll slots kids.world
        match contents.result with
        | .error fault => .fail fault (.mk (core.prepare w).1 contents.self kids.self) contents.world
        | .ok _ =>
          .ok (.mk { (core.prepare w).1 with phase := .created (core.prepare w).2.1 } contents.self kids.self)
            contents.world := by
  rw [create]
  split
  · next h => rw [h] at hp; exact absurd trivial hp
  · next h => rw [h] at hp; exact absurd trivial hp
  · rfl
  · rfl

/-- creating keeps a component orderly; if it succeeds, the component is created with all that is nested in it -/
structure Creating (c : Component H) (o : Outcome H (Component H)) : Prop where
  orderly : o.self.Orderly
  active : o.result = .ok () → o.self.Active ∧ o.self.state = .created
  state : o.result ≠ .ok () → o.self.state = c.state

theorem createAll_orderly {row : List (Nested H)} (hrow : ∀ n ∈ row, n.block.Orderly)
    (h : ∀ n ∈ row, ∀ c, n.block = .component c → ∀ w, Creating c (c.create w)) (w : World H) :
    (∀ n ∈ (createAll row w).self, n.block.Orderly) ∧
      ((createAll row w).result = .ok () → eachOf (·.phase.Active) (fun _ => True) (createAll row w).self) := by
  induction row generalizing w with
  | nil => exact ⟨fun _ h => absurd h List.not_mem_nil, fun _ => trivial⟩
  | cons n row ih =>
    obtain ⟨index, atRoot, block⟩ := n
    rw [List.forall_mem_cons] at h hrow
    have hblock : (block.create w).self.Orderly ∧
        ((block.create w).result = .ok () → (block.create w).self.Active) := by
      cases block with
      | text t => exact ⟨Block.text_orderly _, fun _ => trivial⟩
      | foreign f => exact ⟨Block.foreign_orderly _, fun _ => trivial⟩
      | component c =>
        have hc := h.1 c rfl w
        exact ⟨fun _ he => Block.component.inj he ▸ hc.orderly, fun hok => (hc.active hok).1⟩
    rw [createAll]
    split
    · exact ⟨List.forall_mem_cons.2 ⟨hblock.1, hrow.2⟩, fun hok => absurd hok error_ne_ok⟩
    · next u hr =>
      obtain ⟨horderly, hactive⟩ := ih hrow.2 h.2 (block.create w).world
      exact ⟨List.forall_mem_cons.2 ⟨hblock.1, horderly⟩, fun hok => ⟨hblock.2 hr, hactive hok⟩⟩

theorem Component.Orderly.creating {c : Component H} (h : c.Orderly) (w : World H) : Creating c (c.create w) := by
  induction c using Component.induct generalizing w with
  | mk core slots children ihs ihc =>
    cases h with
    | active h =>
      have hp : core.phase.Active := h.1
      cases hphase : core.phase with
      | unmounted => rw [hphase] at hp; exact hp.elim
      | destroyed => rw [hphase] at hp; exact hp.elim
      | created fragment =>
        rw [create, hphase]
        exact ⟨.active h, fun _ => ⟨h, congrArg Phase.state hphase⟩, fun _ => rfl⟩
      | mounted =>
        rw [create, hphase]
        exact ⟨.active h, fun hok => absurd hok error_ne_ok, fun _ => rfl⟩
    | resting own hs hc =>
      rw [create_eq own.phase]
      generalize hw : (core.prepare w).2.2 = u
      obtain ⟨hkids, hkidsActive⟩ := createAll_orderly hc (fun n hn c hb w => ihc n hn c hb (hc n hn c hb) w) u
      obtain ⟨hslots, hslotsActive⟩ := createAll_orderly hs (fun n hn c hb w => ihs n hn c hb (hs n hn c hb) w)
        (createAll children u).world
      have hprepared : (core.prepare w).1.Dormant := ⟨own.phase, own.roots, own.cleanups, own.updateHooks⟩
      dsimp only
      cases hr : (createAll children u).result with
      | error fault => exact ⟨.resting hprepared hs hkids, fun hok => absurd hok error_ne_ok, fun _ => rfl⟩
      | ok =>
        cases hr' : (createAll slots (createAll children u).world).result with
        | error fault => exact ⟨.resting hprepared hslots hkids, fun hok => absurd hok error_ne_ok, fun _ => rfl⟩
        | ok =>
          have hactive := And.intro (hslotsActive hr') (hkidsActive hr)
          exact ⟨.active ⟨trivial, hactive⟩, fun _ => ⟨⟨trivial, hactive⟩, rfl⟩, fun hno => absurd rfl hno⟩

/-! ## Mounting -/

omit [ForeignBlocks H] in
theorem Core.phase_bind (c : Core H) (fragment : NodeId) (w : World H) : (c.bind fragment w).self.phase = c.phase := by
  unfold bind
  dsimp only
  split
  · rfl
  · split
    · rfl
    · split <;> rfl

/-- what a mount that was given up leaves behind: nothing of the component is in a document, and all its children but at
most one are destroyed -/
structure Abandoned (c : Component H) : Prop where
  idle : c.Idle
  state : c.state = .unmounted
  children : c.children.countP (·.block.unmounted) ≤ 1

/-- binding a component that is created and putting it into a target -/
structure Mounting (c : Component H) (o : Outcome H (Component H)) : Prop where
  ok : o.result = .ok () → o.self.Active ∧ o.self.state = .mounted
  error : o.result ≠ .ok () → o.self = c ∨ Abandoned o.self
  created : c.state = .created → o.result ≠ .ok () → Abandoned o.self

theorem Component.abandon_abandoned {core : Core H} {slots children : List (Nested H)} (hp : core.phase.Active)
    (hs : ∀ n ∈ slots, n.block.Active ∨ n.block.Idle) (hc : ∀ n ∈ children, n.block.Active ∨ n.block.Idle)
    (hn : children.countP (·.block.unmounted) ≤ 1) (fault : LifecycleFault) (w : World H) :
    Abandoned ((Component.mk core slots children).abandon fault w).self := by
  have hidle := destroy_idle_of hp (fun n hn d w => Block.destroy_idle (hs n hn) d w)
    (fun n hn d w => Block.destroy_idle (hc n hn) d w) false w
  have hcount : ((Component.mk core slots children).destroy false w).self.children.countP (·.block.unmounted) =
      children.countP (·.block.unmounted) := by
    rw [destroy]
    split
    · rfl
    · rfl
    all_goals exact countP_destroyAll children false _
  unfold abandon
  generalize (Component.mk core slots children).destroy false w = o at hidle hcount
  obtain ⟨⟨core', slots', children'⟩, world, result⟩ := o
  refine ⟨⟨?_, hidle.2⟩, rfl, hcount.trans_le hn⟩
  have hown := hidle.1
  exact ⟨id, hown.roots, hown.textCells, hown.attributeCells, hown.cleanups, hown.updateHooks⟩

omit [ForeignBlocks H] in
theorem countP_unmounted_of_active {row : List (Nested H)} (h : ∀ n ∈ row, n.block.Active) :
    row.countP (·.block.unmounted) = 0 :=
  List.countP_eq_zero.2 fun n hn => by rw [(h n hn).not_unmounted]; exact Bool.false_ne_true

/-- mounting the blocks of a row: all are as they should be, but for the one that fails -/
theorem mountRow_active {row : List (Nested H)} (hrow : ∀ n ∈ row, n.block.Active)
    (h : ∀ n ∈ row, ∀ c, n.block = .component c → ∀ t a w, Mounting c (c.mountCreated t a w)) (fragment : NodeId)
    (held later : List NodeId) (spots : List (Nat × NodeId)) (w : World H) :
    let o := mountRow fragment held later row spots w
    (o.result = .ok () → ∀ n ∈ o.self, n.block.Active) ∧ (∀ n ∈ o.self, n.block.Active ∨ n.block.Idle) ∧
      o.self.countP (·.block.unmounted) ≤ 1 := by
  induction row generalizing held spots w with
  | nil =>
    exact ⟨fun _ _ h => absurd h List.not_mem_nil, fun _ h => absurd h List.not_mem_nil, Nat.zero_le 1⟩
  | cons n row ih =>
    obtain ⟨index, atRoot, block⟩ := n
    rw [List.forall_mem_cons] at h hrow
    have hblock : block.Active := hrow.1
    have hmount : ∀ t a w, ((block.mountCreated t a w).result = .ok () → (block.mountCreated t a w).self.Active) ∧
        ((block.mountCreated t a w).self.Active ∨ (block.mountCreated t a w).self.Idle) := by
      intro t a w
      cases block with
      | text x => exact ⟨fun _ => trivial, .inl trivial⟩
      | foreign f => exact ⟨fun _ => trivial, .inl trivial⟩
      | component c =>
        have hc := h.1 c rfl t a w
        refine ⟨fun hok => (hc.ok hok).1, ?_⟩
        by_cases hok : (c.mountCreated t a w).result = .ok ()
        · exact .inl (hc.ok hok).1
        · rcases hc.error hok with hsame | hgone
          · refine .inl ?_
            show (c.mountCreated t a w).self.Active
            rw [hsame]
            exact hblock
          · exact .inr hgone.idle
    -- a block that is mounted well, or left alone, and the rest of the row behind it
    have hcons : ∀ (b : Block H) (root : Bool) (o : Outcome H (List (Nested H))), b.Active →
        ((o.result = .ok () → ∀ n ∈ o.self, n.block.Active) ∧ (∀ n ∈ o.self, n.block.Active ∨ n.block.Idle) ∧
          o.self.countP (·.block.unmounted) ≤ 1) →
        (((o.map (.mk index root b :: ·)).result = .ok () → ∀ n ∈ (o.map (.mk index root b :: ·)).self, n.block.Active) ∧
          (∀ n ∈ (o.map (.mk index root b :: ·)).self, n.block.Active ∨ n.block.Idle) ∧
          (o.map (.mk index root b :: ·)).self.countP (·.block.unmounted) ≤ 1) := by
      rintro b root ⟨self, world, result⟩ hb ⟨h1, h2, h3⟩
      refine ⟨fun hok => List.forall_mem_cons.2 ⟨hb, h1 hok⟩, List.forall_mem_cons.2 ⟨.inl hb, h2⟩, ?_⟩
      show (Nested.mk index root b :: self).countP (·.block.unmounted) ≤ 1
      rw [List.countP_cons_of_neg (by rw [Nested.block, hb.not_unmounted]; exact Bool.false_ne_true)]
      exact h3
    rw [mountRow]
    dsimp only
    split
    · exact hcons _ _ _ hblock (ih hrow.2 h.2 _ _ _)
    · next spot after _ =>
      split
      · exact hcons _ _ _ hblock (ih hrow.2 h.2 _ _ _)
      · next parent _ =>
        obtain ⟨hok, hor⟩ := hmount parent (some spot) (w.discardAll (held ++ (List.dropWhile (·.1 ≠ index) spots).map (·.2) ++
          later) (List.takeWhile (·.1 ≠ index) spots))
        split
        · refine ⟨fun hok => absurd hok error_ne_ok, List.forall_mem_cons.2 ⟨hor, fun n hn => .inl (hrow.2 n hn)⟩, ?_⟩
          show (Nested.mk index _ _ :: row).countP (·.block.unmounted) ≤ 1
          rw [List.countP_cons, countP_unmounted_of_active hrow.2]
          split <;> omega
        · next hr => exact hcons _ _ _ (hok hr) (ih hrow.2 h.2 _ _ _)

theorem Component.Active.mounting {c : Component H} (h : c.Active) (target : NodeId) (anchor : Option NodeId)
    (w : World H) : Mounting c (c.mountCreated target anchor w) := by
  induction c using Component.induct generalizing target anchor w with
  | mk core slots children ihs ihc =>
    have hrow : ∀ row : List (Nested H), (∀ n ∈ row, ∀ c, n.block = .component c → c.Active → ∀ t a w,
        Mounting c (c.mountCreated t a w)) → eachOf (·.phase.Active) (fun _ => True) row →
          (∀ n ∈ row, n.block.Active) ∧
            ∀ n ∈ row, ∀ c, n.block = .component c → ∀ t a w, Mounting c (c.mountCreated t a w) := by
      intro row ih h
      refine ⟨eachOf_iff.1 h, fun n hn c hb => ih n hn c hb ?_⟩
      have := eachOf_iff.1 h n hn
      rwa [hb] at this
    obtain ⟨hslots, hslotsMount⟩ := hrow slots ihs h.2.1
    obtain ⟨hchildren, hchildrenMount⟩ := hrow children ihc h.2.2
    have hactive : core.phase.Active := h.1
    have hnone := countP_unmounted_of_active hchildren
    have habandon : ∀ (core' : Core H) (slots' children' : List (Nested H)) fault u, core'.phase = core.phase →
        (∀ n ∈ slots', n.block.Active ∨ n.block.Idle) → (∀ n ∈ children', n.block.Active ∨ n.block.Idle) →
        children'.countP (·.block.unmounted) ≤ 1 →
        Mounting (.mk core slots children) ((Component.mk core' slots' children').abandon fault u) := by
      intro core' slots' children' fault u hp hs hc hn
      have hgone := abandon_abandoned (hp ▸ hactive) hs hc hn fault u
      exact ⟨fun hok => absurd hok error_ne_ok, fun _ => .inr hgone, fun _ _ => hgone⟩
    have hearly : ∀ (core' : Core H) (slots' : List (Nested H)) fault u, core'.phase = core.phase →
        (∀ n ∈ slots', n.block.Active ∨ n.block.Idle) →
        Mounting (.mk core slots children) ((Component.mk core' slots' children).abandon fault u) :=
      fun core' slots' fault u hp hs =>
        habandon core' slots' children fault u hp hs (fun n hn => .inl (hchildren n hn)) (hnone.trans_le (Nat.zero_le 1))
    have hrefused : ∀ fault, core.phase.state ≠ .created →
        Mounting (.mk core slots children) (.fail fault (.mk core slots children) w) := fun _ hs =>
      ⟨fun hok => absurd hok error_ne_ok, fun _ => .inl rfl, fun hcreated => absurd hcreated hs⟩
    rw [mountCreated]
    split
    · next hp => exact hrefused _ (hp ▸ State.noConfusion)
    · next hp => exact hrefused _ (hp ▸ State.noConfusion)
    · next hp => exact hrefused _ (hp ▸ State.noConfusion)
    · next fragment _ =>
      have hphase := core.phase_bind fragment w
      have hcontents := mountRow_active hslots hslotsMount
      have hkids := mountRow_active hchildren hchildrenMount
      dsimp only
      split
      · exact hearly _ _ _ _ hphase fun n hn => .inl (hslots n hn)
      · split
        · exact hearly _ _ _ _ hphase fun n hn => .inl (hslots n hn)
        · exact hearly _ _ _ _ hphase fun n hn => .inl (hslots n hn)
        · split
          · exact hearly _ _ _ _ hphase (hcontents _ _ _ _ _).2.1
          · next hok =>
            split
            · exact habandon _ _ _ _ _ hphase (hcontents _ _ _ _ _).2.1 (hkids _ _ _ _ _).2.1 (hkids _ _ _ _ _).2.2
            · next hok' =>
              exact ⟨fun _ => ⟨⟨trivial, eachOf_iff.2 ((hcontents _ _ _ _ _).1 hok),
                eachOf_iff.2 ((hkids _ _ _ _ _).1 hok')⟩, rfl⟩, fun hno => absurd rfl hno, fun _ hno => absurd rfl hno⟩

section

variable {c : Component H} (hp : ¬ c.core.phase.Active) (target : NodeId) (anchor : Option NodeId) {w : World H}

include hp

/-- mounting fails where creating does -/
theorem Component.mount_of_error {fault : LifecycleFault} (hr : (c.create w).result = .error fault) :
    c.mount target anchor w = c.create w := by
  unfold mount
  split
  · next h => rw [h] at hp; exact absurd trivial hp
  · next h => rw [h] at hp; exact absurd trivial hp
  all_goals
    dsimp only
    rw [hr]

/-- a component that is not created yet is created and then mounted -/
theorem Component.mount_of_ok (hr : (c.create w).result = .ok ()) :
    c.mount target anchor w = (c.create w).self.mountCreated target anchor (c.create w).world := by
  unfold mount
  split
  · next h => rw [h] at hp; exact absurd trivial hp
  · next h => rw [h] at hp; exact absurd trivial hp
  all_goals
    dsimp only
    rw [hr]

end

/-- mounting a component that is orderly: what becomes of it if that fails -/
theorem Component.Orderly.mount {c : Component H} (h : c.Orderly) (target : NodeId) (anchor : Option NodeId)
    (w : World H) : (c.mount target anchor w).self.Orderly ∧
      (c.state ≠ .mounted → (c.mount target anchor w).result ≠ .ok () →
        ((c.create w).result ≠ .ok () ∧ (c.mount target anchor w).self.state = c.state) ∨
          Abandoned (c.mount target anchor w).self) := by
  have hcreate := h.creating w
  have hactive : c.Active → (c.mountCreated target anchor w).self.Orderly := by
    intro ha
    have hmount := ha.mounting target anchor w
    by_cases hok : (c.mountCreated target anchor w).result = .ok ()
    · exact .active (hmount.ok hok).1
    · rcases hmount.error hok with hsame | hgone
      · rw [hsame]
        exact h
      · exact hgone.idle.orderly
  have hphase : c.core.phase.Active → c.Active := by
    intro hp
    cases h with
    | active ha => exact ha
    | resting own => exact absurd hp own.phase
  by_cases hp : c.core.phase.Active
  · have ha := hphase hp
    cases hc : c.core.phase with
    | unmounted => rw [hc] at hp; exact hp.elim
    | destroyed => rw [hc] at hp; exact hp.elim
    | mounted =>
      rw [Component.mount, hc]
      exact ⟨h, fun hs => absurd (congrArg Phase.state hc) hs⟩
    | created fragment =>
      rw [Component.mount, hc]
      exact ⟨hactive ha, fun _ hno => .inr ((ha.mounting target anchor w).created (congrArg Phase.state hc) hno)⟩
  · cases hr : (c.create w).result with
    | error fault =>
      rw [Component.mount_of_error hp target anchor hr]
      exact ⟨hcreate.orderly, fun _ _ => .inl ⟨error_ne_ok, hcreate.state (hr ▸ error_ne_ok)⟩⟩
    | ok =>
      rw [Component.mount_of_ok hp target anchor hr]
      obtain ⟨ha, hs⟩ := hcreate.active hr
      have hmount := ha.mounting target anchor (c.create w).world
      refine ⟨?_, fun _ hno => .inr (hmount.created hs hno)⟩
      by_cases hok : ((c.create w).self.mountCreated target anchor (c.create w).world).result = .ok ()
      · exact .active (hmount.ok hok).1
      · exact (hmount.created hs hok).idle.orderly

/-! ## Any calls -/

/-- calls are made one after another, and anything may happen to the world in between -/
def Component.over (c : Component H) (calls : List (Call NodeId × World H)) : Component H :=
  calls.foldl (fun c e => (c.call e.2 e.1).self) c

/-- every call keeps a component orderly, whatever it results in -/
theorem Component.Orderly.call {c : Component H} (h : c.Orderly) (call : Call NodeId) (w : World H) :
    (c.call w call).self.Orderly := by
  cases call with
  | create => exact (h.creating w).orderly
  | mount target anchor => exact (h.mount target anchor w).1
  | destroy detaching => exact h.destroy detaching w
  | update changed => exact (c.update_footing changed w).orderly h
  | set incoming => exact (c.tick_footing incoming none w).orderly h
  | tick incoming context => exact (c.tick_footing incoming context w).orderly h
  | transition t isLocal => exact (c.transition_footing t isLocal w).orderly h

theorem Component.Orderly.over {c : Component H} (h : c.Orderly) (calls : List (Call NodeId × World H)) :
    (c.over calls).Orderly := by
  induction calls generalizing c with
  | nil => exact h
  | cons e calls ih => exact ih (h.call e.1 e.2)

end LiveMarkup
