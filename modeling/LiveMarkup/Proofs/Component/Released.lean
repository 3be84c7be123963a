/-
Destroying where nested blocks fail.

A component that is created or mounted takes its own nodes out if it is detaching, undoes what it has to undo, and then
destroys every slot content and every child, whatever any of these calls results in; the first fault is the one that is
reported. A nested block takes its nodes out itself only if it was mounted at the top level. That is noted whenever a mount
comes to the block, so at any time it is what the last such mount has found.

- `mountRow_flags`: what a mount notes for the blocks that it comes to, and leaves for the others;
- `Component.flags_call`, `Component.flags_over`: no other call changes that;
- `Component.destroy_all`: what destroying does, with all that is nested.
-/
import LiveMarkup.Proofs.Component.Lifecycle
import LiveMarkup.Proofs.Document.Links

namespace LiveMarkup

variable {H : Host}

/-! ## What is noted of nested blocks -/

/-- the blocks of a row by the indices of their placeholders, with what is noted of each: whether it is at the top level -/
def flagsOf (row : List (Nested H)) : List (Nat × Bool) := row.map fun n => (n.index, n.atRoot)

/-- the same of the slot contents and the children of a component -/
def Component.flags (c : Component H) : List (Nat × Bool) := flagsOf c.slots ++ flagsOf c.children

/-- what is noted of the block with this index after these notes, if it was `flag` before -/
def lastNote (notes : List (Nat × Bool)) (index : Nat) (flag : Bool) : Bool :=
  notes.foldl (fun flag note => if note.1 = index then note.2 else flag) flag

/-- what is noted of some blocks after these notes -/
def noteAll (notes flags : List (Nat × Bool)) : List (Nat × Bool) := flags.map fun e => (e.1, lastNote notes e.1 e.2)

theorem noteAll_nil (flags : List (Nat × Bool)) : noteAll [] flags = flags := List.map_id' flags

theorem lastNote_append (notes more : List (Nat × Bool)) (index : Nat) (flag : Bool) :
    lastNote (notes ++ more) index flag = lastNote more index (lastNote notes index flag) := List.foldl_append

theorem noteAll_append (notes more flags : List (Nat × Bool)) :
    noteAll (notes ++ more) flags = noteAll more (noteAll notes flags) := by
  simp [noteAll, lastNote_append]

/-- notes of other blocks -/
theorem lastNote_of_not_mem {notes : List (Nat × Bool)} {index : Nat} (h : index ∉ notes.map (·.1)) (flag : Bool) :
    lastNote notes index flag = flag := by
  induction notes generalizing flag with
  | nil => rfl
  | cons note notes ih =>
    rw [List.map_cons, List.mem_cons, not_or] at h
    rw [lastNote, List.foldl_cons, if_neg (Ne.symm h.1)]
    exact ih h.2 flag

theorem noteAll_of_disjoint {notes flags : List (Nat × Bool)} (h : List.Disjoint (notes.map (·.1)) (flags.map (·.1))) :
    noteAll notes flags = flags := by
  refine (List.map_congr_left fun e he => ?_).trans (List.map_id' flags)
  rw [lastNote_of_not_mem fun hin => h hin (List.mem_map_of_mem he)]

/-- nothing is noted of the first block -/
theorem noteAll_cons_left {notes flags : List (Nat × Bool)} {index : Nat} (h : index ∉ notes.map (·.1)) (flag : Bool) :
    noteAll notes ((index, flag) :: flags) = (index, flag) :: noteAll notes flags := by
  rw [noteAll, List.map_cons, lastNote_of_not_mem h]
  rfl

/-- something is noted of the first block, and then of the others -/
theorem noteAll_cons_noted {notes flags : List (Nat × Bool)} {index : Nat} (h : index ∉ notes.map (·.1))
    (hf : index ∉ flags.map (·.1)) (flag noted : Bool) :
    noteAll ((index, noted) :: notes) ((index, flag) :: flags) = (index, noted) :: noteAll notes flags := by
  have hothers : noteAll [(index, noted)] flags = flags :=
    noteAll_of_disjoint (List.singleton_disjoint.2 hf)
  have hfirst : lastNote [(index, noted)] index flag = noted := if_pos rfl
  rw [show (index, noted) :: notes = [(index, noted)] ++ notes from rfl, noteAll_append]
  show noteAll notes ((index, lastNote [(index, noted)] index flag) :: noteAll [(index, noted)] flags) = _
  rw [hothers, hfirst, noteAll_cons_left h]

theorem indices_noteAll (notes flags : List (Nat × Bool)) : (noteAll notes flags).map (·.1) = flags.map (·.1) := by
  simp [noteAll]

theorem indices_flagsOf (row : List (Nested H)) : (flagsOf row).map (·.1) = row.map Nested.index := by
  simp [flagsOf]

variable [ForeignBlocks H]

/-! ## Calls that note nothing -/

theorem createAll_flags (row : List (Nested H)) (w : World H) : flagsOf (createAll row w).self = flagsOf row := by
  induction row generalizing w with
  | nil => rfl
  | cons n row ih =>
    obtain ⟨index, atRoot, block⟩ := n
    rw [createAll]
    split
    · rfl
    · exact congrArg ((index, atRoot) :: ·) (ih _)

theorem destroyAll_flags (detaching : Bool) (row : List (Nested H)) (w : World H) :
    flagsOf (destroyAll detaching row w).self = flagsOf row := by
  induction row generalizing w with
  | nil => rfl
  | cons n row ih =>
    obtain ⟨index, atRoot, block⟩ := n
    exact congrArg ((index, atRoot) :: ·) (ih _)

theorem updateRow_flags (deliver : Nat → Option Props) (row : List (Nested H)) (w : World H) :
    flagsOf (updateRow deliver row w).self = flagsOf row := by
  induction row generalizing w with
  | nil => rfl
  | cons n row ih =>
    obtain ⟨index, atRoot, block⟩ := n
    rw [updateRow_cons]
    split
    · exact congrArg ((index, atRoot) :: ·) (ih _)
    · dsimp only
      split
      · rfl
      · exact congrArg ((index, atRoot) :: ·) (ih _)

theorem transitionAll_flags (t : Transition) (isLocal : Bool) (row : List (Nested H)) (w : World H) :
    flagsOf (transitionAll t isLocal row w).1 = flagsOf row := by
  induction row generalizing w with
  | nil => rfl
  | cons n row ih =>
    obtain ⟨index, atRoot, block⟩ := n
    exact congrArg ((index, atRoot) :: ·) (ih _)

theorem Component.flags_create (c : Component H) (w : World H) : (c.create w).self.flags = c.flags := by
  obtain ⟨core, slots, children⟩ := c
  rw [create]
  split
  · rfl
  · rfl
  all_goals
    dsimp only
    split
    · exact congrArg (flagsOf slots ++ ·) (createAll_flags children _)
    · split <;> exact congrArg₂ (· ++ ·) (createAll_flags slots _) (createAll_flags children _)

theorem Component.flags_destroy (detaching : Bool) (c : Component H) (w : World H) :
    (c.destroy detaching w).self.flags = c.flags := by
  obtain ⟨core, slots, children⟩ := c
  rw [destroy]
  split
  · rfl
  · rfl
  all_goals exact congrArg₂ (· ++ ·) (destroyAll_flags detaching slots _) (destroyAll_flags detaching children _)

theorem Component.flags_abandon (fault : LifecycleFault) (c : Component H) (w : World H) :
    (c.abandon fault w).self.flags = c.flags := by
  have h := c.flags_destroy false w
  unfold abandon
  generalize c.destroy false w = o at h
  obtain ⟨⟨core, slots, children⟩, u, result⟩ := o
  exact h

theorem Component.flags_tick (incoming : Props) (context : Option Props) (c : Component H) (w : World H) :
    (c.tick incoming context w).self.flags = c.flags := by
  obtain ⟨core, slots, children⟩ := c
  by_cases hp : core.phase = .destroyed
  · rw [tick_mk, if_pos hp]
    rfl
  · rw [tick_eq hp]
    dsimp only
    split
    · exact congrArg (· ++ flagsOf children) (updateRow_flags _ slots _)
    · exact congrArg₂ (· ++ ·) (updateRow_flags _ slots _) (updateRow_flags _ children _)

/-! ## What a mount notes -/

/-- a block that a mount comes to: its index, whether its marker is directly in the fragment, and what mounting it results
in -/
structure Visit where
  index : Nat
  atRoot : Bool
  result : Except LifecycleFault Unit

/-- the blocks that the mount of a row comes to, up to the first that fails -/
def rowVisits (fragment : NodeId) (held later : List NodeId) :
    List (Nested H) → List (Nat × NodeId) → World H → List Visit
  | [], _, _ => []
  | .mk index _ block :: row, spots, w =>
    let ahead := spots.dropWhile (·.1 ≠ index)
    let w := w.discardAll (held ++ ahead.map (·.2) ++ later) (spots.takeWhile (·.1 ≠ index))
    match ahead with
    | [] => rowVisits fragment held later row [] w
    | (_, spot) :: after =>
      match w.document.parent? spot with
      | none => rowVisits fragment held later row after (w.discard (held ++ (after.map (·.2) ++ later)) spot)
      | some parent =>
        let o := block.mountCreated parent (some spot) w
        ⟨index, parent == fragment, o.result⟩ :: match o.result with
          | .error _ => []
          | .ok _ => rowVisits fragment (held ++ o.self.handles) later row after
              (o.world.discard (held ++ o.self.handles ++ (after.map (·.2) ++ later)) spot)

/-- the blocks in its slots and the children that the mount of a component comes to that is created -/
def Component.visits : Component H → World H → List Visit
  | .mk core slots children, w =>
    match core.phase with
    | .created fragment =>
      let own := core.bind fragment w
      match own.result, own.world.spots fragment .slot (indicesOf core.template.placeholders .slot),
          own.world.spots fragment .child (indicesOf core.template.placeholders .child) with
      | .ok _, .ok slotSpots, .ok childSpots =>
        let spots := (slotSpots ++ childSpots).map (·.2)
        let core := { own.self with roots := (own.world.document.children fragment).filter (!spots.contains ·) }
        let contents := mountRow fragment core.handles (childSpots.map (·.2)) slots slotSpots own.world
        rowVisits fragment core.handles (childSpots.map (·.2)) slots slotSpots own.world ++
          match contents.result with
          | .error _ => []
          | .ok _ => rowVisits fragment (core.handles ++ handlesOf contents.self) [] children childSpots contents.world
      | _, _, _ => []
    | _ => []

def notesOf (visits : List Visit) : List (Nat × Bool) := visits.map fun visit => (visit.index, visit.atRoot)

/-- what a call notes; only a mount notes anything -/
def Component.notesFor (c : Component H) (w : World H) : Call NodeId → List (Nat × Bool)
  | .mount _ _ =>
    match c.core.phase with
    | .created _ => notesOf (c.visits w)
    | .mounted => []
    | .unmounted | .destroyed =>
      match (c.create w).result with
      | .error _ => []
      | .ok _ => notesOf ((c.create w).self.visits (c.create w).world)
  | _ => []

/-- what calls note one after another, each made in its world -/
def Component.notes (c : Component H) : List (Call NodeId × World H) → List (Nat × Bool)
  | [] => []
  | e :: calls => c.notesFor e.2 e.1 ++ (c.call e.2 e.1).self.notes calls

theorem indices_notesOf (visits : List Visit) : (notesOf visits).map (·.1) = visits.map Visit.index := by
  simp [notesOf]

/-- a mount comes to blocks of the row only -/
theorem rowVisits_subset (fragment : NodeId) (held later : List NodeId) (row : List (Nested H))
    (spots : List (Nat × NodeId)) (w : World H) :
    (rowVisits fragment held later row spots w).map Visit.index ⊆ row.map Nested.index := by
  induction row generalizing held spots w with
  | nil => exact List.Subset.refl []
  | cons n row ih =>
    obtain ⟨index, atRoot, block⟩ := n
    rw [rowVisits]
    dsimp only
    split
    · exact List.Subset.trans (ih _ _ _) (List.subset_cons_self _ _)
    · split
      · exact List.Subset.trans (ih _ _ _) (List.subset_cons_self _ _)
      · refine List.cons_subset.2 ⟨List.mem_cons_self, ?_⟩
        split
        · exact List.nil_subset _
        · exact List.Subset.trans (ih _ _ _) (List.subset_cons_self _ _)

/-- a mount notes of each block that it comes to whether it is at the top level, and leaves what is noted of the others -/
theorem mountRow_flags (fragment : NodeId) (held later : List NodeId) {row : List (Nested H)}
    (hn : (row.map Nested.index).Nodup) (spots : List (Nat × NodeId)) (w : World H) :
    flagsOf (mountRow fragment held later row spots w).self =
      noteAll (notesOf (rowVisits fragment held later row spots w)) (flagsOf row) := by
  induction row generalizing held spots w with
  | nil => rfl
  | cons n row ih =>
    obtain ⟨index, atRoot, block⟩ := n
    obtain ⟨hindex, hrow⟩ := List.nodup_cons.1 hn
    have hsub : ∀ held spots (w : World H),
        index ∉ (notesOf (rowVisits fragment held later row spots w)).map (·.1) := by
      intro held spots w hin
      rw [indices_notesOf] at hin
      exact hindex (rowVisits_subset fragment held later row spots w hin)
    have hflags : index ∉ (flagsOf row).map (·.1) := by
      rw [indices_flagsOf]
      exact hindex
    -- a block that is left alone, and one whose marker has a parent
    have hleft : ∀ held spots (w : World H), flagsOf (.mk index atRoot block ::
        (mountRow fragment held later row spots w).self) =
          noteAll (notesOf (rowVisits fragment held later row spots w)) (flagsOf (.mk index atRoot block :: row)) :=
      fun held spots w => (congrArg ((index, atRoot) :: ·) (ih held hrow spots w)).trans
        (noteAll_cons_left (hsub held spots w) atRoot).symm
    rw [mountRow, rowVisits]
    dsimp only
    generalize w.discardAll (held ++ (spots.dropWhile (·.1 ≠ index)).map (·.2) ++ later)
      (spots.takeWhile (·.1 ≠ index)) = w₁
    cases spots.dropWhile (·.1 ≠ index) with
    | nil => exact hleft _ _ _
    | cons spot after =>
      obtain ⟨place, spot⟩ := spot
      dsimp only
      cases w₁.document.parent? spot with
      | none => exact hleft _ _ _
      | some parent =>
        dsimp only
        cases (block.mountCreated parent (some spot) w₁).result with
        | error fault =>
          exact ((noteAll_cons_noted List.not_mem_nil hflags _ _).trans (congrArg _ (noteAll_nil _))).symm
        | ok =>
          exact (congrArg (_ :: ·) (ih _ hrow _ _)).trans (noteAll_cons_noted (hsub _ _ _) hflags _ _).symm

/-! ## What calls note -/

theorem noteAll_apart {notes more flags others : List (Nat × Bool)} (h : (flags ++ others).map (·.1) |>.Nodup)
    (hn : notes.map (·.1) ⊆ flags.map (·.1)) (hm : more.map (·.1) ⊆ others.map (·.1)) :
    noteAll (notes ++ more) (flags ++ others) = noteAll notes flags ++ noteAll more others := by
  rw [List.map_append] at h
  have hapart := (List.nodup_append'.1 h).2.2
  have hfirst : noteAll notes others = others := noteAll_of_disjoint fun i hi ho => hapart (hn hi) ho
  have hsecond : noteAll more (noteAll notes flags) = noteAll notes flags := by
    refine noteAll_of_disjoint fun i hi hf => ?_
    rw [indices_noteAll] at hf
    exact hapart hf (hm hi)
  rw [noteAll_append]
  show (noteAll more ((flags ++ others).map _)) = _
  rw [List.map_append]
  show noteAll more (noteAll notes flags ++ noteAll notes others) = _
  rw [hfirst]
  exact (List.map_append).trans (congrArg (· ++ _) hsecond)

theorem Component.flags_mountCreated (target : NodeId) (anchor : Option NodeId) (c : Component H)
    (hn : (c.flags.map (·.1)).Nodup) (w : World H) :
    (c.mountCreated target anchor w).self.flags = noteAll (notesOf (c.visits w)) c.flags := by
  obtain ⟨core, slots, children⟩ := c
  have hn : ((flagsOf slots ++ flagsOf children).map (·.1)).Nodup := hn
  have hboth : (slots.map Nested.index).Nodup ∧ (children.map Nested.index).Nodup := by
    rw [List.map_append, indices_flagsOf, indices_flagsOf] at hn
    exact ⟨(List.nodup_append.1 hn).1, (List.nodup_append.1 hn).2.1⟩
  have hnone : ∀ flags : List (Nat × Bool), flags = noteAll [] flags := fun flags => (noteAll_nil flags).symm
  rw [mountCreated, visits]
  cases hp : core.phase with
  | mounted | unmounted | destroyed => exact hnone _
  | created fragment =>
    dsimp only
    cases (core.bind fragment w).result with
    | error fault => exact (flags_abandon _ _ _).trans (hnone _)
    | ok =>
      dsimp only
      cases (core.bind fragment w).world.spots fragment .slot (indicesOf core.template.placeholders .slot) with
      | error fault => exact (flags_abandon _ _ _).trans (hnone _)
      | ok slotSpots =>
        cases (core.bind fragment w).world.spots fragment .child (indicesOf core.template.placeholders .child) with
        | error fault => exact (flags_abandon _ _ _).trans (hnone _)
        | ok childSpots =>
          dsimp only
          generalize ((core.bind fragment w).world.document.children fragment).filter
            (!((slotSpots ++ childSpots).map (·.2)).contains ·) = roots
          generalize Core.handles { (core.bind fragment w).self with roots } = held
          have hcontents := mountRow_flags fragment held (childSpots.map (·.2)) hboth.1 slotSpots
            (core.bind fragment w).world
          have hsub := rowVisits_subset fragment held (childSpots.map (·.2)) slots slotSpots (core.bind fragment w).world
          generalize mountRow fragment held (childSpots.map (·.2)) slots slotSpots (core.bind fragment w).world =
            contents at hcontents
          generalize rowVisits fragment held (childSpots.map (·.2)) slots slotSpots (core.bind fragment w).world =
            first at hcontents hsub
          rw [← indices_flagsOf, ← indices_notesOf] at hsub
          -- what is noted of the slot contents, and of the children if their turn comes
          have hall : ∀ (row : List (Nested H)) (more : List Visit),
              (notesOf more).map (·.1) ⊆ (flagsOf children).map (·.1) →
              flagsOf row = noteAll (notesOf more) (flagsOf children) →
              flagsOf contents.self ++ flagsOf row =
                noteAll (notesOf (first ++ more)) (flagsOf slots ++ flagsOf children) := by
            intro row more hmore hrow
            rw [show notesOf (first ++ more) = notesOf first ++ notesOf more from List.map_append,
              noteAll_apart hn hsub hmore, hcontents, hrow]
          cases contents.result with
          | error fault =>
            exact (flags_abandon _ _ _).trans (hall children [] (List.nil_subset _) (hnone _))
          | ok =>
            dsimp only
            have hkids := mountRow_flags fragment (held ++ handlesOf contents.self) [] hboth.2 childSpots contents.world
            have hsubKids := rowVisits_subset fragment (held ++ handlesOf contents.self) [] children childSpots
              contents.world
            rw [← indices_flagsOf, ← indices_notesOf] at hsubKids
            cases (mountRow fragment (held ++ handlesOf contents.self) [] children childSpots contents.world).result with
            | error fault => exact (flags_abandon _ _ _).trans (hall _ _ hsubKids hkids)
            | ok => exact hall _ _ hsubKids hkids

/-- what is noted of nested blocks after a call -/
theorem Component.flags_call {c : Component H} (hn : (c.flags.map (·.1)).Nodup) (call : Call NodeId) (w : World H) :
    (c.call w call).self.flags = noteAll (c.notesFor w call) c.flags := by
  have hnone : c.flags = noteAll [] c.flags := (noteAll_nil c.flags).symm
  cases call with
  | create => exact (c.flags_create w).trans hnone
  | destroy detaching => exact (c.flags_destroy detaching w).trans hnone
  | set incoming => exact (c.flags_tick incoming none w).trans hnone
  | tick incoming context => exact (c.flags_tick incoming context w).trans hnone
  | update changed =>
    refine Eq.trans ?_ hnone
    obtain ⟨core, slots, children⟩ := c
    rw [call_update, update_mk]
    split
    · rfl
    · exact congrArg (flagsOf slots ++ ·) (updateRow_flags _ children _)
  | transition t isLocal =>
    refine Eq.trans ?_ hnone
    obtain ⟨core, slots, children⟩ := c
    exact congrArg₂ (· ++ ·) (transitionAll_flags t isLocal slots w) (transitionAll_flags t isLocal children _)
  | mount target anchor =>
    rw [Component.call, callIn, mount, notesFor]
    cases c.core.phase with
    | mounted => exact hnone
    | created fragment => exact c.flags_mountCreated target anchor hn w
    | unmounted | destroyed =>
      dsimp only
      have hcreate := c.flags_create w
      cases (c.create w).result with
      | error fault => exact hcreate.trans hnone
      | ok =>
        rw [flags_mountCreated target anchor (c.create w).self (by rw [hcreate]; exact hn), hcreate]

/-- what is noted of nested blocks after any calls: what the last mount that has come to a block has found -/
theorem Component.flags_over {c : Component H} (hn : (c.flags.map (·.1)).Nodup)
    (calls : List (Call NodeId × World H)) : (c.over calls).flags = noteAll (c.notes calls) c.flags := by
  induction calls generalizing c with
  | nil => exact (noteAll_nil c.flags).symm
  | cons e calls ih =>
    have hcall := flags_call hn e.1 e.2
    refine (ih (c := (c.call e.2 e.1).self) ?_).trans ?_
    · rw [hcall, indices_noteAll]
      exact hn
    · rw [hcall, notes, noteAll_append]

/-! ## Instances -/

omit [ForeignBlocks H] in
theorem fillSlots_flags {T : Type} (ps : List (Placeholder (Action H) T)) (index : Nat) (contents : Entries (Block H)) :
    ∀ e ∈ flagsOf (fillSlots index ps contents).1, e.2 = false := by
  induction ps generalizing index contents with
  | nil => exact List.forall_mem_nil _
  | cons p ps ih =>
    cases p with
    | slot name =>
      rw [fillSlots]
      split
      · exact List.forall_mem_cons.2 ⟨rfl, ih _ _⟩
      · exact ih _ _
    | _ => exact ih _ _

omit [ForeignBlocks H] in
/-- the blocks of an instance are at placeholders of their own, and of none is it noted that it is at the top level -/
theorem Component.furnished_flags (t : Template (Action H)) (options : Options H) (w : World H) :
    ((furnished t options w).flags.map (·.1)).Nodup ∧ ∀ e ∈ (furnished t options w).flags, e.2 = false := by
  have hslots := fillSlots_indices t.placeholders 0 options.slots
  have hinstance := ofTemplate_instance t options.props w
  unfold furnished
  generalize (ofTemplate t options.props w).1 = c at hinstance
  cases hinstance with
  | mk channel indices flags placed kids =>
    refine ⟨?_, List.forall_mem_append.2 ⟨fillSlots_flags _ _ _, List.forall_mem_map.2 flags⟩⟩
    have hslotIndices : (indicesOf t.placeholders .slot).Nodup := nodup_indicesOf _ _
    have hchildIndices : (indicesOf t.placeholders .child).Nodup := nodup_indicesOf _ _
    rw [Component.flags, List.map_append, indices_flagsOf, indices_flagsOf]
    refine List.nodup_append'.2 ⟨hslots.nodup hslotIndices, indices ▸ hchildIndices, fun i hi hi' => ?_⟩
    obtain ⟨p, hp, hcategory⟩ := mem_indicesOf.1 (hslots.subset hi)
    obtain ⟨q, hq, hcategory'⟩ := mem_indicesOf.1 (indices ▸ hi')
    obtain rfl : p = q := Option.some.inj (hp.symm.trans hq)
    rw [hcategory] at hcategory'
    cases hcategory'

/-! ## Destroying -/

/-- the blocks of a row are destroyed one after another, each once, whatever each results in; `detaching` says of each
whether it is to take its nodes out -/
inductive Released (detaching : Nat → Bool) :
    List (Nested H) → World H → List (Nested H) → World H → List (Except LifecycleFault Unit) → Prop
  | nobody (w : World H) : Released detaching [] w [] w []
  | next {index : Nat} {atRoot : Bool} {block : Block H} {row row' : List (Nested H)} {w w' : World H}
      {results : List (Except LifecycleFault Unit)}
      (rest : Released detaching row (block.destroy (detaching index) w).world row' w' results) :
      Released detaching (.mk index atRoot block :: row) w
        (.mk index atRoot (block.destroy (detaching index) w).self :: row') w'
        ((block.destroy (detaching index) w).result :: results)

/-- the first fault among some results -/
def firstError (results : List (Except LifecycleFault Unit)) : Except LifecycleFault Unit :=
  (results.find? (· ≠ .ok ())).getD (.ok ())

omit [ForeignBlocks H] in
theorem firstError_append (results more : List (Except LifecycleFault Unit)) :
    firstError (results ++ more) = firstFault (firstError results) (firstError more) := by
  simp only [firstError, List.find?_append]
  cases h : results.find? (· ≠ .ok ()) with
  | none => rfl
  | some result =>
    have hfault : result ≠ .ok () := by simpa using List.find?_some h
    cases result with
    | error fault => rfl
    | ok => exact absurd rfl hfault

/-- a row is destroyed to the end, and the first fault is reported -/
theorem destroyAll_released {detaching : Bool} {flags : Nat → Bool} {row : List (Nested H)}
    (h : ∀ n ∈ row, (detaching && n.atRoot) = flags n.index) (w : World H) :
    ∃ results, Released flags row w (destroyAll detaching row w).self (destroyAll detaching row w).world results ∧
      (destroyAll detaching row w).result = firstError results := by
  induction row generalizing w with
  | nil => exact ⟨[], .nobody w, rfl⟩
  | cons n row ih =>
    obtain ⟨index, atRoot, block⟩ := n
    rw [List.forall_mem_cons] at h
    have hflag : (detaching && atRoot) = flags index := h.1
    obtain ⟨results, hreleased, hresult⟩ := ih h.2 (block.destroy (flags index) w).world
    rw [destroyAll, hflag]
    refine ⟨_, .next hreleased, ?_⟩
    dsimp only
    rw [hresult, ← List.singleton_append, firstError_append]
    cases (block.destroy (flags index) w).result <;> rfl

/-- these nodes have been taken from their parents, whose other children stay in order, and nothing else has changed -/
structure World.Uprooted (ids : List NodeId) (w w' : World H) : Prop where
  parent : ∀ x, w'.document.parent? x = if x ∈ ids then none else w.document.parent? x
  children : ∀ x, w'.document.children x = (w.document.children x).filter (· ∉ ids)
  node : ∀ x, w'.document.node? x = w.document.node? x
  others : w' = { w with document := w'.document }

omit [ForeignBlocks H] in
/-- a component that takes its nodes out takes nothing else out -/
theorem Core.uprooted_detachRoots (c : Core H) {w : World H} (hv : w.document.Valid) :
    w.Uprooted c.roots (c.detachRoots w) := by
  unfold detachRoots
  induction c.roots generalizing w with
  | nil => exact ⟨fun _ => rfl, fun _ => (List.filter_eq_self.2 fun _ _ => rfl).symm, fun _ => rfl, rfl⟩
  | cons root roots ih =>
    obtain ⟨hparent, hchildren, hnode, hothers⟩ := ih (w := w.edit (·.detach root)) (Document.valid_detach hv root)
    rw [List.foldl_cons]
    refine ⟨fun x => (hparent x).trans ?_, fun x => (hchildren x).trans ?_, fun x => (hnode x).trans ?_, hothers⟩
    · by_cases hx : x = root
      · subst hx
        show (if x ∈ roots then none else (w.document.detach x).parent? x) = _
        rw [Document.parent?_detach_self hv, ite_self, if_pos List.mem_cons_self]
      · show (if x ∈ roots then none else (w.document.detach root).parent? x) = _
        rw [Document.parent?_detach hv hx]
        simp [hx]
    · show ((w.document.detach root).children x).filter _ = _
      rw [Document.children_detach hv, List.filter_filter]
      refine List.filter_congr fun y _ => ?_
      simp [Bool.and_comm]
    · exact Document.node?_detach hv root x

/-- whether a nested block of a component was mounted at the top level is what the last mount that came to it found -/
theorem Component.furnished_atRoot {t : Template (Action H)} {options : Options H} {w₀ : World H}
    {calls : List (Call NodeId × World H)} {e : Nat × Bool} (h : e ∈ ((furnished t options w₀).over calls).flags) :
    e.2 = lastNote ((furnished t options w₀).notes calls) e.1 false := by
  obtain ⟨hnodup, hfalse⟩ := furnished_flags t options w₀
  rw [flags_over hnodup, noteAll, List.mem_map] at h
  obtain ⟨first, hfirst, rfl⟩ := h
  dsimp only
  rw [hfalse first hfirst]

omit [ForeignBlocks H] in
theorem Phase.active_of {p : Phase} (h : p.state = .created ∨ p.state = .mounted) : p.Active := by
  cases p with
  | created fragment => trivial
  | mounted => trivial
  | unmounted => simp [Phase.state] at h
  | destroyed => simp [Phase.state] at h

omit [ForeignBlocks H] in
theorem Component.Orderly.active_of {c : Component H} (h : c.Orderly) (hp : c.core.phase.Active) : c.Active := by
  cases h with
  | active h => exact h
  | resting own => exact absurd hp own.phase

/-- what destroying a component does that is created or mounted, where `flags` says of each nested block whether it is to
take its nodes out -/
theorem Component.destroy_released {c : Component H} (hp : c.core.phase.Active) {detaching : Bool} {flags : Nat → Bool}
    (hflags : ∀ e ∈ c.flags, (detaching && e.2) = flags e.1) {w : World H} (hv : w.document.Valid) :
    ∃ w₁ w₂ results results',
      (if detaching = true ∧ c.state = .mounted then w₁ = c.core.detachRoots w ∧ w.Uprooted c.roots w₁ else w₁ = w) ∧
      Released flags c.slots (c.core.cleanups.foldl Cleanup.run w₁) (c.destroy detaching w).self.slots w₂ results ∧
      Released flags c.children w₂ (c.destroy detaching w).self.children (c.destroy detaching w).world results' ∧
      (c.destroy detaching w).result = firstError (results ++ results') := by
  obtain ⟨core, slots, children⟩ := c
  have hrow : ∀ row : List (Nested H), flagsOf row ⊆ flagsOf slots ++ flagsOf children →
      ∀ n ∈ row, (detaching && n.atRoot) = flags n.index := fun row hsub n hn =>
    hflags (n.index, n.atRoot) (hsub (List.mem_map.2 ⟨n, hn, rfl⟩))
  have hmounted : (Component.mk core slots children).state = .mounted ↔ core.phase = .mounted := by
    show core.phase.state = .mounted ↔ _
    cases core.phase <;> simp [Phase.state]
  replace hp : core.phase.Active := hp
  rw [Component.destroy_eq hp]
  generalize hw₁ : (if detaching && core.phase = .mounted then core.detachRoots w else w) = w₁
  obtain ⟨results, hslots, hfirst⟩ :=
    destroyAll_released (hrow slots (List.subset_append_left _ _)) (core.cleanUp w₁)
  obtain ⟨results', hchildren, hsecond⟩ :=
    destroyAll_released (hrow children (List.subset_append_right _ _)) (destroyAll detaching slots (core.cleanUp w₁)).world
  refine ⟨w₁, _, results, results', ?_, hslots, hchildren, ?_⟩
  · split
    · next hgone =>
      have htaken : w₁ = core.detachRoots w := hw₁.symm.trans (if_pos (by simp [hgone.1, hmounted.1 hgone.2]))
      exact ⟨htaken, htaken ▸ core.uprooted_detachRoots hv⟩
    · next hkept =>
      rw [hmounted] at hkept
      exact hw₁.symm.trans (if_neg (by simpa using hkept))
  · rw [firstError_append, ← hfirst, ← hsecond]

/-- **Destroying.** A component that is created or mounted, after any calls, is destroyed, whatever the blocks in it result
in. Its own nodes at the top level are taken out if it is detaching and mounted, and nothing else is changed; then it undoes
everything it has to undo, each thing once and in order; then every slot content and every child is destroyed once, in
order. It tells those to take their nodes out, if it is detaching, whose markers the last mount that has come to them has
found directly at the top level. The first fault among the results of all these calls is the result, if there is one; and
nothing is left of the component, and of all that are nested in it, but blocks of the host. -/
theorem Component.destroy_all {t : Template (Action H)} {options : Options H}
    (hslots : ∀ e ∈ options.slots, e.2.Orderly) (w₀ : World H) (calls : List (Call NodeId × World H))
    (hs : ((furnished t options w₀).over calls).state = .created ∨
      ((furnished t options w₀).over calls).state = .mounted)
    (detaching : Bool) {w : World H} (hv : w.document.Valid) :
    let now := (furnished t options w₀).over calls
    let notes := (furnished t options w₀).notes calls
    let o := now.destroy detaching w
    o.self.state = .destroyed ∧ o.self.roots = [] ∧ o.self.Idle ∧
    ∃ w₁ w₂ results results',
      (if detaching = true ∧ now.state = .mounted then
          w₁ = now.core.detachRoots w ∧ w.Uprooted now.roots w₁
        else w₁ = w) ∧
      Released (fun index => detaching && lastNote notes index false) now.slots
        (now.core.cleanups.foldl Cleanup.run w₁) o.self.slots w₂ results ∧
      Released (fun index => detaching && lastNote notes index false) now.children w₂ o.self.children o.world results' ∧
      o.result = firstError (results ++ results') := by
  intro now notes o
  have hp : now.core.phase.Active := Phase.active_of hs
  have hactive : now.Active := ((furnished_orderly (t := t) hslots w₀).1.over calls).active_of hp
  have hself : o.self.state = .destroyed ∧ o.self.roots = [] := by
    show (now.destroy detaching w).self.state = .destroyed ∧ (now.destroy detaching w).self.roots = []
    generalize now = c at hp
    obtain ⟨core, slots, children⟩ := c
    replace hp : core.phase.Active := hp
    rw [Component.destroy_eq hp]
    exact ⟨rfl, rfl⟩
  refine ⟨hself.1, hself.2, hactive.destroy detaching w, destroy_released hp (fun e he => ?_) hv⟩
  exact congrArg (detaching && ·) (furnished_atRoot he)

/-- a stack around a guest that fails when it is destroyed -/
def Component.refusing : Component Script.host :=
  furnished Template.stacked (Options.around (.foreign ⟨"guest", [.destroy], none⟩)) World.blank

/-- the guest fails, and everything is taken out nevertheless -/
theorem Component.destroy_all_refusing :
    let mounted := refusing.run World.blank [.mount 0 none]
    let o := mounted.1.destroy true mounted.2
    mounted.2.document.children 0 ≠ [] ∧ o.self.state = .destroyed ∧ o.self.Idle ∧
      o.result = .error (.missingMarker "guest-destroy") ∧ o.world.document.children 0 = [] := by
  have hslot : ∀ e ∈ (Options.around (.foreign ⟨"guest", [.destroy], none⟩)).slots, e.2.Orderly := fun e he => by
    rw [List.mem_singleton.1 he]
    exact Block.foreign_orderly _
  have hv : (refusing.run World.blank [.mount 0 none]).2.document.Valid :=
    ⟨Forest.Same.refl _, by decide +kernel, by decide +kernel⟩
  obtain ⟨hstate, -, hidle, -⟩ := destroy_all (t := Template.stacked) hslot World.blank [(.mount 0 none, World.blank)]
    (.inr (by decide +kernel)) true hv
  exact ⟨by decide +kernel, hstate, hidle, by decide +kernel, by decide +kernel⟩

end LiveMarkup
