/-
What a takeover that fails has displaced.

A component that hydrates takes the nodes of the server rendering out of its target first, and is mounted then. If that
fails, all that the mount has set up is taken back. But these nodes it knows nothing of, and nobody else puts them back.

- `Document.Shifts.tree_above`: nodes that are taken out leave less of the tree that they were in;
- `Component.start_fails`: a start that fails leaves the target as it was right before the mount;
- `Component.start_displaces`: so without `hydrate` nothing is different, and with it the target has lost what was counted
  as the rendering, whatever the mount has failed at.
-/
import LiveMarkup.Proofs.Component.Awaiting
import LiveMarkup.Proofs.Component.Failing
import LiveMarkup.Proofs.Component.Hydrate

namespace LiveMarkup

open Forest

/-! ## Trees that others are taken out of -/

namespace Document

variable {L : Type} {d d' : Document L} {moved : List NodeId} {T : Node L × Forest (Node L)} {target x : NodeId}

/-- the root of a tree contains what is in the tree, and nothing else -/
theorem contains_root_iff (hv : d.Valid) (hT : T ∈ d.forest.trees) :
    d.contains T.1.id x = true ↔ x ∈ (tree T.1 T.2).ids := by
  have hsub : (T.1.bare, T.2.bare) ∈ d.forest.bare.subtrees := by
    rw [bare, subtrees_map]
    exact List.mem_map_of_mem (trees_subset_subtrees _ hT)
  have hids : x ∈ (tree T.1.bare T.2.bare).ids ↔ x ∈ (tree T.1 T.2).ids := by
    rw [← ids_bare (tree T.1 T.2)]
    rfl
  rw [← hids]
  refine ⟨fun h => ?_, fun h => Holds.contains_of_mem hv hsub h⟩
  by_contra hout
  rw [show T.1.id = T.1.bare.id from rfl, Holds.contains hv hsub hout] at h
  cases h

/-- where nodes are only taken out, nothing comes to be below anything -/
theorem Shifts.contains (h : Shifts moved none d d') (hv : d.Valid) (hv' : d'.Valid) {outer inner : NodeId}
    (hin : d'.contains outer inner = true) : d.contains outer inner = true := by
  induction inner using climb hv' with
  | step id ih =>
    rcases (contains_iff hv').1 hin with he | ⟨p, hp, hin⟩
    · exact (contains_iff hv).2 (.inl he)
    · have hstays : id ∉ moved := fun hm => by
        rw [h.goes id hm] at hp
        cases hp
      exact (contains_iff hv).2 (.inr ⟨p, h.stays id hstays ▸ hp, ih p hp hin⟩)

/-- what is around a node after others were taken out was around it before -/
theorem Shifts.tree_above (h : Shifts moved none d d') (hv : d.Valid) (hv' : d'.Valid) (hT : T ∈ d.forest.trees)
    (htarget : target ∈ (tree T.1 T.2).ids) : ∃ T' ∈ d'.forest.trees, target ∈ (tree T'.1 T'.2).ids ∧
      (tree T'.1 T'.2).ids ⊆ (tree T.1 T.2).ids := by
  have hids : ∀ id, id ∈ d'.forest.ids ↔ id ∈ d.forest.ids := fun id => by
    rw [← not_iff_not, ← hv'.node?_eq_none, ← hv.node?_eq_none, h.node]
  obtain ⟨T', hT', hin⟩ := exists_tree_of_mem ((hids target).2 (mem_ids_of_tree hT htarget))
  refine ⟨T', hT', hin, fun x hx => ?_⟩
  -- the new root was in a tree before, and that is the tree of the target
  obtain ⟨T₀, hT₀, hroot⟩ := exists_tree_of_mem ((hids T'.1.id).1 (mem_ids_of_tree hT' (root_mem T')))
  have habove : ∀ y ∈ (tree T'.1 T'.2).ids, y ∈ (tree T₀.1 T₀.2).ids := fun y hy =>
    (contains_root_iff hv hT₀).1 (contains_trans hv ((contains_root_iff hv hT₀).2 hroot)
      (h.contains hv hv' ((contains_root_iff hv' hT').2 hy)))
  rw [tree_unique hv hT hT₀ htarget (habove target hin)]
  exact habove x hx

/-- what is below a node of a tree does not depend on the other trees -/
theorem find?_of_spared (h : d.Spared T) (h' : d'.Spared T) (hx : x ∈ (tree T.1 T.2).ids) : d'.find? x = d.find? x := by
  obtain ⟨n, hn, rfl⟩ := List.mem_map.1 hx
  obtain ⟨cs, hsub⟩ := exists_subtree hn
  have hfind : ∀ {e : Document L}, e.Spared T → e.find? n.id = some (n, cs) := by
    intro e he
    refine find?_of_subtree he.intact.valid ?_
    obtain ⟨g, k, hf⟩ := exists_append_of_tree he.tree
    rw [hf, subtrees_append, subtrees_append]
    exact List.mem_append_right _ (List.mem_append_left _ hsub)
  rw [hfind h', hfind h]

end Document

/-! ## What keeps out of a tree -/

variable {H : Host}

/-- the template's actions leave alone every tree that they are not run in, also when they are undone -/
def Template.Confined (t : Template (Action H)) : Prop := ∀ T, (Zone.outside T : Zone H).LetsAll t

theorem Template.Quiet.confined {t : Template (Action H)} (h : t.Quiet) : t.Confined :=
  fun _ run param hin => (h run param hin).lets

variable [ForeignBlocks H]

/-- the block has nothing among these nodes, and leaves alone every tree that is made up of them -/
def Block.KeepsOut (ids : List NodeId) (b : Block H) : Prop :=
  ∀ T, (tree T.1 T.2).ids ⊆ ids → b.Dwells (Zone.outside T)

/-- a modest block keeps out where it holds nothing and listens to nothing -/
theorem Block.Modest.keepsOut {ids : List NodeId} {b : Block H} (h : b.Modest) (hheld : ∀ x ∈ b.handles, x ∉ ids)
    (hheard : b.Each (fun core => ∀ cleanup ∈ core.cleanups, cleanup.node ∉ ids) fun _ => True) : b.KeepsOut ids :=
  fun _ hT => h.dwells (fun _ => trivial) (fun x hx hin => hheld x hx (hT hin))
    (hheard.imp (fun _ hcore cleanup hc hin => hcore cleanup hc (hT hin)) fun _ => id)

/-! ## Starts that fail -/

omit [ForeignBlocks H] in
/-- before the mount, nothing but what is counted as the rendering has been taken out -/
theorem World.shifts_cleared (t : Template (Action H)) (options : Options H) {w : World H} (hd : w.document.Intact)
    (target : NodeId) : (w.cleared t options target).document.Intact ∧
      Document.Shifts (if options.hydrate then serverRendered t options.props w target options.anchor else []) none
        w.document (w.cleared t options target).document := by
  have hdetached : ∀ (ids : List NodeId) {d : Document (Listener H.Handler)}, d.Intact →
      (ids.foldl Document.detach d).Intact := by
    intro ids
    induction ids with
    | nil => exact fun hd => hd
    | cons id ids ih => exact fun hd => ih (hd.detach id)
  cases hh : options.hydrate with
  | true =>
    rw [World.cleared_hydrating hh]
    exact ⟨hdetached _ hd, (Document.shifts_detachAll hd.valid _).2⟩
  | false =>
    have hsame : (w.cleared t options target).document = w.document := by
      rw [World.cleared, hh]
      exact (ofTemplate_stands t options.props w).2.2.2.document
    rw [hsame]
    exact ⟨hd, Document.Shifts.refl none w.document⟩

omit [ForeignBlocks H] in
theorem Component.furnished_inactive (t : Template (Action H)) (options : Options H) (w : World H) :
    ¬ (furnished t options w).core.phase.Active := by
  have hidle := (ofTemplate_instance t options.props w).idle
  unfold furnished
  generalize (ofTemplate t options.props w).1 = c at hidle
  obtain ⟨core, slots, children⟩ := c
  exact hidle.1.phase

section

variable {t : Template (Action H)} {options : Options H} {w : World H} {target : NodeId}
  {T : Node (Listener H.Handler) × Forest (Node (Listener H.Handler))}

/-- a start that fails leaves the target, and all that is below it, as it was right before the mount -/
theorem Component.start_fails (hguests : ForeignBlocks.Confined H) (hactions : t.Everywhere Template.Confined)
    (hd : w.document.Intact) (hT : T ∈ w.document.forest.trees) (htarget : target ∈ (tree T.1 T.2).ids)
    (hslots : ∀ e ∈ options.slots, e.2.KeepsOut (tree T.1 T.2).ids) (ho : options.target = some target)
    (hfails : ∀ c, (Component.start t options w).2 ≠ .ok c) {x : NodeId}
    (hx : (w.cleared t options target).document.contains target x = true) :
    (Component.start t options w).1.document.find? x = (w.cleared t options target).document.find? x := by
  obtain ⟨hcleared, hshifts⟩ := World.shifts_cleared t options hd target
  obtain ⟨T', hT', hin, hsub⟩ := hshifts.tree_above hd.valid hcleared.valid hT htarget
  have hgiven : ∀ e ∈ options.slots, e.2.Dwells (Zone.outside T') := fun e he => hslots e he T' hsub
  have hover : ∀ e ∈ (fillSlots 0 t.placeholders options.slots).2, e.2.Dwells (Zone.outside T') := fun e he =>
    hgiven e (mem_left_fillSlots he)
  have hmade : (Block.component (furnished t options w)).Dwells (Zone.outside T') :=
    furnished_dwells (Template.Everywhere.imp (fun _ h _ => h T') t hactions hactions) hgiven w
  have hw : (w.cleared t options target).document.Spared T' := ⟨hcleared, hT'⟩
  have hlast : (Component.start t options w).1.document.Spared T' := by
    rw [start_eq ho] at hfails ⊢
    cases hr : ((furnished t options w).mount target options.anchor (w.cleared t options target)).result with
    | ok =>
      rw [hr] at hfails
      exact absurd rfl (hfails _)
    | error fault =>
      have hleaves := leaves_mount (hguests T') hmade (furnished_inactive t options w) hw fun hok =>
        error_ne_ok (hr.symm.trans hok)
      exact (Zone.outside T').dropEntries hover (hleaves.self.drop hleaves.world)
  exact Document.find?_of_spared hw hlast ((Document.contains_root_iff hcleared.valid hT').1
    (Document.contains_trans hcleared.valid ((Document.contains_root_iff hcleared.valid hT').2 hin) hx))

omit [ForeignBlocks H] in
theorem serverRendered_sublist (t : Template (Action H)) (p : Props) (w : World H) (target : NodeId)
    (anchor : Option NodeId) : (serverRendered t p w target anchor).Sublist (w.document.children target) := by
  unfold serverRendered
  dsimp only
  split
  · exact List.Sublist.refl _
  · split
    · exact List.nil_sublist _
    · exact (List.drop_sublist _ _).trans (List.take_sublist _ _)

/-- **A takeover that fails loses what it was to take over.** Where the actions of all templates, blocks of the host and
what is given for slots leave the tree of the target alone, a start that fails, at whatever marker or nested block, leaves
a target that is not hydrated with its children. One that is hydrated has lost what was counted as the rendering: all its
children, or of those before the anchor as many as the rendering has. Only if there were none of these are its children the
ones it had. What it still has is what it was, with all below it. -/
theorem Component.start_displaces (hguests : ForeignBlocks.Confined H) (hactions : t.Everywhere Template.Confined)
    (hd : w.document.Intact) (hT : T ∈ w.document.forest.trees) (htarget : target ∈ (tree T.1 T.2).ids)
    (hslots : ∀ e ∈ options.slots, e.2.KeepsOut (tree T.1 T.2).ids) (ho : options.target = some target)
    (hfails : ∀ c, (Component.start t options w).2 ≠ .ok c) :
    let existing := w.document.children target
    let taken := serverRendered t options.props w target options.anchor
    let left := (Component.start t options w).1.document
    (options.hydrate = false → left.children target = existing) ∧
    (options.hydrate = true →
      left.children target = existing.filter (· ∉ taken) ∧
      (options.anchor = none → left.children target = []) ∧
      (∀ a hosts after, options.anchor = some a → existing = hosts ++ a :: after →
        left.children target = hosts.take (hosts.length - t.span options.props) ++ a :: after) ∧
      (left.children target = existing ↔ taken = [])) ∧
    ∀ id ∈ left.children target, left.treeOf id = w.document.treeOf id := by
  intro existing taken left
  obtain ⟨hcleared, hshifts⟩ := World.shifts_cleared t options hd target
  have hkept : ∀ {x}, (w.cleared t options target).document.contains target x = true →
      left.find? x = (w.cleared t options target).document.find? x :=
    start_fails hguests hactions hd hT htarget hslots ho hfails
  have hchildren : left.children target = (w.cleared t options target).document.children target := by
    rw [Document.children, Document.childForest, hkept (Document.contains_self _ target)]
    rfl
  have hleft := hshifts.leaves target (Option.some_ne_none target).symm
  rw [← hchildren] at hleft
  refine ⟨fun hh => ?_, fun hh => ?_, fun id hid => ?_⟩
  · rw [hleft, hh]
    exact Document.filter_not_mem_nil existing
  · rw [hh, if_pos rfl] at hleft
    refine ⟨hleft, fun ha => ?_, fun a hosts after ha hex => ?_, ?_⟩
    · rw [hleft, ha]
      exact List.filter_eq_nil_iff.2 fun c hc hno => of_decide_eq_true hno hc
    · have hsplit : existing = hosts.take (hosts.length - t.span options.props) ++
          hosts.drop (hosts.length - t.span options.props) ++ a :: after := by
        rw [List.take_append_drop]
        exact hex
      obtain ⟨-, hnow, -⟩ := Document.detached_siblings hd.valid hsplit
      rw [hchildren, World.cleared_hydrating hh, ha, serverRendered_before hd.valid hex]
      exact hnow
    · have hsub : taken ⊆ existing := (serverRendered_sublist t options.props w target options.anchor).subset
      rw [hleft, List.filter_eq_self, List.eq_nil_iff_forall_not_mem]
      constructor
      · intro h c hc
        exact of_decide_eq_true (h c (hsub hc)) hc
      · intro h c _
        exact decide_eq_true (h c)
  · have hchild : id ∈ (w.cleared t options target).document.children target := hchildren ▸ hid
    have hparent := (Document.mem_children_iff hcleared.valid).1 hchild
    have hin := (Document.contains_iff hcleared.valid).2
      (.inr ⟨target, hparent, Document.contains_self (w.cleared t options target).document target⟩)
    have htree : left.treeOf id = (w.cleared t options target).document.treeOf id := by
      rw [Document.treeOf, Document.treeOf, hkept hin]
    rw [htree]
    -- only siblings were taken out
    have hold : id ∈ existing := by
      rw [hleft] at hid
      exact List.mem_of_mem_filter hid
    refine hshifts.treeOf_eq hd.valid hcleared.valid fun c hc q hq => ?_
    have hsibling : c ∈ existing := by
      split at hc
      · exact (serverRendered_sublist t options.props w target options.anchor).subset hc
      · cases hc
    obtain rfl : target = q := Option.some_inj.1 (((Document.mem_children_iff hd.valid).1 hsibling).symm.trans hq)
    exact Document.not_contains_of_parent? hd.valid ((Document.mem_children_iff hd.valid).1 hold)

end

theorem World.lined_intact : World.lined.document.Intact := by
  have hmade := ((Document.intact_empty (L := Listener Script.Reaction)).add (.element "body" [])).add (.element "header" [])
  exact ((hmade.add (.element "footer" [])).insertBefore 0 1 none).insertBefore 0 2 none

/-- the stack with this guest in its slot, hydrating in front of the footer -/
def Options.stackBeforeFooter (guest : Script.Recorder) : Options Script.host :=
  { Options.around (.foreign guest) with target := some 0, anchor := some 2, hydrate := true }

/-- the guest refuses to be put in, and the header is gone although the stack is not there either -/
theorem Component.start_displaces_refusing :
    let options := Options.stackBeforeFooter ⟨"guest", [.mount], none⟩
    let started := Component.start Template.stacked options World.lined
    (∀ c, started.2 ≠ .ok c) ∧ World.lined.document.children 0 = [1] ++ 2 :: [] ∧ started.1.document.children 0 = [2] := by
  intro options started
  have hfails : ∀ c, started.2 ≠ .ok c := by
    have hno : started.2.toBool = false := by decide +kernel
    intro c hc
    rw [hc] at hno
    cases hno
  have hslots : ∀ ids, ∀ e ∈ options.slots, e.2.KeepsOut ids := fun ids e he => by
    obtain rfl := List.mem_singleton.1 he
    exact Block.Modest.keepsOut ⟨fun _ _ => trivial, trivial, trivial⟩ (List.forall_mem_nil _) trivial
  obtain ⟨-, hhydrating, -⟩ := start_displaces (t := Template.stacked) Script.confined
    (Template.Everywhere.imp (fun _ h _ => h.confined) _ Template.stacked_quiet Template.stacked_quiet)
    World.lined_intact (T := (⟨0, .element "body" [], [], 0⟩, _)) List.mem_cons_self List.mem_cons_self (hslots _) rfl hfails
  obtain ⟨-, -, hbefore, -⟩ := hhydrating rfl
  have hspan : (Template.stacked : Template (Action Script.host)).span options.props = 2 := by decide +kernel
  have hnow := hbefore 2 [1] [] rfl rfl
  rw [hspan] at hnow
  exact ⟨hfails, rfl, hnow⟩

end LiveMarkup
