/-
What moving nodes leaves alone.

`Relinks` says of two documents that some nodes have gone to another parent, with all that is below them, and that
nothing else is different. It holds of every move:

- `relinks_insertBefore`: a node, or what a fragment holds, goes to its new parent, or the insertion is refused;
- `relinks_detach`: a node goes to no parent.

`Intact` is what all of them keep: distinct ids, and no fragment among anybody's children. `Movable` is what a row of
nodes needs so that they can be put below a node one after another.
-/
import LiveMarkup.Proofs.Document.Links

namespace LiveMarkup

open Forest

variable {L : Type}

namespace Document

variable {d d' : Document L} {p c id : NodeId}

/-- a document with distinct ids in which fragments are nobody's children -/
structure Intact (d : Document L) : Prop where
  valid : d.Valid
  top : ∀ p, ∀ c ∈ d.children p, d.isFragment c = false

theorem intact_empty : (∅ : Document L).Intact :=
  ⟨⟨Same.refl _, List.nodup_nil, fun _ h => absurd h List.not_mem_nil⟩, fun p c h => by cases h⟩

theorem isFragment_congr (h : d'.node? id = d.node? id) : d'.isFragment id = d.isFragment id := by
  rw [isFragment_eq_node?, isFragment_eq_node?, h]

/-! ## New nodes -/

theorem node?_add (hv : d.Valid) (kind : Kind) (id : NodeId) :
    (d.add kind).1.node? id = if id = d.fresh then some ⟨d.fresh, kind, [], 0⟩ else d.node? id := by
  rw [node?_eq_labels, node?_eq_labels, Document.add, labels_append, labels_tree, List.find?_append]
  split
  · next h =>
    subst h
    have hnone : d.forest.labels.find? (isNode d.fresh) = none := by
      refine List.find?_eq_none.2 fun n hn hpick => ?_
      have := hv.below (mem_ids_of_mem hn)
      rw [isNode_iff.1 hpick] at this
      exact Nat.lt_irrefl _ this
    rw [hnone]
    simp [isNode]
  · next h =>
    have hne : ¬d.fresh = id := fun e => h e.symm
    simp [isNode, hne, labels]

theorem valid_add (hv : d.Valid) (kind : Kind) : (d.add kind).1.Valid := (Holds.add hv kind).valid

theorem children_add (hv : d.Valid) (kind : Kind) (id : NodeId) : (d.add kind).1.children id = d.children id := by
  have h := Holds.add hv kind
  by_cases hid : id ∈ d.forest.ids
  · obtain ⟨n, cs, hs, rfl⟩ := exists_subtree_bare hid
    rw [Holds.children hv hs, h.children (by rw [subtrees_append]; exact List.mem_append_left _ hs)]
  · rw [Holds.children_eq_nil hv ((ids_bare d.forest).symm ▸ hid)]
    by_cases hf : id = d.fresh
    · subst hf
      have hnew : ((⟨d.fresh, kind, [], 0⟩ : Bare), nil) ∈ (d.forest.bare ++ tree (⟨d.fresh, kind, [], 0⟩ : Bare) nil).subtrees := by
        rw [subtrees_append]
        exact List.mem_append_right _ List.mem_cons_self
      exact h.children hnew
    · refine h.children_eq_nil fun hin => ?_
      rw [ids_append, ids_bare, List.mem_append, ids_tree] at hin
      exact hin.elim hid fun hin => hf (List.mem_singleton.1 hin)

theorem parent?_add (hv : d.Valid) (kind : Kind) (id : NodeId) : (d.add kind).1.parent? id = d.parent? id :=
  parent?_ext hv (valid_add hv kind) fun p => by rw [children_add hv]

theorem Intact.add (hd : d.Intact) (kind : Kind) : (d.add kind).1.Intact := by
  refine ⟨valid_add hd.valid kind, fun p c hc => ?_⟩
  rw [children_add hd.valid] at hc
  have hin := hd.valid.below ((ids_bare d.forest) ▸ (Holds.mem_children hd.valid hc).2)
  rw [isFragment_congr (d := d)]
  · exact hd.top p c hc
  · rw [node?_add hd.valid, if_neg (Nat.ne_of_lt hin)]

/-! ## Changed nodes -/

section

variable {g : Node L → Node L} {t : Bare → Bare}

theorem touch_at (ht : Touch t) (id : NodeId) : Touch fun n => if isNode id n then t n else n := by
  refine ⟨fun n => ?_, fun n => ?_, fun n => ?_⟩
  · split
    · exact ht.id n
    · rfl
  · split
    · exact ht.tag n
    · rfl
  · split
    · exact ht.fragment n
    · rfl

variable (hg : ∀ n, (g n).bare = t n.bare) (ht : Touch t)

include hg ht

theorem update_holds (hv : d.Valid) (id : NodeId) :
    (d.update id g).Holds (d.forest.bare.map fun n => if isNode id n then t n else n) := by
  rw [← update_eq_map]
  exact Holds.update hv id t hg ht.id

theorem children_update (hv : d.Valid) (id p : NodeId) : (d.update id g).children p = d.children p :=
  Holds.children_map hv (touch_at ht id) (update_holds hg ht hv id) p

theorem parent?_update (hv : d.Valid) (id c : NodeId) : (d.update id g).parent? c = d.parent? c :=
  parent?_ext hv (update_holds hg ht hv id).valid fun p => by rw [children_update hg ht hv]

theorem node?_update (id x : NodeId) :
    (d.update id g).node? x = (d.node? x).map fun n => if x = id then g n else n := by
  have hid : ∀ n, (g n).id = n.id := fun n => (congrArg Node.id (hg n)).trans (ht.id n.bare)
  rw [node?_eq_labels, node?_eq_labels, Document.update, labels_update, List.find?_map]
  have hpick : (isNode x ∘ fun n => if isNode id n then g n else n) = (isNode x : Node L → Bool) := by
    funext n
    rw [Function.comp_apply]
    split
    · rw [isNode, hid]
      rfl
    · rfl
  rw [hpick]
  cases h : d.forest.labels.find? (isNode x) with
  | none => rfl
  | some n =>
    have hx := isNode_iff.1 (List.find?_some h)
    refine congrArg some (if_congr ?_ rfl rfl)
    rw [isNode_iff, hx]

theorem Intact.update (hd : d.Intact) (id : NodeId) : (d.update id g).Intact := by
  refine ⟨(update_holds hg ht hd.valid id).valid, fun p c hc => ?_⟩
  rw [children_update hg ht hd.valid] at hc
  have hsame : ∀ n, (g n).kind.isFragment = n.kind.isFragment := fun n =>
    (congrArg (fun b : Bare => b.kind.isFragment) (hg n)).trans (ht.fragment n.bare)
  have htop := hd.top p c hc
  rw [isFragment_eq_node?] at htop ⊢
  rw [node?_update hg ht]
  cases hn : d.node? c with
  | none => rfl
  | some n =>
    rw [hn] at htop
    rw [Option.map_some, Option.any_some]
    split
    · rw [hsame]
      exact htop
    · exact htop

end

/-! ## Moving nodes -/

/-- `moved` have gone to `target`; all other links are what they were -/
structure Shifts (moved : List NodeId) (target : Option NodeId) (d d' : Document L) : Prop where
  node : ∀ id, d'.node? id = d.node? id
  goes : ∀ c ∈ moved, d'.parent? c = target
  stays : ∀ c, c ∉ moved → d'.parent? c = d.parent? c
  leaves : ∀ p, target ≠ some p → d'.children p = (d.children p).filter (· ∉ moved)
  joins : ∀ p, target = some p → (d'.children p).filter (· ∉ moved) = (d.children p).filter (· ∉ moved)

/-- `moved` have gone to `target` with all that is below them; nothing else is different -/
structure Relinks (moved : List NodeId) (target : Option NodeId) (d d' : Document L) : Prop
    extends Shifts moved target d d' where
  tree : ∀ c ∈ moved, d'.treeOf c = d.treeOf c

theorem filter_not_mem_nil (row : List NodeId) : row.filter (· ∉ ([] : List NodeId)) = row :=
  List.filter_eq_self.2 fun _ _ => decide_eq_true List.not_mem_nil

theorem Shifts.refl (target : Option NodeId) (d : Document L) : Shifts [] target d d :=
  ⟨fun _ => rfl, fun _ hc => absurd hc List.not_mem_nil, fun _ _ => rfl, fun _ _ => (filter_not_mem_nil _).symm,
    fun _ _ => rfl⟩

/-- siblings that do not go below themselves keep their trees -/
theorem Shifts.relinks {moved : List NodeId} {target : Option NodeId} (h : Shifts moved target d d') (hv : d.Valid)
    (hv' : d'.Valid) (siblings : ∀ c ∈ moved, ∀ c' ∈ moved, d.parent? c = d.parent? c')
    (apart : ∀ c ∈ moved, ∀ p, target = some p → d.contains c p = false) : Relinks moved target d d' := by
  refine ⟨h, fun c hc => treeOf_congr hv hv' h.node fun x hx => ?_⟩
  have hout : target ≠ some x := fun e => by
    rw [apart c hc x e] at hx
    cases hx
  rw [h.leaves x hout]
  refine List.filter_eq_self.2 fun y hy => decide_eq_true fun hmoved => ?_
  -- a moved child of `x` would be a sibling of the node that `x` is below
  have hparent : d.parent? c = some x := (siblings c hc y hmoved).trans ((mem_children_iff hv).1 hy)
  rw [not_contains_of_parent? hv hparent] at hx
  cases hx

theorem filter_not_mem_cons (c : NodeId) (rest row : List NodeId) :
    row.filter (· ∉ c :: rest) = (row.filter (· ≠ c)).filter (· ∉ rest) := by
  rw [List.filter_filter]
  refine List.filter_congr fun x _ => ?_
  rw [← Bool.decide_and]
  exact decide_eq_decide.2 (by rw [List.mem_cons, not_or, and_comm])

theorem filter_ne_of_not_mem {row : List NodeId} (h : c ∉ row) : row.filter (· ≠ c) = row :=
  List.filter_eq_self.2 fun _ hx => decide_eq_true fun e => h (e ▸ hx)

structure Movable (d : Document L) (p : NodeId) (row : List NodeId) : Prop where
  intact : d.Intact
  nodup : row.Nodup
  mem : ∀ c ∈ row, c ∈ d.forest.ids ∧ p ∈ d.forest.ids
  plain : ∀ c ∈ row, d.isFragment c = false
  apart : ∀ c ∈ row, d.contains c p = false
  siblings : ∀ c ∈ row, ∀ c' ∈ row, d.parent? c = d.parent? c'

theorem Intact.place (hd : d.Intact) (hp : p ∈ d.forest.ids) (hc : c ∈ d.forest.ids) (hnot : d.contains c p = false)
    (hplain : d.isFragment c = false) (anchor : Option NodeId) : (d.place p c anchor).Intact := by
  refine ⟨valid_place hd.valid hp hc hnot anchor, fun q x hx => ?_⟩
  rw [isFragment_congr (node?_of_perm hd.valid (labels_place hd.valid hp hc hnot anchor) x)]
  rw [children_place hd.valid hp hc hnot] at hx
  split at hx
  · rcases mem_seat.1 hx with rfl | hx
    · exact hplain
    · exact hd.top p x (List.mem_of_mem_filter hx)
  · exact hd.top q x (List.mem_of_mem_filter hx)

namespace Movable

variable {rest row : List NodeId}

theorem place_intact (h : Movable d p (c :: rest)) (anchor : Option NodeId) : (d.place p c anchor).Intact := by
  obtain ⟨hc, hp⟩ := h.mem c List.mem_cons_self
  exact h.intact.place hp hc (h.apart c List.mem_cons_self) (h.plain c List.mem_cons_self) anchor

/-- the others can still go when the first has gone -/
theorem place (h : Movable d p (c :: rest)) (anchor : Option NodeId) : Movable (d.place p c anchor) p rest := by
  have hv := h.intact.valid
  obtain ⟨hc, hp⟩ := h.mem c List.mem_cons_self
  have hnot := h.apart c List.mem_cons_self
  obtain ⟨hout, hnodup⟩ := List.nodup_cons.1 h.nodup
  have hperm := labels_place hv hp hc hnot anchor
  have hne : ∀ {x}, x ∈ rest → x ≠ c := fun hx e => hout (e ▸ hx)
  refine ⟨h.place_intact anchor, hnodup, fun x hx => ?_, fun x hx => ?_, fun x hx => ?_, fun x hx y hy => ?_⟩
  · obtain ⟨hx, hp⟩ := h.mem x (List.mem_cons_of_mem _ hx)
    exact ⟨(ids_perm hperm).mem_iff.2 hx, (ids_perm hperm).mem_iff.2 hp⟩
  · rw [isFragment_congr (node?_of_perm hv hperm x)]
    exact h.plain x (List.mem_cons_of_mem _ hx)
  · rw [contains_place hv hp hc hnot anchor hnot]
    exact h.apart x (List.mem_cons_of_mem _ hx)
  · rw [parent?_place hv hp hc hnot anchor (hne hx), parent?_place hv hp hc hnot anchor (hne hy)]
    exact h.siblings x (List.mem_cons_of_mem _ hx) y (List.mem_cons_of_mem _ hy)

theorem shifts (h : Movable d p row) (anchor : Option NodeId) :
    (row.foldl (fun d c => d.place p c anchor) d).Intact ∧
      Shifts row (some p) d (row.foldl (fun d c => d.place p c anchor) d) := by
  induction row generalizing d with
  | nil => exact ⟨h.intact, .refl _ d⟩
  | cons c rest ih =>
    have hv := h.intact.valid
    obtain ⟨hc, hp⟩ := h.mem c List.mem_cons_self
    have hnot := h.apart c List.mem_cons_self
    have hout := (List.nodup_cons.1 h.nodup).1
    obtain ⟨hintact, hs⟩ := ih (h.place anchor)
    refine ⟨hintact, fun x => ?_, fun x hx => ?_, fun x hx => ?_, fun q hq => ?_, fun q hq => ?_⟩
    · exact (hs.node x).trans (node?_of_perm hv (labels_place hv hp hc hnot anchor) x)
    · rcases List.mem_cons.1 hx with rfl | hx
      · exact (hs.stays x hout).trans (parent?_place_self hv hp hc hnot anchor)
      · exact hs.goes x hx
    · rw [List.mem_cons, not_or] at hx
      exact (hs.stays x hx.2).trans (parent?_place hv hp hc hnot anchor hx.1)
    · rw [List.foldl_cons, hs.leaves q hq, children_place hv hp hc hnot,
        if_neg (fun e => hq (congrArg some e.symm)), filter_not_mem_cons]
    · obtain rfl := Option.some.inj hq
      rw [List.foldl_cons, filter_not_mem_cons, List.filter_comm, hs.joins p rfl, children_place hv hp hc hnot, if_pos rfl,
        ← List.filter_comm, filter_seat (decide_eq_false (not_not_intro rfl)), filter_not_mem_cons, List.filter_filter,
        List.filter_filter, List.filter_filter]
      refine List.filter_congr fun x _ => ?_
      rw [Bool.and_assoc, Bool.and_self]

/-- nodes that are put below another take their trees along -/
theorem relinks (h : Movable d p row) (anchor : Option NodeId) :
    Relinks row (some p) d (row.foldl (fun d c => d.place p c anchor) d) := by
  obtain ⟨hintact, hs⟩ := h.shifts anchor
  refine hs.relinks h.intact.valid hintact.valid h.siblings fun c hc q hq => ?_
  obtain rfl := Option.some.inj hq
  exact h.apart c hc

end Movable

/-- what an insertion moves: the node, the children of a fragment, or nothing where it is refused -/
def pieces (d : Document L) (p c : NodeId) : List NodeId :=
  if d.contains c p || (d.node? p).isNone || (d.node? c).isNone then []
  else if d.isFragment c then d.children c
  else [c]

theorem place_of_unknown (d : Document L) (anchor : Option NodeId) (h : d.node? p = none ∨ d.node? c = none) :
    d.place p c anchor = d := by
  rw [Document.place, find?_eq_node?, find?_eq_node?]
  rcases h with h | h
  · rw [h]
    rfl
  · rw [h]
    cases d.node? p <;> rfl

/-- an insertion puts its pieces in one after another -/
theorem insertBefore_eq (d : Document L) (p c : NodeId) (anchor : Option NodeId) :
    d.insertBefore p c anchor = (d.pieces p c).foldl (fun d c => d.place p c anchor) d := by
  rw [Document.insertBefore, pieces]
  by_cases hin : d.contains c p = true
  · rw [hin]
    rfl
  · rw [Bool.eq_false_iff.2 hin, Bool.false_or]
    cases hp : d.node? p with
    | none =>
      -- an unknown parent takes nothing
      have hall : ∀ row : List NodeId, row.foldl (fun d c => d.place p c anchor) d = d := by
        intro row
        induction row with
        | nil => rfl
        | cons c row ih => rw [List.foldl_cons, place_of_unknown d anchor (.inl hp), ih]
      rw [hall, place_of_unknown d anchor (.inl hp), ite_self]
      rfl
    | some n =>
      cases hc : d.node? c with
      | none =>
        have hf : d.isFragment c = false := by rw [isFragment_eq_node?, hc]; rfl
        rw [hf, place_of_unknown d anchor (.inr hc)]
        rfl
      | some m =>
        cases d.isFragment c <;> rfl

theorem mem_ids_of_node? (hv : d.Valid) (h : d.node? id ≠ none) : id ∈ d.forest.ids := by
  by_contra hno
  exact h (hv.node?_eq_none.2 hno)

/-- the pieces of an insertion can go where they are to go -/
theorem Intact.movable (hd : d.Intact) (p c : NodeId) : Movable d p (d.pieces p c) := by
  have hv := hd.valid
  rw [pieces]
  split
  · exact ⟨hd, List.nodup_nil, by simp, by simp, by simp, by simp⟩
  · next h =>
    simp only [Bool.or_eq_true, not_or, Option.isNone_iff_eq_none, Bool.not_eq_true] at h
    obtain ⟨⟨hnot, hp⟩, hc⟩ := h
    have hp := mem_ids_of_node? hv hp
    have hc := mem_ids_of_node? hv hc
    split
    · have hparent : ∀ x ∈ d.children c, d.parent? x = some c := fun x hx => (mem_children_iff hv).1 hx
      refine ⟨hd, Holds.nodup_children hv c, fun x hx => ?_, hd.top c, fun x hx => ?_, fun x hx y hy => ?_⟩
      · exact ⟨(mem_ids_of_parent? hv (hparent x hx)).2, hp⟩
      · refine Bool.eq_false_iff.2 fun hin => ?_
        rw [contains_of_parent? hv (hparent x hx) hin] at hnot
        cases hnot
      · rw [hparent x hx, hparent y hy]
    · next hf =>
      refine ⟨hd, List.nodup_singleton c, ?_, ?_, ?_, ?_⟩
      · exact fun x hx => List.mem_singleton.1 hx ▸ ⟨hc, hp⟩
      · exact fun x hx => List.mem_singleton.1 hx ▸ Bool.eq_false_iff.2 hf
      · exact fun x hx => List.mem_singleton.1 hx ▸ hnot
      · exact fun x hx y hy => by rw [List.mem_singleton.1 hx, List.mem_singleton.1 hy]

theorem Intact.insertBefore (hd : d.Intact) (p c : NodeId) (anchor : Option NodeId) :
    (d.insertBefore p c anchor).Intact := by
  rw [insertBefore_eq]
  exact ((hd.movable p c).shifts anchor).1

/-- an insertion moves its pieces below the parent -/
theorem relinks_insertBefore (hd : d.Intact) (p c : NodeId) (anchor : Option NodeId) :
    Relinks (d.pieces p c) (some p) d (d.insertBefore p c anchor) := by
  rw [insertBefore_eq]
  exact (hd.movable p c).relinks anchor

theorem Intact.detach (hd : d.Intact) (id : NodeId) : (d.detach id).Intact := by
  refine ⟨valid_detach hd.valid id, fun p c hc => ?_⟩
  rw [isFragment_congr (node?_detach hd.valid id c)]
  rw [children_detach hd.valid] at hc
  exact hd.top p c (List.mem_of_mem_filter hc)

/-- detaching moves the node to nobody -/
theorem relinks_detach (hv : d.Valid) (id : NodeId) : Relinks [id] none d (d.detach id) := by
  have hs : Shifts [id] none d (d.detach id) := by
    refine ⟨node?_detach hv id, fun c hc => ?_, fun c hc => ?_, fun p _ => children_detach hv id p, fun p hp => ?_⟩
    · rw [List.mem_singleton.1 hc]
      exact parent?_detach_self hv id
    · exact parent?_detach hv (by simpa using hc)
    · cases hp
  refine hs.relinks hv (valid_detach hv id) (fun x hx y hy => ?_) fun c _ p hp => ?_
  · rw [List.mem_singleton.1 hx, List.mem_singleton.1 hy]
  · cases hp

theorem Intact.replaceWith (hd : d.Intact) (old new : NodeId) : (d.replaceWith old new).Intact := by
  rw [Document.replaceWith]
  split
  · exact (hd.insertBefore _ new _).detach old
  · exact hd

end Document

end LiveMarkup
