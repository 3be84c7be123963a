/-
Where a move puts nodes.

`Relinks` says which links a move leaves alone; here is where the moved nodes stand. The place is found anew for every
node of a row, while the row it is put into grows, so the row is cut once (`Cut`) and every node goes into that cut.

- `insertBefore_arrives`: a node, or what a fragment holds, stands before the anchor in its own order, or at the end,
  and nothing else is different; an insertion below itself changes nothing;
- `replaceWith_replaces`: the old node leaves; the new one has its place, unless it could not be put there.

A replacement by a node that cannot be put there, or by the old node itself, still takes the old node out:
`replaceWith` is an insertion and a removal, and the removal does not wait for the insertion.
-/
import LiveMarkup.Proofs.Document.Operations

namespace LiveMarkup

open Forest

variable {L : Type}

/-! ## Rows -/

/-- the place of an anchor in a row: the anchor is not before the cut, and it comes first after it or is not there -/
structure Cut (anchor : Option NodeId) (before after : List NodeId) : Prop where
  before : ∀ a ∈ anchor, a ∉ before
  after : ∀ a ∈ after.head?, anchor = some a

namespace Cut

variable {anchor : Option NodeId} {before after : List NodeId} {c : NodeId}

/-- a new node goes into the cut -/
theorem seat (h : Cut anchor before after) : seat anchor c (before ++ after) = before ++ c :: after := by
  induction before with
  | nil =>
    cases after with
    | nil => exact seat_nil anchor c
    | cons a after =>
      rw [List.nil_append, seat_cons, if_pos (h.after a rfl)]
      rfl
  | cons b before ih =>
    have hb : anchor ≠ some b := fun e => h.before b e List.mem_cons_self
    have hrest : Cut anchor before after := ⟨fun a ha hin => h.before a ha (List.mem_cons_of_mem b hin), h.after⟩
    rw [List.cons_append, seat_cons, if_neg hb, ih hrest]
    rfl

/-- the next node comes after it -/
theorem push (h : Cut anchor before after) (hc : anchor ≠ some c) : Cut anchor (before ++ [c]) after := by
  refine ⟨fun a ha hin => ?_, h.after⟩
  rcases List.mem_append.1 hin with hin | hin
  · exact h.before a ha hin
  · exact hc (List.mem_singleton.1 hin ▸ ha)

end Cut

/-- a node that stays is put in before or after others are taken out, if its anchor stays too -/
theorem seat_filter {keep : NodeId → Bool} {anchor : Option NodeId} {c : NodeId} (hc : keep c = true)
    (ha : ∀ a ∈ anchor, keep a = true) (row : List NodeId) :
    (seat anchor c row).filter keep = seat anchor c (row.filter keep) := by
  induction row with
  | nil => simp [seat_nil, hc]
  | cons r row ih =>
    rw [seat_cons]
    by_cases hr : anchor = some r
    · rw [if_pos hr, List.filter_cons_of_pos hc, List.filter_cons_of_pos (ha r hr), seat_cons, if_pos hr]
    · rw [if_neg hr]
      by_cases hk : keep r = true
      · rw [List.filter_cons_of_pos hk, List.filter_cons_of_pos hk, seat_cons, if_neg hr, ih]
      · rw [List.filter_cons_of_neg hk, List.filter_cons_of_neg hk, ih]

/-- nodes that leave a row and come back one after another stand together where the rest of the row is cut -/
theorem seatAll_of_cut {anchor : Option NodeId} {before after : List NodeId} (moved row : List NodeId)
    (hcut : Cut anchor before after) (hrow : row.filter (· ∉ moved) = before ++ after) (hn : moved.Nodup)
    (ha : ∀ a ∈ anchor, a ∉ moved) :
    moved.foldl (fun cs c => seat anchor c (cs.filter (· ≠ c))) row = before ++ moved ++ after := by
  -- what has come back counts as standing before the cut
  induction moved generalizing row before with
  | nil =>
    rw [Document.filter_not_mem_nil] at hrow
    rw [List.foldl_nil, hrow, List.append_nil]
  | cons c moved ih =>
    obtain ⟨hout, hn⟩ := List.nodup_cons.1 hn
    have hc : anchor ≠ some c := fun e => ha c e List.mem_cons_self
    have hnext : (seat anchor c (row.filter (· ≠ c))).filter (· ∉ moved) = (before ++ [c]) ++ after := by
      have hkeep : ∀ a ∈ anchor, decide (a ∉ moved) = true :=
        fun a h => decide_eq_true fun hin => ha a h (List.mem_cons_of_mem c hin)
      rw [seat_filter (decide_eq_true hout) hkeep, ← Document.filter_not_mem_cons, hrow, hcut.seat]
      simp
    rw [List.foldl_cons, ih _ (hcut.push hc) hnext hn fun a h hin => ha a h (List.mem_cons_of_mem c hin)]
    simp

/-- what operations make of nothing is intact -/
theorem Operation.intact_run (ops : List (Operation L)) : (run ops (∅ : Document L)).Intact := by
  obtain ⟨-, -, -, hintact⟩ := steps ops Document.intact_empty .empty
  exact hintact

namespace Document

variable {d d' : Document L} {p c : NodeId}

/-- a row of three below a body, and two nodes in a fragment -/
def shelf : Document Unit :=
  Operation.run [.create (.element "body" []), .create (.element "a" []), .create (.element "b" []), .create (.element "c" []),
    .insert 0 1 none, .insert 0 2 none, .insert 0 3 none,
    .instantiate [.element "x" [("k", "v")] [.text "in x"], .text "y"]] ∅

theorem intact_shelf : shelf.Intact := Operation.intact_run _

/-! ## Insertions -/

/-- a node contains those that it is an ancestor of, itself among them -/
theorem contains_iff_ancestor (hv : d.Valid) {outer inner : NodeId} :
    d.contains outer inner = true ↔ ∃ n, d.ancestor? n inner = some outer := by
  induction inner using climb hv with
  | step id ih =>
    rw [contains_iff hv]
    constructor
    · rintro (rfl | ⟨q, hq, hin⟩)
      · exact ⟨0, rfl⟩
      · obtain ⟨n, hn⟩ := (ih q hq).1 hin
        refine ⟨n + 1, ?_⟩
        rw [ancestor?, hq, Option.bind_some, hn]
    · rintro ⟨_ | n, hn⟩
      · exact .inl (Option.some.inj hn)
      · obtain ⟨q, hq, hn⟩ := Option.bind_eq_some_iff.1 hn
        exact .inr ⟨q, hq, (ih q hq).2 ⟨n, hn⟩⟩

theorem not_contains_iff_ancestor (hv : d.Valid) {outer inner : NodeId} :
    d.contains outer inner = false ↔ ∀ n, d.ancestor? n inner ≠ some outer := by
  rw [← Bool.not_eq_true, contains_iff_ancestor hv, not_exists]

/-- what is moved with a node: a fragment's children, or the node -/
def load (d : Document L) (c : NodeId) : List NodeId := if d.isFragment c then d.children c else [c]

/-- what can be put in is put in whole -/
theorem pieces_eq_load (hv : d.Valid) (hp : p ∈ d.forest.ids) (hc : c ∈ d.forest.ids) (h : d.contains c p = false) :
    d.pieces p c = d.load c := by
  obtain ⟨n, hn⟩ := hv.exists_node hp
  obtain ⟨m, hm⟩ := hv.exists_node hc
  rw [pieces, load, h, hn, hm]
  rfl

theorem insertBefore_of_contains (h : d.contains c p = true) (anchor : Option NodeId) :
    d.insertBefore p c anchor = d := by
  rw [insertBefore, if_pos h]

/-- a row of nodes is put among the children one after another -/
theorem Movable.children_place {row : List NodeId} (h : Movable d p row) (anchor : Option NodeId) :
    (row.foldl (fun d c => d.place p c anchor) d).children p =
      row.foldl (fun cs c => seat anchor c (cs.filter (· ≠ c))) (d.children p) := by
  induction row generalizing d with
  | nil => rfl
  | cons c row ih =>
    obtain ⟨hc, hp⟩ := h.mem c List.mem_cons_self
    rw [List.foldl_cons, ih (h.place anchor),
      Document.children_place h.intact.valid hp hc (h.apart c List.mem_cons_self), if_pos rfl, List.foldl_cons]

/-- `moved` have gone below `p`, before `anchor` or to the end, with all that is below them; nothing else is different -/
structure Arrives (moved : List NodeId) (p : NodeId) (anchor : Option NodeId) (d d' : Document L) : Prop
    extends Relinks moved (some p) d d' where
  before : ∀ a before after, anchor = some a → (d.children p).filter (· ∉ moved) = before ++ a :: after →
    d'.children p = before ++ moved ++ a :: after
  last : (∀ a ∈ anchor, a ∉ (d.children p).filter (· ∉ moved) ∧ a ∉ moved) →
    d'.children p = (d.children p).filter (· ∉ moved) ++ moved

/-- what is not the parent of a node that moves, before or after, keeps its children -/
theorem Shifts.children_eq {moved : List NodeId} {target : Option NodeId} (h : Shifts moved target d d')
    (hv : d.Valid) {q : NodeId} (hq : target ≠ some q) (hout : ∀ x ∈ moved, d.parent? x ≠ some q) :
    d'.children q = d.children q := by
  rw [h.leaves q hq, List.filter_eq_self]
  intro x hx
  exact decide_eq_true fun hin => hout x hin ((mem_children_iff hv).1 hx)

/-- what can be put in arrives -/
theorem Intact.arrives (hd : d.Intact) (hp : p ∈ d.forest.ids) (hc : c ∈ d.forest.ids)
    (h : d.contains c p = false) (anchor : Option NodeId) :
    Arrives (d.load c) p anchor d (d.insertBefore p c anchor) := by
  have hrelinks := relinks_insertBefore hd p c anchor
  have hmovable := hd.movable p c
  have hrow : (d.insertBefore p c anchor).children p =
      (d.pieces p c).foldl (fun cs c => seat anchor c (cs.filter (· ≠ c))) (d.children p) := by
    rw [insertBefore_eq, hmovable.children_place]
  rw [pieces_eq_load hd.valid hp hc h] at hrelinks hmovable hrow
  refine ⟨hrelinks, fun a before after ha hsplit => ?_, fun hnone => ?_⟩
  · subst ha
    have hmem : a ∈ (d.children p).filter (· ∉ d.load c) := by
      rw [hsplit]
      exact List.mem_append_right _ List.mem_cons_self
    -- the children of a node are distinct, so the anchor stands only once
    have hnodup := (Holds.nodup_children hd.valid p).filter (fun x => decide (x ∉ d.load c))
    rw [hsplit] at hnodup
    have hcut : Cut (some a) before (a :: after) := by
      refine ⟨fun x hx hin => ?_, fun x hx => hx⟩
      obtain rfl := Option.some.inj hx
      exact List.disjoint_of_nodup_append hnodup hin List.mem_cons_self
    rw [hrow, seatAll_of_cut _ _ hcut hsplit hmovable.nodup]
    rintro x ⟨⟩
    simpa using (List.mem_filter.1 hmem).2
  · have hcut : Cut anchor ((d.children p).filter (· ∉ d.load c)) [] := ⟨fun a ha => (hnone a ha).1, by simp⟩
    rw [hrow, seatAll_of_cut _ _ hcut (List.append_nil _).symm hmovable.nodup fun a ha => (hnone a ha).2, List.append_nil]

/-- an insertion below the node itself is refused; every other one puts the node, or what a fragment holds, where it is
to stand, empties the fragment, and changes nobody else's children -/
theorem insertBefore_arrives (hd : d.Intact) (hp : p ∈ d.forest.ids) (hc : c ∈ d.forest.ids)
    (anchor : Option NodeId) :
    ((∃ n, d.ancestor? n p = some c) → d.insertBefore p c anchor = d) ∧
      ((∀ n, d.ancestor? n p ≠ some c) →
        Arrives (d.load c) p anchor d (d.insertBefore p c anchor) ∧
        (d.isFragment c = true → (d.insertBefore p c anchor).children c = []) ∧
        ∀ q, q ≠ p → (∀ x ∈ d.load c, d.parent? x ≠ some q) →
          (d.insertBefore p c anchor).children q = d.children q) := by
  have hv := hd.valid
  refine ⟨fun h => insertBefore_of_contains ((contains_iff_ancestor hv).2 h) anchor, fun h => ?_⟩
  have hnot := (not_contains_iff_ancestor hv).2 h
  have harrives := hd.arrives hp hc hnot anchor
  refine ⟨harrives, fun hf => ?_, fun q hq hout => ?_⟩
  · have hne : some p ≠ some c := fun e => ne_of_not_contains hnot (Option.some.inj e)
    rw [harrives.leaves c hne, load, if_pos hf]
    simp
  · exact harrives.toShifts.children_eq hv (fun e => hq (Option.some.inj e).symm) hout

/-- what a fragment holds goes into the row before an anchor -/
theorem insertBefore_arrives_shelf :
    Arrives [5, 7] 0 (some 2) shelf (shelf.insertBefore 0 4 (some 2)) ∧
      (shelf.insertBefore 0 4 (some 2)).children 0 = [1, 5, 7, 2, 3] ∧
      (shelf.insertBefore 0 4 (some 2)).children 4 = [] := by
  have hfree : ∀ n, shelf.ancestor? n 0 ≠ some 4 :=
    (not_contains_iff_ancestor intact_shelf.valid).1 (by decide +kernel)
  obtain ⟨-, h⟩ := insertBefore_arrives intact_shelf (p := 0) (c := 4) (by decide +kernel) (by decide +kernel) (some 2)
  obtain ⟨harrives, hempty, -⟩ := h hfree
  have hload : shelf.load 4 = [5, 7] := by decide +kernel
  rw [hload] at harrives
  exact ⟨harrives, harrives.before 2 [1] [3] rfl (by decide +kernel), hempty (by decide +kernel)⟩

/-- a node goes to the other side of its sibling, and to the end -/
example : (shelf.insertBefore 0 3 (some 1)).children 0 = [3, 1, 2] ∧
    (shelf.insertBefore 0 1 (some 5)).children 0 = [2, 3, 1] := by decide +kernel

/-! ## Replacements -/

/-- of two moves of the same nodes the second decides -/
theorem Relinks.trans {moved : List NodeId} {t t' : Option NodeId} {d'' : Document L} (h : Relinks moved t d d')
    (h' : Relinks moved t' d' d'') : Relinks moved t' d d'' := by
  have hrest : ∀ q, (d'.children q).filter (· ∉ moved) = (d.children q).filter (· ∉ moved) := by
    intro q
    by_cases hq : t = some q
    · exact h.joins q hq
    · rw [h.leaves q hq, List.filter_filter]
      simp
  refine ⟨⟨fun id => (h'.node id).trans (h.node id), h'.goes, fun x hx => (h'.stays x hx).trans (h.stays x hx),
    fun q hq => ?_, fun q hq => ?_⟩, fun x hx => (h'.tree x hx).trans (h.tree x hx)⟩
  · exact (h'.leaves q hq).trans (hrest q)
  · exact (h'.joins q hq).trans (hrest q)

/-- `moved` stand where `old` was below `p`, and `old` is nobody's child; all other links are what they were -/
structure Replaces (old : NodeId) (moved : List NodeId) (p : NodeId) (d d' : Document L) : Prop where
  node : ∀ x, d'.node? x = d.node? x
  gone : d'.parent? old = none
  goes : ∀ x ∈ moved, d'.parent? x = some p
  stays : ∀ x, x ≠ old → x ∉ moved → d'.parent? x = d.parent? x
  place : ∃ before after, (d.children p).filter (· ∉ moved) = before ++ old :: after ∧
    d'.children p = before ++ moved ++ after
  leaves : ∀ q, q ≠ p → d'.children q = (d.children q).filter (· ∉ moved)

variable {old new : NodeId}

theorem replaceWith_eq (hold : d.parent? old = some p) (new : NodeId) :
    d.replaceWith old new = (d.insertBefore p new (some old)).detach old := by
  rw [Document.replaceWith, hold]

/-- a node with a parent is not what a node moves that could be put beside it, unless it is that node -/
theorem Intact.not_mem_load (hd : d.Intact) (hold : d.parent? old = some p) (hne : new ≠ old)
    (hnot : d.contains new p = false) : old ∉ d.load new := by
  rw [load]
  split
  · intro hin
    -- its parent would be the fragment
    have hparent := (mem_children_iff hd.valid).1 hin
    rw [hold] at hparent
    exact ne_of_not_contains hnot (Option.some.inj hparent)
  · simpa using hne.symm

/-- a node that can be put beside the old one takes its place -/
theorem Intact.replaces (hd : d.Intact) (hold : d.parent? old = some p) (hnew : new ∈ d.forest.ids) (hne : new ≠ old)
    (hnot : d.contains new p = false) : Replaces old (d.load new) p d (d.replaceWith old new) := by
  have hv := hd.valid
  have hp := (mem_ids_of_parent? hv hold).1
  have harrives := hd.arrives hp hnew hnot (some old)
  have hv' := (hd.insertBefore p new (some old)).valid
  have hout := hd.not_mem_load hold hne hnot
  have hrow := Holds.nodup_children hv' p
  rw [replaceWith_eq hold]
  have hmem : old ∈ (d.children p).filter (· ∉ d.load new) :=
    List.mem_filter.2 ⟨(mem_children_iff hv).2 hold, decide_eq_true hout⟩
  obtain ⟨before, after, hsplit⟩ := List.append_of_mem hmem
  have hplace := harrives.before old before after rfl hsplit
  refine ⟨fun x => ?_, parent?_detach_self hv' old, fun x hx => ?_, fun x hx hin => ?_, ⟨before, after, hsplit, ?_⟩,
    fun q hq => ?_⟩
  · rw [node?_detach hv', harrives.node]
  · have hx' : x ≠ old := fun e => hout (e ▸ hx)
    rw [parent?_detach hv' hx', harrives.goes x hx]
  · rw [parent?_detach hv' hx, harrives.stays x hin]
  · -- the old node stands once in the row, after those that came
    rw [hplace] at hrow
    have hbefore : old ∉ before ++ d.load new := fun hin =>
      List.disjoint_of_nodup_append hrow hin List.mem_cons_self
    have hafter : old ∉ after := (List.nodup_cons.1 (List.nodup_append.1 hrow).2.1).1
    rw [children_detach hv', hplace, filter_not_mem_cons, filter_not_mem_nil, List.filter_append,
      filter_ne_of_not_mem hbefore, List.filter_cons_of_neg (by simp), filter_ne_of_not_mem hafter]
  · rw [children_detach hv', harrives.leaves q fun e => hq (Option.some.inj e).symm, filter_not_mem_cons,
      filter_not_mem_nil]
    refine filter_ne_of_not_mem fun hin => hq ?_
    have hparent := (mem_children_iff hv).1 (List.mem_of_mem_filter hin)
    rw [hold] at hparent
    exact (Option.some.inj hparent).symm

/-- a node that is put where it stands itself, or below itself, only takes the old node out -/
theorem Intact.relinks_refused (hd : d.Intact) (hold : d.parent? old = some p)
    (h : new = old ∨ d.contains new p = true) : Relinks [old] none d (d.replaceWith old new) := by
  rw [replaceWith_eq hold]
  rcases h with rfl | h
  · have hnot := not_contains_of_parent? hd.valid hold
    obtain ⟨hp, hin⟩ := mem_ids_of_parent? hd.valid hold
    have hplain : d.isFragment new = false := hd.top p new ((mem_children_iff hd.valid).2 hold)
    have hmoves := relinks_insertBefore hd p new (some new)
    rw [pieces_eq_load hd.valid hp hin hnot, load, if_neg (Bool.eq_false_iff.1 hplain)] at hmoves
    exact hmoves.trans (relinks_detach (hd.insertBefore p new _).valid new)
  · rw [insertBefore_of_contains h]
    exact relinks_detach hd.valid old

/-- a node that can be put beside the old one takes its place; where the insertion is refused, and where the old node is
to replace itself, the old node is taken out all the same and nothing comes in its place -/
theorem replaceWith_replaces (hd : d.Intact) (hold : d.parent? old = some p) (hnew : new ∈ d.forest.ids) :
    (new ≠ old → (∀ n, d.ancestor? n p ≠ some new) → Replaces old (d.load new) p d (d.replaceWith old new)) ∧
      (new = old ∨ (∃ n, d.ancestor? n p = some new) → Relinks [old] none d (d.replaceWith old new)) := by
  have hv := hd.valid
  constructor
  · intro hne h
    exact hd.replaces hold hnew hne ((not_contains_iff_ancestor hv).2 h)
  · intro h
    exact hd.relinks_refused hold (h.imp_right (contains_iff_ancestor hv).2)

/-- what a fragment holds takes the place of a node, and a node that is to replace itself, or to be replaced by its
parent, is lost -/
theorem replaceWith_replaces_shelf :
    Replaces 2 [5, 7] 0 shelf (shelf.replaceWith 2 4) ∧ (shelf.replaceWith 2 4).children 0 = [1, 5, 7, 3] ∧
      Relinks [2] none shelf (shelf.replaceWith 2 2) ∧ (shelf.replaceWith 2 2).children 0 = [1, 3] ∧
      Relinks [2] none shelf (shelf.replaceWith 2 0) ∧ (shelf.replaceWith 2 0).children 0 = [1, 3] := by
  have hold : shelf.parent? 2 = some 0 := by decide +kernel
  have hfree : ∀ n, shelf.ancestor? n 0 ≠ some 4 :=
    (not_contains_iff_ancestor intact_shelf.valid).1 (by decide +kernel)
  have hload : shelf.load 4 = [5, 7] := by decide +kernel
  have hids : 4 ∈ shelf.forest.ids ∧ 2 ∈ shelf.forest.ids ∧ 0 ∈ shelf.forest.ids := by decide +kernel
  have hnew := (replaceWith_replaces intact_shelf hold hids.1).1 (by decide) hfree
  have hself := (replaceWith_replaces intact_shelf hold hids.2.1).2 (.inl rfl)
  have hparent := (replaceWith_replaces intact_shelf hold hids.2.2).2 (.inr ⟨0, rfl⟩)
  rw [hload] at hnew
  refine ⟨hnew, by decide +kernel, hself, ?_, hparent, ?_⟩
  · rw [hself.leaves 0 nofun]
    decide +kernel
  · rw [hparent.leaves 0 nofun]
    decide +kernel

end Document

end LiveMarkup
