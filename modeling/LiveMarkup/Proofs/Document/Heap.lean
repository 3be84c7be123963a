/-
Nodes as they lie in memory: records with a link up and a list of links down, written one at a time.

Nothing in a heap says that the two kinds of links belong together, that a node is in one list only, or that the way up
ends. So whatever follows links may go on for ever: it gets as many steps as there are nodes, and gives nothing if they
are not enough.

`Mirrors` says that a heap holds what a document holds. Each change of the document is then mirrored by the change of
the heap that is made link by link:

- `Mirrors.insert`: the node is cut off and then linked; what a fragment holds is cut off first and then inserted;
- `Mirrors.replaceWith`, `Mirrors.buildAll`: made of insertions;
- `Mirrors.contains`, `Mirrors.below`: walks up and down end, and find what the document has there.

While a fragment is emptied the heap is ahead of the document: the nodes that are cut off and not yet linked again are
`loose`.
-/
import LiveMarkup.Proofs.Document.Copy

namespace LiveMarkup

open Forest

variable {L : Type}

/-- a node in memory, with its links -/
structure Cell (L : Type) where
  node : Node L
  parent : Option NodeId
  children : List NodeId

/-- the nodes in memory by number -/
structure Heap (L : Type) where
  cells : List (Cell L)

namespace Heap

def empty : Heap L := ⟨[]⟩

def size (h : Heap L) : Nat := h.cells.length

def cell? (h : Heap L) (id : NodeId) : Option (Cell L) := h.cells[id]?

def modify (h : Heap L) (id : NodeId) (f : Cell L → Cell L) : Heap L := ⟨h.cells.modify id f⟩

/-- a new node without links -/
def create (h : Heap L) (kind : Kind) : Heap L × NodeId := (⟨h.cells ++ [⟨⟨h.size, kind, [], 0⟩, none, []⟩]⟩, h.size)

def rewrite (h : Heap L) (id : NodeId) (g : Node L → Node L) : Heap L := h.modify id fun c => { c with node := g c.node }

/-! ## Links -/

def parent? (h : Heap L) (id : NodeId) : Option NodeId := (h.cell? id).bind (·.parent)

/-- clears the link up -/
def orphan (h : Heap L) (id : NodeId) : Heap L := h.modify id fun c => { c with parent := none }

/-- takes a node out of its parent's list and clears its link up -/
def remove (h : Heap L) (id : NodeId) : Heap L :=
  match h.parent? id with
  | some p => (h.modify p fun c => { c with children := c.children.filter (· ≠ id) }).orphan id
  | none => h

/-- writes both links between a node and its new parent -/
def link (h : Heap L) (parent child : NodeId) (anchor : Option NodeId) : Heap L :=
  (h.modify child fun c => { c with parent := some parent }).modify parent fun c =>
    { c with children := seat anchor child c.children }

/-- whether `outer` is met on the way up from a node -/
def contains (h : Heap L) (outer : NodeId) : (steps : Nat) → NodeId → Option Bool
  | 0, _ => none
  | steps + 1, id =>
    if id = outer then some true
    else match h.parent? id with
      | some p => contains h outer steps p
      | none => some false

/-- puts a node, or what a fragment holds, among the children of `parent`; fragments may be as deep in each other as
there are nodes -/
def insertBefore (anchor : Option NodeId) : (depth : Nat) → Heap L → (parent child : NodeId) → Option (Heap L)
  | 0, _, _, _ => none
  | depth + 1, h, parent, child => do
    if ← h.contains child (h.size + 1) parent then return h
    match h.cell? parent, h.cell? child with
    | some _, some c =>
      if c.node.kind.isFragment then
        let h := h.modify child fun c => { c with children := [] }
        let h := c.children.foldl orphan h
        c.children.foldlM (fun h node => insertBefore anchor depth h parent node) h
      else
        return (h.remove child).link parent child anchor
    | _, _ => return h

/-- an insertion with as many steps as there are nodes -/
def insert (h : Heap L) (parent child : NodeId) (anchor : Option NodeId) : Option (Heap L) :=
  h.insertBefore anchor (h.size + 1) parent child

/-- puts `new` where `old` is and takes `old` out -/
def replaceWith (h : Heap L) (old new : NodeId) : Option (Heap L) :=
  match h.parent? old with
  | some parent => (h.insert parent new (some old)).map (·.remove old)
  | none => some h

mutual
def copy : Markup.Node → Heap L → Option (Heap L × NodeId)
  | .element tag attributes children, h => do
    let made := h.create (.element tag attributes)
    return (← copyAll children made.2 made.1, made.2)
  | .text data, h => some (h.create (.text data))
  | .comment data, h => some (h.create (.comment data))
def copyAll : List Markup.Node → NodeId → Heap L → Option (Heap L)
  | [], _, h => some h
  | n :: ns, parent, h => do
    let made ← copy n h
    copyAll ns parent (← made.1.insert parent made.2 none)
end

/-- the trees of these nodes, as the links down have them -/
def below (h : Heap L) : (steps : Nat) → List NodeId → Option (Forest (Node L))
  | _, [] => some nil
  | 0, _ :: _ => none
  | steps + 1, id :: ids => do
    let c ← h.cell? id
    return .cons c.node (← below h steps c.children) (← below h steps ids)

/-! ## What is written where -/

theorem cell?_modify (h : Heap L) (i j : NodeId) (f : Cell L → Cell L) :
    (h.modify i f).cell? j = (h.cell? j).map fun c => if i = j then f c else c := by
  rw [cell?, modify, List.getElem?_modify]
  split <;> rfl

theorem size_modify (h : Heap L) (i : NodeId) (f : Cell L → Cell L) : (h.modify i f).size = h.size :=
  List.length_modify ..

theorem size_link (h : Heap L) (p c : NodeId) (anchor : Option NodeId) : (h.link p c anchor).size = h.size := by
  rw [link, size_modify, size_modify]

theorem size_orphans (row : List NodeId) (h : Heap L) : (row.foldl orphan h).size = h.size := by
  induction row generalizing h with
  | nil => rfl
  | cons c row ih => rw [List.foldl_cons, ih, orphan, size_modify]

theorem cell?_orphans (row : List NodeId) (h : Heap L) (j : NodeId) :
    (row.foldl orphan h).cell? j = (h.cell? j).map fun c => if j ∈ row then { c with parent := none } else c := by
  induction row generalizing h with
  | nil =>
    rw [List.foldl_nil]
    exact Option.map_id'.symm
  | cons i row ih =>
    rw [List.foldl_cons, ih, orphan, cell?_modify, Option.map_map]
    refine congrArg (Option.map · _) (funext fun c => ?_)
    rw [Function.comp_apply]
    by_cases hj : j ∈ row
    · rw [if_pos hj, if_pos (List.mem_cons_of_mem _ hj)]
      split <;> rfl
    · by_cases hi : i = j
      · rw [if_neg hj, if_pos hi, if_pos (by rw [hi]; exact List.mem_cons_self)]
      · rw [if_neg hj, if_neg hi, if_neg (by rw [List.mem_cons, not_or]; exact ⟨fun e => hi e.symm, hj⟩)]

/-- the heap holds the nodes and the links of the document, but for `loose`, which nobody's links lead to -/
structure Mirrors (h : Heap L) (loose : List NodeId) (d : Document L) : Prop where
  size : h.size = d.fresh
  cell : ∀ id, h.cell? id = (d.node? id).map fun n =>
    ⟨n, if id ∈ loose then none else d.parent? id, (d.children id).filter (· ∉ loose)⟩

namespace Mirrors

open Document

variable {h : Heap L} {d : Document L} {loose rest : List NodeId} {p c id : NodeId}

theorem empty : (Heap.empty (L := L)).Mirrors [] ∅ := ⟨rfl, fun _ => rfl⟩

theorem of_cells {h' : Heap L} (hm : h.Mirrors loose d) (hs : h'.size = h.size) {loose' : List NodeId}
    {d' : Document L} (hf : d'.fresh = d.fresh) (hnode : ∀ id, d'.node? id = d.node? id) (f : NodeId → Cell L → Cell L)
    (hcell : ∀ id, h'.cell? id = (h.cell? id).map (f id))
    (hlinks : ∀ id n, f id ⟨n, if id ∈ loose then none else d.parent? id, (d.children id).filter (· ∉ loose)⟩ =
      ⟨n, if id ∈ loose' then none else d'.parent? id, (d'.children id).filter (· ∉ loose')⟩) : h'.Mirrors loose' d' := by
  refine ⟨hs.trans (hm.size.trans hf.symm), fun id => ?_⟩
  rw [hcell, hm.cell, hnode, Option.map_map]
  exact congrArg (Option.map · _) (funext fun n => hlinks id n)

theorem parent? (hm : h.Mirrors loose d) (hv : d.Valid) (id : NodeId) :
    h.parent? id = if id ∈ loose then none else d.parent? id := by
  rw [Heap.parent?, hm.cell]
  cases hn : d.node? id with
  | some n => rfl
  | none =>
    have hnone : d.parent? id = none := by
      refine Option.eq_none_iff_forall_not_mem.2 fun p hp => ?_
      exact hv.node?_eq_none.1 hn (mem_ids_of_parent? hv hp).2
    rw [hnone, ite_self]
    rfl

/-- the way up from a node that no loose node contains is the document's -/
theorem contains (hm : h.Mirrors loose d) (hv : d.Valid) (outer id : NodeId) (steps : Nat)
    (hsteps : d.weight id + steps > d.fresh) (hloose : ∀ l ∈ loose, d.contains l id = false) :
    h.contains outer steps id = some (d.contains outer id) := by
  induction steps generalizing id with
  | zero => exact absurd (weight_le hv id) (Nat.not_le.2 hsteps)
  | succ steps ih =>
    rw [Heap.contains]
    by_cases hid : id = outer
    · rw [if_pos hid, hid, contains_self]
    · have hout : id ∉ loose := fun hin => ne_of_not_contains (hloose id hin) rfl
      rw [if_neg hid, hm.parent? hv, if_neg hout]
      cases hp : d.parent? id with
      | none =>
        refine congrArg some (Eq.symm (Bool.eq_false_iff.2 fun hin => ?_))
        rcases (contains_iff hv).1 hin with h | ⟨q, hq, -⟩
        · exact hid h
        · rw [hp] at hq
          cases hq
      | some q =>
        have hlt := weight_lt hv hp
        have hq := ih q (by omega) fun l hl => not_contains_parent? hv (hloose l hl) hp
        dsimp only
        rw [hq]
        refine congrArg some (Bool.eq_iff_iff.2 ⟨fun hin => (contains_iff hv).2 (.inr ⟨q, hp, hin⟩), fun hin => ?_⟩)
        rcases (contains_iff hv).1 hin with h | ⟨q', hq', hin⟩
        · exact absurd h hid
        · rw [hp] at hq'
          cases hq'
          exact hin

/-- the way down from a row of siblings is the document's -/
theorem below (hm : h.Mirrors [] d) (hv : d.Valid) (f : Forest (Node L)) (hf : f.subtrees ⊆ d.forest.subtrees)
    (steps : Nat) (hsteps : f.labels.length ≤ steps) : h.below steps (f.roots.map (·.id)) = some f := by
  induction f generalizing steps with
  | nil => cases steps <;> rfl
  | cons n cs rest ihc ihr =>
    have hn := hf List.mem_cons_self
    have hcell : h.cell? n.id = some ⟨n, d.parent? n.id, cs.roots.map (·.id)⟩ := by
      rw [hm.cell, node?, find?_of_subtree hv hn, children_of_subtree hv hn, if_neg List.not_mem_nil]
      exact congrArg (fun row => some (Cell.mk n (d.parent? n.id) row)) (filter_not_mem_nil _)
    rw [labels, List.length_cons, List.length_append] at hsteps
    obtain ⟨k, rfl⟩ : ∃ k, steps = k + 1 := ⟨steps - 1, by omega⟩
    rw [roots, List.map_cons, Heap.below, hcell]
    have hc := ihc (fun t ht => hf (List.mem_cons_of_mem _ (List.mem_append_left _ ht))) k (by omega)
    have hr := ihr (fun t ht => hf (List.mem_cons_of_mem _ (List.mem_append_right _ ht))) k (by omega)
    simp only [Option.bind_eq_bind, Option.bind_some, hc, hr]
    rfl

/-! ## Changing nodes -/

theorem create (hm : h.Mirrors [] d) (hv : d.Valid) (kind : Kind) :
    (h.create kind).1.Mirrors [] (d.add kind).1 ∧ (h.create kind).2 = (d.add kind).2 := by
  refine ⟨⟨?_, fun id => ?_⟩, hm.size⟩
  · rw [Heap.create, Heap.size, List.length_append]
    exact congrArg (· + 1) hm.size
  · rw [node?_add hv, parent?_add hv, children_add hv, Heap.create, cell?, List.getElem?_append]
    split
    · next hlt =>
      rw [if_neg (Nat.ne_of_lt (hm.size ▸ hlt))]
      exact hm.cell id
    · next hge =>
      have hge : d.fresh ≤ id := hm.size ▸ Nat.not_lt.1 hge
      by_cases hid : id = d.fresh
      · subst hid
        have hout : d.fresh ∉ d.forest.ids := fun hin => Nat.lt_irrefl _ (hv.below hin)
        have hparent : d.parent? d.fresh = none :=
          Option.eq_none_iff_forall_not_mem.2 fun p hp => hout (mem_ids_of_parent? hv hp).2
        rw [if_pos rfl, hparent, Holds.children_eq_nil hv ((ids_bare d.forest).symm ▸ hout), ← hm.size]
        simp [Heap.size]
      · have hlt : d.fresh < id := Nat.lt_of_le_of_ne hge fun e => hid e.symm
        have hnone : d.node? id = none := hv.node?_eq_none.2 fun hin => Nat.lt_asymm hlt (hv.below hin)
        rw [if_neg hid, hnone]
        refine List.getElem?_eq_none ?_
        have hsize : h.cells.length = d.fresh := hm.size
        rw [List.length_singleton, hsize]
        exact Nat.sub_pos_of_lt hlt

theorem rewrite (hm : h.Mirrors [] d) (hv : d.Valid) {g : Node L → Node L} {t : Bare → Bare}
    (hg : ∀ n, (g n).bare = t n.bare) (ht : Touch t) (id : NodeId) :
    (h.rewrite id g).Mirrors [] (d.update id g) := by
  refine ⟨(size_modify h id _).trans hm.size, fun x => ?_⟩
  rw [node?_update hg ht, parent?_update hg ht hv, children_update hg ht hv, Heap.rewrite, cell?_modify, hm.cell,
    Option.map_map, Option.map_map]
  refine congrArg (Option.map · _) (funext fun n => ?_)
  rw [Function.comp_apply, Function.comp_apply]
  by_cases hx : x = id
  · rw [if_pos hx, if_pos hx.symm]
  · rw [if_neg hx, if_neg fun e => hx e.symm]

/-! ## Cutting off and linking -/

theorem remove_loose (hm : h.Mirrors loose d) (hv : d.Valid) (hc : c ∈ loose) : h.remove c = h := by
  rw [Heap.remove, hm.parent? hv, if_pos hc]

/-- a node that is cut off is loose -/
theorem remove (hm : h.Mirrors rest d) (hv : d.Valid) (hc : c ∉ rest) : (h.remove c).Mirrors (c :: rest) d := by
  rw [Heap.remove, hm.parent? hv, if_neg hc]
  cases hp : d.parent? c with
  | none =>
    -- nobody has it, so its links are cleared already
    refine hm.of_cells rfl rfl (fun _ => rfl) (fun _ k => k) (fun _ => Option.map_id'.symm) fun id n => ?_
    have hout : c ∉ d.children id := fun hin => by
      rw [mem_children_iff hv, hp] at hin
      cases hin
    rw [filter_not_mem_cons, filter_ne_of_not_mem hout]
    by_cases hid : id = c
    · rw [hid, if_neg hc, if_pos List.mem_cons_self, hp]
    · simp only [List.mem_cons, hid, false_or]
  | some p =>
    dsimp only
    have hne : p ≠ c := by
      rintro rfl
      exact Nat.lt_irrefl _ (weight_lt hv hp)
    refine hm.of_cells (by rw [orphan, size_modify, size_modify]) rfl (fun _ => rfl) (fun id k =>
      if c = id then { k with parent := none }
      else if p = id then { k with children := k.children.filter (· ≠ c) } else k) (fun id => ?_) fun id n => ?_
    · rw [orphan, cell?_modify, cell?_modify, Option.map_map]
      refine congrArg (Option.map · _) (funext fun k => ?_)
      rw [Function.comp_apply]
      by_cases hc' : c = id
      · rw [if_pos hc', if_pos hc', if_neg fun e => hne (e.trans hc'.symm)]
      · rw [if_neg hc', if_neg hc']
    · have hout : id ≠ p → c ∉ d.children id := fun hid hin => by
        rw [mem_children_iff hv, hp] at hin
        exact hid (Option.some.inj hin).symm
      by_cases hc' : c = id
      · subst hc'
        rw [if_pos rfl, if_pos List.mem_cons_self, filter_not_mem_cons, filter_ne_of_not_mem (hout hne.symm)]
      · have hmem : id ∈ c :: rest ↔ id ∈ rest := by
          rw [List.mem_cons, or_iff_right fun e => hc' e.symm]
        rw [if_neg hc', if_congr hmem rfl rfl, filter_not_mem_cons]
        by_cases hp' : p = id
        · rw [if_pos hp', List.filter_comm]
        · rw [if_neg hp', filter_ne_of_not_mem (hout fun e => hp' e.symm)]

/-- a loose node that is linked is where it is put -/
theorem link (hm : h.Mirrors (c :: rest) d) (hv : d.Valid) (hp : p ∈ d.forest.ids) (hc : c ∈ d.forest.ids)
    (hnot : d.contains c p = false) (hout : c ∉ rest) (helse : ∀ x ∈ rest, x ∉ d.children p) (anchor : Option NodeId) :
    (h.link p c anchor).Mirrors rest (d.place p c anchor) := by
  have hne : p ≠ c := ne_of_not_contains hnot
  have hfresh : (d.place p c anchor).fresh = d.fresh := by
    rw [Document.place]
    split <;> rfl
  refine hm.of_cells (size_link h p c anchor) hfresh
    (node?_of_perm hv (labels_place hv hp hc hnot anchor)) (fun id k =>
      if p = id then { k with children := seat anchor c k.children }
      else if c = id then { k with parent := some p } else k) (fun id => ?_) fun id n => ?_
  · rw [Heap.link, cell?_modify, cell?_modify, Option.map_map]
    refine congrArg (Option.map · _) (funext fun k => ?_)
    rw [Function.comp_apply]
    by_cases hp' : p = id
    · rw [if_pos hp', if_pos hp', if_neg fun e => hne (hp'.trans e.symm)]
    · rw [if_neg hp', if_neg hp']
  · rw [children_place hv hp hc hnot]
    by_cases hp' : p = id
    · subst hp'
      have hmem : p ∈ c :: rest ↔ p ∈ rest := by rw [List.mem_cons, or_iff_right hne]
      have hrow : (d.children p).filter (· ∉ c :: rest) = (d.children p).filter (· ≠ c) := by
        rw [filter_not_mem_cons]
        exact List.filter_eq_self.2 fun x hx =>
          decide_eq_true fun hin => helse x hin (List.mem_of_mem_filter hx)
      have hseat : (seat anchor c ((d.children p).filter (· ≠ c))).filter (· ∉ rest) =
          seat anchor c ((d.children p).filter (· ≠ c)) := by
        refine List.filter_eq_self.2 fun x hx => decide_eq_true fun hin => ?_
        rcases mem_seat.1 hx with rfl | hx
        · exact hout hin
        · exact helse x hin (List.mem_of_mem_filter hx)
      rw [if_pos rfl, if_pos rfl, if_congr hmem rfl rfl, hrow, hseat, parent?_place hv hp hc hnot anchor hne]
    · rw [if_neg hp', if_neg (show ¬id = p from fun e => hp' e.symm), filter_not_mem_cons]
      by_cases hc' : c = id
      · subst hc'
        rw [if_pos rfl, if_neg hout, parent?_place_self hv hp hc hnot]
      · have hmem : id ∈ c :: rest ↔ id ∈ rest := by
          rw [List.mem_cons, or_iff_right fun e => hc' e.symm]
        rw [if_neg hc', if_congr hmem rfl rfl, parent?_place hv hp hc hnot anchor fun e => hc' e.symm]

/-- a loose node is where a detached node is -/
theorem detach (hm : h.Mirrors [id] d) (hv : d.Valid) : h.Mirrors [] (d.detach id) := by
  have hfresh : (d.detach id).fresh = d.fresh := by
    rw [Document.detach]
    split <;> rfl
  refine hm.of_cells rfl hfresh (node?_detach hv id) (fun _ k => k)
    (fun _ => Option.map_id'.symm) fun x n => ?_
  rw [children_detach hv, filter_not_mem_nil, if_neg List.not_mem_nil]
  by_cases hx : x = id
  · rw [hx, if_pos (List.mem_singleton_self id), parent?_detach_self hv]
  · rw [if_neg (by rwa [List.mem_singleton]), parent?_detach hv hx]

/-- what a fragment holds is cut off at once -/
theorem empty_fragment (hm : h.Mirrors [] d) (hv : d.Valid) (c : NodeId) :
    ((d.children c).foldl orphan (h.modify c fun k => { k with children := [] })).Mirrors (d.children c) d := by
  refine hm.of_cells (by rw [size_orphans, size_modify]) rfl (fun _ => rfl) (fun id k =>
    ⟨k.node, if id ∈ d.children c then none else k.parent, if c = id then [] else k.children⟩)
    (fun id => ?_) fun id n => ?_
  · rw [cell?_orphans, cell?_modify, Option.map_map]
    refine congrArg (Option.map · _) (funext fun k => ?_)
    rw [Function.comp_apply]
    by_cases hin : id ∈ d.children c
    · rw [if_pos hin, if_pos hin]
      split <;> rfl
    · rw [if_neg hin, if_neg hin]
      split <;> rfl
  · rw [if_neg List.not_mem_nil, filter_not_mem_nil]
    by_cases hid : c = id
    · subst hid
      rw [if_pos rfl]
      refine congrArg (Cell.mk n _) (List.filter_eq_nil_iff.2 fun x hx => ?_).symm
      rw [decide_eq_true_eq]
      exact not_not_intro hx
    · rw [if_neg hid]
      refine congrArg (Cell.mk n _) (List.filter_eq_self.2 fun x hx => ?_).symm
      rw [decide_eq_true_eq]
      intro hin
      rw [mem_children_iff hv] at hx hin
      exact hid (Option.some.inj (hin.symm.trans hx))

/-! ## Inserting -/

/-- a node that is no fragment is cut off and linked -/
theorem insert_one (hm : h.Mirrors loose d) (hremove : (h.remove c).Mirrors (c :: rest) d) {row : List NodeId}
    (hmov : Movable d p (c :: row)) (hloose : ∀ l ∈ loose, d.contains l p = false) (hout : c ∉ rest)
    (helse : ∀ x ∈ rest, x ∉ d.children p) (anchor : Option NodeId) (depth : Nat) :
    ∃ h', h.insertBefore anchor (depth + 1) p c = some h' ∧ h'.Mirrors rest (d.place p c anchor) := by
  have hv := hmov.intact.valid
  obtain ⟨hc, hp⟩ := hmov.mem c List.mem_cons_self
  have hnot := hmov.apart c List.mem_cons_self
  obtain ⟨n, hn⟩ := hv.exists_node hp
  obtain ⟨m, hcm⟩ := hv.exists_node hc
  have hcontains := hm.contains hv c p (h.size + 1)
    (by rw [hm.size]; exact Nat.lt_of_lt_of_le (Nat.lt_succ_self _) (Nat.le_add_left _ _)) hloose
  refine ⟨_, ?_, hremove.link hv hp hc hnot hout helse anchor⟩
  have hkind : m.kind.isFragment = false := by
    have := hmov.plain c List.mem_cons_self
    rwa [isFragment_eq_node?, hcm] at this
  have hpcell := hm.cell p
  have hccell := hm.cell c
  rw [hn] at hpcell
  rw [hcm] at hccell
  rw [insertBefore, hcontains, hnot, hpcell, hccell]
  simp only [Option.map_some, hkind]
  rfl

/-- loose nodes are linked one after another -/
theorem insert_row (hm : h.Mirrors rest d) (hmov : Movable d p rest) (helse : ∀ x ∈ rest, x ∉ d.children p)
    (anchor : Option NodeId) (depth : Nat) :
    ∃ h', rest.foldlM (fun h c => h.insertBefore anchor (depth + 1) p c) h = some h' ∧
      h'.Mirrors [] (rest.foldl (fun d c => d.place p c anchor) d) := by
  induction rest generalizing h d with
  | nil => exact ⟨h, rfl, hm⟩
  | cons c rest ih =>
    have hv := hmov.intact.valid
    obtain ⟨hc, hp⟩ := hmov.mem c List.mem_cons_self
    have hnot := hmov.apart c List.mem_cons_self
    have hout := (List.nodup_cons.1 hmov.nodup).1
    have hself := hm.remove_loose hv (c := c) List.mem_cons_self
    obtain ⟨h₁, hrun, hm₁⟩ := hm.insert_one (hself.symm ▸ hm) hmov hmov.apart hout
      (fun x hx => helse x (List.mem_cons_of_mem _ hx)) anchor depth
    obtain ⟨h₂, hrun₂, hm₂⟩ := ih hm₁ (hmov.place anchor) fun x hx hin => by
      rw [children_place hv hp hc hnot, if_pos rfl] at hin
      rcases mem_seat.1 hin with rfl | hin
      · exact hout hx
      · exact helse x (List.mem_cons_of_mem _ hx) (List.mem_of_mem_filter hin)
    refine ⟨h₂, ?_, hm₂⟩
    rw [List.foldlM_cons, hrun]
    exact hrun₂

/-- an insertion is mirrored, whatever it moves -/
theorem insert (hm : h.Mirrors [] d) (hd : d.Intact) (p c : NodeId) (anchor : Option NodeId) :
    ∃ h', h.insert p c anchor = some h' ∧ h'.Mirrors [] (d.insertBefore p c anchor) := by
  have hv := hd.valid
  have hmov := hd.movable p c
  have hcontains := hm.contains hv c p (h.size + 1)
    (by rw [hm.size]; exact Nat.lt_of_lt_of_le (Nat.lt_succ_self _) (Nat.le_add_left _ _))
    fun _ hl => absurd hl List.not_mem_nil
  rw [insertBefore_eq, Heap.insert]
  by_cases hin : d.contains c p = true
  · refine ⟨h, ?_, ?_⟩
    · rw [insertBefore, hcontains, hin]
      rfl
    · rwa [pieces, hin]
  · rw [Bool.not_eq_true] at hin
    have hpcell := hm.cell p
    have hccell := hm.cell c
    cases hn : d.node? p with
    | none =>
      rw [hn] at hpcell
      refine ⟨h, ?_, ?_⟩
      · rw [insertBefore, hcontains, hin, hpcell]
        rfl
      · rwa [pieces, hin, hn]
    | some n =>
      cases hk : d.node? c with
      | none =>
        rw [hn] at hpcell
        rw [hk] at hccell
        refine ⟨h, ?_, ?_⟩
        · rw [insertBefore, hcontains, hin, hpcell, hccell]
          rfl
        · rwa [pieces, hin, hn, hk]
      | some m =>
        by_cases hf : d.isFragment c = true
        · have hpieces : d.pieces p c = d.children c := by rw [pieces, hin, hn, hk, hf]; rfl
          rw [hpieces] at hmov ⊢
          have helse : ∀ x ∈ d.children c, x ∉ d.children p := by
            intro x hx hx'
            rw [mem_children_iff hv] at hx hx'
            rw [Option.some.inj (hx.symm.trans hx'), contains_self] at hin
            cases hin
          obtain ⟨k, hsize⟩ : ∃ k, h.size = k + 1 := by
            have hlt : p < d.fresh := hv.below (mem_ids_of_node? hv (by rw [hn]; exact Option.some_ne_none n))
            exact ⟨h.size - 1, (Nat.succ_pred_eq_of_pos (Nat.lt_of_le_of_lt (Nat.zero_le _) (hm.size ▸ hlt))).symm⟩
          obtain ⟨h', hrun, hm'⟩ := (hm.empty_fragment hv c).insert_row hmov helse anchor k
          refine ⟨h', ?_, hm'⟩
          have hkind : m.kind.isFragment = true := by rwa [isFragment_eq_node?, hk] at hf
          rw [hn] at hpcell
          rw [hk] at hccell
          rw [insertBefore, hcontains, hin, hpcell, hccell]
          simp only [Option.map_some, hkind, filter_not_mem_nil, hsize]
          exact hrun
        · rw [Bool.not_eq_true] at hf
          have hpieces : d.pieces p c = [c] := by rw [pieces, hin, hn, hk, hf]; rfl
          rw [hpieces] at hmov ⊢
          exact hm.insert_one (hm.remove hv List.not_mem_nil) hmov (fun _ hl => absurd hl List.not_mem_nil)
            List.not_mem_nil (fun _ hx => absurd hx List.not_mem_nil) anchor h.size

theorem replaceWith (hm : h.Mirrors [] d) (hd : d.Intact) (old new : NodeId) :
    ∃ h', h.replaceWith old new = some h' ∧ h'.Mirrors [] (d.replaceWith old new) := by
  rw [Heap.replaceWith, Document.replaceWith, hm.parent? hd.valid, if_neg List.not_mem_nil]
  cases d.parent? old with
  | none => exact ⟨h, rfl, hm⟩
  | some p =>
    obtain ⟨h', hrun, hm'⟩ := hm.insert hd p new (some old)
    refine ⟨h'.remove old, ?_, ?_⟩
    · dsimp only
      rw [hrun]
      rfl
    · have hv' := (hd.insertBefore p new (some old)).valid
      exact (hm'.remove hv' List.not_mem_nil).detach hv'

/-- cutting a node off is mirrored -/
theorem remove_detach (hm : h.Mirrors [] d) (hv : d.Valid) (id : NodeId) :
    (h.remove id).Mirrors [] (d.detach id) := (hm.remove hv List.not_mem_nil).detach hv

mutual
/-- copying is mirrored -/
theorem build : (n : Markup.Node) → {h : Heap L} → {d : Document L} → h.Mirrors [] d → d.Intact →
    ∃ h', h.copy n = some (h', (build n d).2) ∧ h'.Mirrors [] (build n d).1 ∧ (build n d).1.Intact
  | .element tag attributes children, h, d, hm, hd => by
    obtain ⟨hmade, hid⟩ := hm.create hd.valid (.element tag attributes)
    obtain ⟨h', hrun, hm', hd'⟩ := buildAll children (d.add (.element tag attributes)).2 hmade (hd.add _)
    refine ⟨h', ?_, ?_, ?_⟩
    · rw [copy, hid, hrun, Document.build]
      rfl
    · rwa [Document.build]
    · rwa [Document.build]
  | .text data, h, d, hm, hd => by
    obtain ⟨hmade, hid⟩ := hm.create hd.valid (.text data)
    rw [copy, Document.build]
    exact ⟨_, congrArg (fun id => some ((h.create (.text data)).1, id)) hid, hmade, hd.add _⟩
  | .comment data, h, d, hm, hd => by
    obtain ⟨hmade, hid⟩ := hm.create hd.valid (.comment data)
    rw [copy, Document.build]
    exact ⟨_, congrArg (fun id => some ((h.create (.comment data)).1, id)) hid, hmade, hd.add _⟩
theorem buildAll : (ns : List Markup.Node) → (parent : NodeId) → {h : Heap L} → {d : Document L} → h.Mirrors [] d →
    d.Intact → ∃ h', h.copyAll ns parent = some h' ∧ h'.Mirrors [] (Document.buildAll ns parent d) ∧
      (Document.buildAll ns parent d).Intact
  | [], _, h, _, hm, hd => ⟨h, rfl, hm, hd⟩
  | n :: ns, parent, h, d, hm, hd => by
    obtain ⟨h₁, hrun₁, hm₁, hd₁⟩ := build n hm hd
    obtain ⟨h₂, hrun₂, hm₂⟩ := hm₁.insert hd₁ parent (Document.build n d).2 none
    obtain ⟨h₃, hrun₃, hm₃, hd₃⟩ := buildAll ns parent hm₂ (hd₁.insertBefore parent _ none)
    rw [copyAll, hrun₁, Document.buildAll]
    refine ⟨h₃, ?_, hm₃, hd₃⟩
    simp only [Option.bind_eq_bind, Option.bind_some, hrun₂]
    exact hrun₃
end

end Mirrors

end Heap

end LiveMarkup
