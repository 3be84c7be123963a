/-
What a mounted component has at its top level.

The top level of a template is a row of nodes. A marker of a slot or a child among them stands for what the nested block
has at its own top level, and every other node for one of the component's roots, in the same order. `Component.tops` puts
the two together.

- `Component.Like.tops`: updates leave it as it is;
- `Fits.tops`: when every root of a skeleton is what it should be, the roots of the filled skeleton are the tops; those
  that are not in nested blocks are the component's own, one for each node of the skeleton that is no marker of a block.
-/
import LiveMarkup.Proofs.Component.Unplaced

namespace LiveMarkup

open Markup Marker Forest

variable {A : Type} {H : Host}

def Markup.Node.tag? : Markup.Node → Option String
  | .element tag _ _ => some tag
  | .text _ | .comment _ => none

structure Top where
  node : NodeId
  tag : Option String
deriving DecidableEq, Repr

def Node.top (n : Bare) : Top := ⟨n.id, n.kind.tag?⟩

/-! ## Weaving -/

namespace Template

/-- whether blocks are nested at this marker -/
def nests (t : Template A) (m : Marker) : Bool :=
  (m.category = .slot || m.category = .child) && (indicesOf t.placeholders m.category).contains m.index

/-- the tag that a node of the skeleton has once it is mounted: a text stands where its marker was -/
def shownTag (t : Template A) (tag : Option String) : Option String :=
  match tag.bind ofTag? with
  | some m => if m.category = .text ∧ m.index ∈ indicesOf t.placeholders .text then none else tag
  | none => tag

/-- goes through the tags at the top level of a skeleton: at the marker of a nested block comes what is at the top level
of that, at every other node the next root -/
def weave (t : Template A) (contents : Marker → List Top) : List (Option String) → List NodeId → List Top
  | [], _ => []
  | tag :: tags, roots =>
    match (tag.bind ofTag?).filter t.nests with
    | some m => contents m ++ weave t contents tags roots
    | none => (roots.take 1).map (⟨·, t.shownTag tag⟩) ++ weave t contents tags (roots.drop 1)

/-- whether no block is nested at a node of the skeleton that has this tag -/
def owns (t : Template A) (tag : Option String) : Bool := ((tag.bind ofTag?).filter t.nests).isNone

/-- how many nodes at the top level of the skeleton stay when blocks are put in the place of their markers -/
def breadth (t : Template A) : Nat := (t.skeleton.map Markup.Node.tag?).countP t.owns

end Template

mutual
/-- what a mounted component has at its top level, in the order of its template -/
def Component.tops : Component H → List Top
  | .mk core slots children => core.template.weave
      (fun m => if m.category = .slot then topsAt slots m.index else topsAt children m.index)
      (core.template.skeleton.map Markup.Node.tag?) core.roots
/-- what the block of a row with this index has at its top level -/
def topsAt : List (Nested H) → Nat → List Top
  | [], _ => []
  | .mk index _ block :: row, i => if index = i then block.tops else topsAt row i
def Block.tops : Block H → List Top
  | .text t => t.node.toList.map (⟨·, none⟩)
  | .foreign _ => []
  | .component c => c.tops
end

def topsOf (row : List (Nested H)) : List NodeId := row.flatMap fun n => n.block.tops.map (·.node)

def Component.nestedTops (c : Component H) : List NodeId := topsOf c.slots ++ topsOf c.children

/-- what a row has at an index is at the top level of one of its blocks -/
theorem topsAt_subset (row : List (Nested H)) (i : Nat) : (topsAt row i).map (·.node) ⊆ topsOf row := by
  induction row with
  | nil => exact List.nil_subset _
  | cons n row ih =>
    obtain ⟨index, atRoot, block⟩ := n
    rw [topsAt, topsOf, List.flatMap_cons]
    split
    · exact List.subset_append_left _ _
    · exact List.Subset.trans ih (List.subset_append_right _ _)

/-- a row has nothing at the index of no block -/
theorem topsAt_of_not_mem {row : List (Nested H)} {i : Nat} (h : i ∉ row.map Nested.index) : topsAt row i = [] := by
  induction row with
  | nil => rfl
  | cons n row ih =>
    obtain ⟨index, atRoot, block⟩ := n
    rw [List.map_cons, List.mem_cons, not_or] at h
    have hne : ¬ index = i := fun e => h.1 e.symm
    rw [topsAt, if_neg hne, ih h.2]

/-- what is woven is a root, or at the top level of a block that is nested at the top level -/
theorem Template.mem_weave {t : Template A} {contents : Marker → List Top} {tags : List (Option String)}
    {roots : List NodeId} {x : Top} (hx : x ∈ t.weave contents tags roots) :
    x.node ∈ roots ∨ ∃ tag ∈ tags, ∃ m, (tag.bind ofTag?).filter t.nests = some m ∧ x ∈ contents m := by
  induction tags generalizing roots with
  | nil => cases hx
  | cons tag tags ih =>
    have hlater : (∃ tag ∈ tags, ∃ m, (tag.bind ofTag?).filter t.nests = some m ∧ x ∈ contents m) →
        ∃ other ∈ tag :: tags, ∃ m, (other.bind ofTag?).filter t.nests = some m ∧ x ∈ contents m :=
      fun ⟨other, hother, h⟩ => ⟨other, List.mem_cons_of_mem _ hother, h⟩
    rw [weave] at hx
    cases hm : (tag.bind ofTag?).filter t.nests with
    | some m =>
      rw [hm] at hx
      rcases List.mem_append.1 hx with hx | hx
      · exact .inr ⟨tag, List.mem_cons_self, m, hm, hx⟩
      · exact (ih hx).imp_right hlater
    | none =>
      rw [hm] at hx
      rcases List.mem_append.1 hx with hx | hx
      · obtain ⟨root, hroot, rfl⟩ := List.mem_map.1 hx
        exact .inl (List.mem_of_mem_take hroot)
      · exact (ih hx).imp List.mem_of_mem_drop hlater

/-- what a component has at its top level is its own or nested -/
theorem Component.tops_subset (c : Component H) : c.tops.map (·.node) ⊆ c.roots ++ c.nestedTops := by
  obtain ⟨core, slots, children⟩ := c
  intro id hid
  obtain ⟨x, hx, rfl⟩ := List.mem_map.1 hid
  rw [Component.tops] at hx
  rcases Template.mem_weave hx with hroot | ⟨-, -, m, -, hm⟩
  · exact List.mem_append_left _ hroot
  · refine List.mem_append_right _ ?_
    split at hm
    · exact List.mem_append_left _ (topsAt_subset _ _ (List.mem_map_of_mem hm))
    · exact List.mem_append_right _ (topsAt_subset _ _ (List.mem_map_of_mem hm))

theorem alongRow_tops {row : List (Nested H)} {X : Forest Bare}
    (h : alongRow (fun b X => b.tops.map (·.node) ⊆ X.ids) row X) : topsOf row ⊆ X.ids := by
  intro id hid
  obtain ⟨n, hn, hid⟩ := List.mem_flatMap.1 hid
  obtain ⟨first, hfirst, hsub⟩ := alongRow_forall h n hn
  exact hsub (hfirst hid)

/-- what has been made has no other nodes than its own at its top level -/
theorem Block.Unplaced.tops {b : Block H} {X : Forest Bare} (h : b.Unplaced true X) :
    b.tops.map (·.node) ⊆ X.ids := by
  refine h.induction (P := fun made b X => made = true → b.tops.map (·.node) ⊆ X.ids) (fun _ t n hn _ _ => ?_)
    (fun _ _ he => by cases he) (fun _ core slots children r _ _ contents kids hown hslots hchildren _ => ?_)
    (fun _ _ _ _ _ _ _ _ he => by cases he) rfl
  · rw [Block.tops, hn, ids_tree]
    exact List.Subset.refl _
  · have hrow : ∀ {row : List (Nested H)} {X : Forest Bare},
        alongRow (fun b X => true = true → b.tops.map (·.node) ⊆ X.ids) row X → topsOf row ⊆ X.ids := fun h =>
      alongRow_tops (alongRow_imp (fun _ _ _ h => h rfl) h)
    refine List.Subset.trans (Component.tops_subset _) ?_
    rw [Component.roots, Component.core, hown.roots, List.nil_append, ids_append, ids_append]
    refine List.Subset.trans (List.append_subset.2 ⟨?_, ?_⟩) (List.subset_append_right _ _)
    · exact List.Subset.trans (hrow hslots) (List.subset_append_left _ _)
    · exact List.Subset.trans (hrow hchildren) (List.subset_append_right _ _)

/-! ## Updates -/

theorem Block.like_tops_of {b b' : Block H}
    (h : ∀ c, b = .component c → ∀ c' : Component H, c.Like footing c' → c'.tops = c.tops) (hl : b.Like footing b') :
    b'.tops = b.tops := by
  cases b with
  | text t =>
    cases b' with
    | text t' => rw [tops, tops, show t'.node = t.node from hl]
    | foreign => exact hl.elim
    | component => exact hl.elim
  | foreign f =>
    cases b' with
    | foreign => rfl
    | text => exact hl.elim
    | component => exact hl.elim
  | component c =>
    obtain ⟨c', rfl, hc'⟩ := like_component hl
    exact h c rfl c' hc'

/-- on the same footing, a component has the same at its top level -/
theorem Component.Like.tops {c c' : Component H} (h : c.Like footing c') : c'.tops = c.tops := by
  induction c using Component.induct generalizing c' with
  | mk core slots children ihs ihc =>
    obtain ⟨core', slots', children'⟩ := c'
    obtain ⟨hcore, hslots, hchildren⟩ := h
    have hrow : ∀ row row' : List (Nested H), (∀ n ∈ row, ∀ c, n.block = .component c → ∀ {c' : Component H},
        c.Like footing c' → c'.tops = c.tops) → likeAll footing row row' → topsAt row' = topsAt row := by
      intro row row' h hl
      rw [likeAll_iff] at hl
      induction hl with
      | nil => rfl
      | @cons n n' row row' hn _ ih =>
        obtain ⟨index, atRoot, block⟩ := n
        obtain ⟨index', atRoot', block'⟩ := n'
        obtain ⟨rfl, hblock⟩ := hn
        rw [List.forall_mem_cons] at h
        funext i
        have htops : block'.tops = block.tops := Block.like_tops_of (fun c hc c' hl => h.1 c hc hl) hblock
        rw [topsAt, topsAt, ih h.2, htops]
        rfl
    have hroots : core'.roots = core.roots := hcore.roots
    rw [Component.tops, Component.tops, hrow slots slots' ihs hslots, hrow children children' ihc hchildren, hroots,
      hcore.template]

theorem likeAll.tops {row row' : List (Nested H)} (h : likeAll footing row row') : topsOf row' = topsOf row := by
  rw [likeAll_iff] at h
  induction h with
  | nil => rfl
  | cons hn _ ih =>
    rw [topsOf, topsOf] at ih ⊢
    rw [List.flatMap_cons, List.flatMap_cons, ih, Block.like_tops_of (fun _ _ _ hl => hl.tops) hn.2]

/-- the same of what is nested in it -/
theorem Component.Like.nestedTops {c c' : Component H} (h : c.Like footing c') : c'.nestedTops = c.nestedTops := by
  obtain ⟨-, hslots, hchildren⟩ := Component.like_iff.1 h
  rw [Component.nestedTops, Component.nestedTops, hslots.tops, hchildren.tops]

/-! ## Filling -/

/-- a root of a skeleton is what it should be: `texts` and `blocks` are what is put in the place of markers, `spots` are
the markers of blocks, `nested` the nodes that blocks have at their top levels -/
inductive Fits (t : Template A) (contents : Marker → List Top) (texts blocks : List (Marker × Forest Bare))
    (spots nested : List NodeId) (b : Bare) : Prop
  | block (m : Marker) (x : Forest Bare) (marker : b.kind.marker? = some m) (nests : t.nests m = true)
      (free : texts.lookup m = none) (filled : blocks.lookup m = some x) (tops : x.roots.map Node.top = contents m)
      (inside : ∀ n ∈ x.roots, n.id ∈ nested) (spot : b.id ∈ spots)
  | text (m : Marker) (n : Bare) (marker : b.kind.marker? = some m) (nests : t.nests m = false)
      (filled : texts.lookup m = some (tree n nil)) (shown : t.shownTag b.kind.tag? = none) (plain : n.kind.tag? = none)
      (own : n.id ∉ spots ∧ n.id ∉ nested)
  | plain (free : ∀ m, b.kind.marker? = some m → t.nests m = false ∧ texts.lookup m = none ∧ blocks.lookup m = none)
      (shown : t.shownTag b.kind.tag? = b.kind.tag?) (own : b.id ∉ spots ∧ b.id ∉ nested)

section

variable {t : Template A} {contents : Marker → List Top} {texts blocks : List (Marker × Forest Bare)}
  {spots nested : List NodeId}

/-- the first tree of a filled skeleton, before and after blocks are put in -/
inductive FirstFits (t : Template A) (contents : Marker → List Top) (spots nested : List NodeId) (tag : Option String)
    (x y : Forest Bare) : Prop
  | block (m : Marker) (marker : (tag.bind ofTag?).filter t.nests = some m) (tops : y.roots.map Node.top = contents m)
      (inside : ∀ n ∈ y.roots, n.id ∈ nested) (spot : ∀ n ∈ x.roots, n.id ∈ spots)
  | own (n : Bare) (marker : (tag.bind ofTag?).filter t.nests = none) (before : x.roots = [n]) (after : y.roots = [n])
      (shown : t.shownTag tag = n.kind.tag?) (own : n.id ∉ spots ∧ n.id ∉ nested)

theorem Fits.first {b : Bare} (h : Fits t contents texts blocks spots nested b) (cs : Forest Bare) :
    FirstFits t contents spots nested b.kind.tag? ((tree b cs).fillBy texts) ((tree b cs).fillBy (texts ++ blocks)) := by
  have hmarker : b.kind.tag?.bind ofTag? = b.kind.marker? := rfl
  cases h with
  | block m x marker nests free filled tops inside spot =>
    have hbefore : b.kind.marker?.bind (texts.lookup ·) = none := by rw [marker]; exact free
    have hafter : b.kind.marker?.bind ((texts ++ blocks).lookup ·) = some x := by
      rw [marker, Option.bind_some, List.lookup_append, free, Option.none_or, filled]
    rw [fillBy, fillBy, fill_tree_of_none hbefore, fill_tree_of_some hafter]
    refine .block m (by rw [hmarker, marker]; simp [nests]) tops inside fun n hn => ?_
    rw [List.mem_singleton.1 hn]
    exact spot
  | text m n marker nests filled shown plain own =>
    have hbefore : b.kind.marker?.bind (texts.lookup ·) = some (tree n nil) := by rw [marker]; exact filled
    have hafter : b.kind.marker?.bind ((texts ++ blocks).lookup ·) = some (tree n nil) := by
      rw [marker, Option.bind_some, List.lookup_append, filled, Option.some_or]
    rw [fillBy, fillBy, fill_tree_of_some hbefore, fill_tree_of_some hafter]
    exact .own n (by rw [hmarker, marker]; simp [nests]) rfl rfl (shown.trans plain.symm) own
  | plain free shown own =>
    have hbefore : b.kind.marker?.bind (texts.lookup ·) = none := by
      cases hm : b.kind.marker? with
      | none => rfl
      | some m => exact (free m hm).2.1
    have hafter : b.kind.marker?.bind ((texts ++ blocks).lookup ·) = none := by
      cases hm : b.kind.marker? with
      | none => rfl
      | some m => rw [Option.bind_some, List.lookup_append, (free m hm).2.1, Option.none_or, (free m hm).2.2]
    rw [fillBy, fillBy, fill_tree_of_none hbefore, fill_tree_of_none hafter]
    refine .own b ?_ rfl rfl shown own
    rw [hmarker]
    cases hm : b.kind.marker? with
    | none => rfl
    | some m => simp [(free m hm).1]

/-- **The top level of a filled skeleton.** -/
theorem Fits.tops {f : Forest Bare} (h : ∀ b ∈ f.roots, Fits t contents texts blocks spots nested b) :
    (f.fillBy (texts ++ blocks)).roots.map Node.top = t.weave contents (f.roots.map (·.kind.tag?))
      (((f.fillBy texts).roots.map Node.id).filter (· ∉ spots)) ∧
    ((f.fillBy (texts ++ blocks)).roots.map Node.id).filter (· ∉ nested) =
      ((f.fillBy texts).roots.map Node.id).filter (· ∉ spots) ∧
    (((f.fillBy texts).roots.map Node.id).filter (· ∉ spots)).length = (f.roots.map (·.kind.tag?)).countP t.owns := by
  induction f with
  | nil => exact ⟨rfl, rfl, rfl⟩
  | cons b cs rest _ ih =>
    rw [roots, List.forall_mem_cons] at h
    obtain ⟨htops, hown, hlength⟩ := ih h.2
    have hcons : ∀ fills : List (Marker × Forest Bare),
        ((cons b cs rest).fillBy fills).roots = ((tree b cs).fillBy fills).roots ++ (rest.fillBy fills).roots :=
      fun fills => by rw [fillBy, fill_cons, roots_append]; rfl
    rw [hcons, hcons, List.map_append, List.map_append, List.map_append, List.filter_append, List.filter_append, htops,
      hown, List.length_append, hlength, roots, List.map_cons, List.countP_cons, Template.weave, Template.owns]
    cases h.1.first cs with
    | block m marker tops inside spot =>
      have hspots : (((tree b cs).fillBy texts).roots.map Node.id).filter (· ∉ spots) = [] :=
        List.filter_eq_nil_iff.2 fun id hid => by
          obtain ⟨n, hn, rfl⟩ := List.mem_map.1 hid
          simpa using spot n hn
      have hnested : (((tree b cs).fillBy (texts ++ blocks)).roots.map Node.id).filter (· ∉ nested) = [] :=
        List.filter_eq_nil_iff.2 fun id hid => by
          obtain ⟨n, hn, rfl⟩ := List.mem_map.1 hid
          simpa using inside n hn
      rw [marker, hspots, hnested, tops]
      exact ⟨rfl, rfl, Nat.zero_add _⟩
    | own n marker before after shown own =>
      have hkept : ∀ {ids : List NodeId}, n.id ∉ ids → ([n].map Node.id).filter (· ∉ ids) = [n.id] := fun h => by
        simpa using h
      rw [marker, before, after, hkept own.1, hkept own.2, shown]
      exact ⟨rfl, rfl, Nat.add_comm _ _⟩

end

end LiveMarkup
