/-
Skeletons in a document.

A planted skeleton is a forest of nodes that carries the markers of the skeleton. What happens to it is said by two
functions: `attrs` changes the attributes of its nodes, and `fillBy` puts forests in the place of the nodes that are
markers. Both are taken of the skeleton as it was planted, in whatever order the changes were made.

- `carrier_unique`: a marker that the skeleton carries once is carried by one node;
- `fillBy_replace`: putting a forest in the place of a marker fills one more marker;
- `update_fillBy`, `update_attrs`: a change of one node, in a skeleton that is filled already;
- `toMarkup_planted`: a planted skeleton as markup, once its attributes are changed and its markers are filled.
-/
import LiveMarkup.Proofs.Template.Attributes
import LiveMarkup.Proofs.Document.Change

namespace LiveMarkup

open Markup Marker Forest

/-! ## Markers on live nodes -/

namespace Kind

/-- the element marker that a node is -/
def marker? (k : Kind) : Option Marker := k.tag?.bind ofTag?

/-- all markers that a node carries -/
def markers (k : Kind) : List Marker := k.marker?.toList ++ attributeMarkers k.attributes

/-- whether a search for a marker can stop at a node -/
def answers (m : Marker) (k : Kind) : Bool :=
  if m.category.inTag then (k.attributes.get? m.name).isSome else k.tag?.any (sameLetters · m.name)

theorem marker?_of_tag? {k l : Kind} (h : k.tag? = l.tag?) : k.marker? = l.marker? := by rw [marker?, marker?, h]

theorem mem_markers_of_marker? {k : Kind} {m : Marker} (h : k.marker? = some m) : m ∈ k.markers := by
  rw [markers, h]
  exact List.mem_cons_self

/-- a node that answers a search for an element marker is that marker -/
theorem marker?_of_answers {k : Kind} {m : Marker} (hc : m.category.inTag = false) (hm : m.index < indexLimit)
    (h : k.answers m = true) : k.marker? = some m := by
  rw [answers, hc, if_neg Bool.false_ne_true, Option.any_eq_true] at h
  obtain ⟨tag, ht, hs⟩ := h
  rw [marker?, ht, Option.bind_some]
  exact ofTag?_of_sameLetters hc hm hs

theorem answers_inTag {k : Kind} {m : Marker} (hc : m.category.inTag = true) :
    k.answers m = true ↔ m.name ∈ Entries.names k.attributes := by
  rw [answers, if_pos hc, Entries.get?_isSome_iff]

/-- a node that answers a search for a marker carries it -/
theorem mem_markers_of_answers {k : Kind} {m : Marker} (hm : m.index < indexLimit) (h : k.answers m = true) :
    m ∈ k.markers := by
  cases hc : m.category.inTag with
  | false => exact mem_markers_of_marker? (marker?_of_answers hc hm h)
  | true =>
    rw [answers_inTag hc] at h
    obtain ⟨a, ha, hn⟩ := List.mem_map.1 h
    refine List.mem_append_right _ (List.mem_filterMap.2 ⟨a, ha, ?_⟩)
    rw [hn]
    exact ofAttribute?_name hc hm

theorem answers_of_tag? {k l : Kind} {m : Marker} (hc : m.category.inTag = false) (h : k.tag? = l.tag?) :
    k.answers m = l.answers m := by
  simp only [answers, hc, h, Bool.false_eq_true, if_false]

end Kind

/-! ## Skeletons with other attributes -/

mutual
def furnishNode (α : Attributes → Attributes) (parts : List Part) : Markup.Node → List Markup.Node
  | .element tag attributes children =>
    match ofTag? tag with
    | some m => markerNodes parts m
    | none => [.element tag (α attributes) (furnishNodes α parts children)]
  | .text data => [.text data]
  | .comment data => [.comment data]
/-- a skeleton with the parts in place and its elements' attributes changed -/
def furnishNodes (α : Attributes → Attributes) (parts : List Part) : List Markup.Node → List Markup.Node
  | [] => []
  | n :: ns => furnishNode α parts n ++ furnishNodes α parts ns
end

mutual
def attributesOf : Markup.Node → List Attributes
  | .element _ attributes children => attributes :: attributesOfAll children
  | .text _ => []
  | .comment _ => []
/-- the attributes of a forest's elements -/
def attributesOfAll : List Markup.Node → List Attributes
  | [] => []
  | n :: ns => attributesOf n ++ attributesOfAll ns
end

section

variable {parts : List Part} {α : Attributes → Attributes}

mutual
theorem furnishNode_eq : (n : Markup.Node) → (∀ as ∈ attributesOf n, α as = fillAttributes (bindingOf? parts) as) →
    furnishNode α parts n = fillNode parts n
  | .element tag attributes children, h => by
    rw [attributesOf, List.forall_mem_cons] at h
    rw [furnishNode, fillNode]
    cases ofTag? tag with
    | some m => rfl
    | none => exact congrArg (fun n => [n]) (congrArg₂ (Markup.Node.element tag) h.1 (furnishNodes_eq children h.2))
  | .text _, _ => rfl
  | .comment _, _ => rfl
/-- a skeleton whose bound attributes are in place is filled -/
theorem furnishNodes_eq : (ns : List Markup.Node) →
    (∀ as ∈ attributesOfAll ns, α as = fillAttributes (bindingOf? parts) as) → furnishNodes α parts ns = fillNodes parts ns
  | [], _ => rfl
  | n :: ns, h => by
    rw [attributesOfAll, List.forall_mem_append] at h
    rw [furnishNodes, fillNodes, furnishNode_eq n h.1, furnishNodes_eq ns h.2]
end

end

namespace Forest

/-- a skeleton with ids from `id` on -/
def planted (ns : List Markup.Node) (id : NodeId) : Forest Bare := (Document.plant ns id).1

/-- a forest with the attributes of its nodes changed -/
def attrs (α : NodeId → Attributes → Attributes) (f : Forest Bare) : Forest Bare :=
  f.map fun n => n.mapKind (Kind.mapAttributes (α n.id))

/-- a forest with other forests in the place of its markers -/
def fillBy (fills : List (Marker × Forest Bare)) (f : Forest Bare) : Forest Bare :=
  f.fill fun n => n.kind.marker?.bind (fills.lookup ·)

/-- some node answers a search for a marker -/
def Has (f : Forest Bare) (m : Marker) : Prop := ∃ n ∈ f.labels, n.kind.answers m = true

/-- one node alone is this marker -/
structure Carrier (f : Forest Bare) (m : Marker) (n : Bare) : Prop where
  mem : n ∈ f.labels
  marker : n.kind.marker? = some m
  unique : ∀ k ∈ f.labels, k.kind.marker? = some m → k = n

/-! ## Changing attributes -/

section

variable (α : NodeId → Attributes → Attributes) (f : Forest Bare)

theorem labels_attrs : (f.attrs α).labels = f.labels.map fun n => n.mapKind (Kind.mapAttributes (α n.id)) :=
  labels_map _ f

theorem ids_attrs : (f.attrs α).ids = f.ids := by
  rw [ids, labels_attrs, List.map_map]
  rfl

theorem mem_labels_attrs {n : Bare} (h : n ∈ (f.attrs α).labels) :
    ∃ k ∈ f.labels, n = k.mapKind (Kind.mapAttributes (α k.id)) := by
  rw [labels_attrs] at h
  obtain ⟨k, hk, rfl⟩ := List.mem_map.1 h
  exact ⟨k, hk, rfl⟩

theorem attrs_id : f.attrs (fun _ as => as) = f := by
  have hmap : (fun n : Bare => n.mapKind (Kind.mapAttributes fun as => as)) = fun n => n := by
    funext n
    obtain ⟨id, kind, listeners, ticket⟩ := n
    cases kind <;> rfl
  rw [attrs, hmap]
  induction f with
  | nil => rfl
  | cons a cs rest ihc ihr => rw [map, ihc, ihr]

theorem attrs_congr {α β : NodeId → Attributes → Attributes} {f : Forest Bare}
    (h : ∀ n ∈ f.labels, α n.id n.kind.attributes = β n.id n.kind.attributes) : f.attrs α = f.attrs β := by
  induction f with
  | nil => rfl
  | cons a cs rest ihc ihr =>
    have hc := ihc fun n hn => h n (List.mem_cons_of_mem _ (List.mem_append_left _ hn))
    have hr := ihr fun n hn => h n (List.mem_cons_of_mem _ (List.mem_append_right _ hn))
    have ha : a.mapKind (Kind.mapAttributes (α a.id)) = a.mapKind (Kind.mapAttributes (β a.id)) := by
      have := h a List.mem_cons_self
      obtain ⟨id, kind, listeners, ticket⟩ := a
      cases kind with
      | element tag attributes => exact congrArg (fun as => (⟨id, .element tag as, listeners, ticket⟩ : Bare)) this
      | fragment => rfl
      | text data => rfl
      | comment data => rfl
    rw [attrs] at hc hr ⊢
    rw [map, hc, hr, ha]
    rfl

/-- changing the attributes of one node more -/
theorem update_attrs (el : NodeId) (g : Attributes → Attributes) :
    (f.attrs α).update (Document.isNode el) (Node.mapKind (Kind.mapAttributes g)) =
      f.attrs fun id as => if id = el then g (α id as) else α id as := by
  induction f with
  | nil => rfl
  | cons a cs rest ihc ihr =>
    have ha : (if Document.isNode el (a.mapKind (Kind.mapAttributes (α a.id))) then
        (a.mapKind (Kind.mapAttributes (α a.id))).mapKind (Kind.mapAttributes g)
        else a.mapKind (Kind.mapAttributes (α a.id))) =
        a.mapKind (Kind.mapAttributes fun as => if a.id = el then g (α a.id as) else α a.id as) := by
      by_cases h : a.id = el
      · have hpick : Document.isNode el (a.mapKind (Kind.mapAttributes (α a.id))) = true := Document.isNode_iff.2 h
        rw [if_pos hpick]
        simp only [h, if_true]
        obtain ⟨id, kind, listeners, ticket⟩ := a
        cases kind <;> rfl
      · have hpick : Document.isNode el (a.mapKind (Kind.mapAttributes (α a.id))) = false :=
          Document.isNode_eq_false_iff.2 h
        rw [hpick]
        simp only [h, if_false, Bool.false_eq_true]
    rw [attrs] at ihc ihr ⊢
    rw [map, update, ihc, ihr, ha]
    rfl

end

/-! ## Filling markers -/

section

variable {fills : List (Marker × Forest Bare)} {f : Forest Bare}

theorem mem_of_lookup {m : Marker} {x : Forest Bare} (h : fills.lookup m = some x) : (m, x) ∈ fills := by
  obtain ⟨l, r, rfl, -⟩ := List.lookup_eq_some_iff.1 h
  exact List.mem_append_right _ List.mem_cons_self

theorem fillBy_nil (f : Forest Bare) : f.fillBy [] = f := fill_of_none fun n _ => by cases n.kind.marker? <;> rfl

theorem mem_labels_fillBy {n : Bare} (h : n ∈ (f.fillBy fills).labels) :
    n ∈ f.labels ∨ ∃ e ∈ fills, n ∈ e.2.labels := by
  rcases mem_labels_fill h with ⟨h, -⟩ | ⟨k, -, x, hx, h⟩
  · exact .inl h
  · obtain ⟨m, -, hm⟩ := Option.bind_eq_some_iff.1 hx
    exact .inr ⟨(m, x), mem_of_lookup hm, h⟩

theorem ids_fillBy {id : NodeId} (h : id ∈ (f.fillBy fills).ids) : id ∈ f.ids ∨ ∃ e ∈ fills, id ∈ e.2.ids := by
  obtain ⟨n, hn, rfl⟩ := List.mem_map.1 h
  rcases mem_labels_fillBy hn with hn | ⟨e, he, hn⟩
  · exact .inl (mem_ids_of_mem hn)
  · exact .inr ⟨e, he, mem_ids_of_mem hn⟩

theorem replace_of_not_mem {id : NodeId} (h : id ∉ f.ids) (x : Forest Bare) : f.replace id x = f :=
  fill_of_none fun n hn => by rw [Document.isNode_of_not_mem h n hn]; rfl

/-- putting a forest in the place of a marker fills one more marker -/
theorem fillBy_replace {m : Marker} {n : Bare} (hn : f.Carrier m n) (hids : f.ids.Nodup) (hl : fills.lookup m = none)
    (hf : ∀ e ∈ fills, n.id ∉ e.2.ids) (x : Forest Bare) :
    (f.fillBy fills).replace n.id x = f.fillBy (fills ++ [(m, x)]) := by
  rw [fillBy, replace, fill_fill]
  refine fill_congr fun a ha => ?_
  cases hk : a.kind.marker? with
  | none =>
    have hne : Document.isNode n.id a = false := Document.isNode_eq_false_iff.2 fun e => by
      rw [List.inj_on_of_nodup_map hids ha hn.mem e, hn.marker] at hk
      cases hk
    rw [hne]
    rfl
  | some k =>
    rw [Option.bind_some, Option.bind_some, List.lookup_append]
    by_cases hkm : k = m
    · subst hkm
      rw [hl, hn.unique a ha hk]
      dsimp only
      rw [if_pos (Document.isNode_iff.2 rfl), List.lookup_cons_self]
      rfl
    · have hne : Document.isNode n.id a = false := Document.isNode_eq_false_iff.2 fun e => by
        rw [List.inj_on_of_nodup_map hids ha hn.mem e, hn.marker] at hk
        exact hkm (Option.some.inj hk).symm
      have hone : [(m, x)].lookup k = none := by
        rw [List.lookup_cons, beq_false_of_ne hkm]
        rfl
      rw [hone, hne]
      cases hy : fills.lookup k with
      | none => rfl
      | some y =>
        have := hf _ (mem_of_lookup hy)
        exact congrArg some (replace_of_not_mem this x)

/-- changing one node of a filled forest changes it where it is -/
theorem update_fillBy {g : Kind → Kind} (hg : ∀ k, (g k).tag? = k.tag?) (id : NodeId) :
    (f.fillBy fills).update (Document.isNode id) (Node.mapKind g) =
      (f.update (Document.isNode id) (Node.mapKind g)).fillBy
        (fills.map fun e => (e.1, e.2.update (Document.isNode id) (Node.mapKind g))) := by
  rw [fillBy, update_fill]
  · refine fill_congr fun a _ => ?_
    cases a.kind.marker? with
    | none => rfl
    | some m =>
      rw [Option.bind_some, Option.bind_some]
      induction fills with
      | nil => rfl
      | cons e fills ih =>
        obtain ⟨k, x⟩ := e
        rw [List.map_cons, List.lookup_cons, List.lookup_cons]
        cases m == k with
        | true => rfl
        | false => exact ih
  · intro a
    split
    · exact congrArg (fun o => Option.bind o (fills.lookup ·)) (Kind.marker?_of_tag? (hg a.kind))
    · rfl

end

/-! ## Planted skeletons -/

/-- what two places give, a list gives at least twice -/
theorem two_le_count_flatMap {α β : Type} [BEq β] [LawfulBEq β] {l : List α} {f : α → List β} {a b : α} {m : β}
    (ha : a ∈ l) (hb : b ∈ l) (hne : a ≠ b) (hma : m ∈ f a) (hmb : m ∈ f b) : 2 ≤ (l.flatMap f).count m := by
  have hone : ∀ {c : α} {l : List α}, c ∈ l → m ∈ f c → 1 ≤ (l.flatMap f).count m := fun hc hm =>
    List.one_le_count_iff.2 (List.mem_flatMap.2 ⟨_, hc, hm⟩)
  induction l with
  | nil => cases ha
  | cons c l ih =>
    rw [List.flatMap_cons, List.count_append]
    rcases List.mem_cons.1 ha with hac | hac <;> rcases List.mem_cons.1 hb with hbc | hbc
    · exact absurd (hac.trans hbc.symm) hne
    · have h1 := List.one_le_count_iff.2 (hac ▸ hma)
      have h2 := hone hbc hmb
      omega
    · have h1 := List.one_le_count_iff.2 (hbc ▸ hmb)
      have h2 := hone hac hma
      omega
    · have := ih hac hbc
      omega

mutual
theorem markers_plantNode : (n : Markup.Node) → (id : NodeId) →
    (Document.plant.plantNode (L := Empty) n id).1.labels.flatMap (fun k => k.kind.markers) = markersOf n
  | .element tag attributes children, id => by
    have ih := markers_planted children (id + 1)
    rw [planted] at ih
    rw [Document.plant.plantNode, labels_tree, List.flatMap_cons, ih, markersOf]
    rfl
  | .text _, _ => rfl
  | .comment _, _ => rfl
/-- a planted skeleton carries the markers of the skeleton, in their order -/
theorem markers_planted : (ns : List Markup.Node) → (id : NodeId) →
    (planted ns id).labels.flatMap (fun k => k.kind.markers) = markersOfAll ns
  | [], _ => rfl
  | n :: ns, id => by
    have ih := markers_planted ns (Document.plant.plantNode (L := Empty) n id).2
    rw [planted] at ih
    rw [planted, Document.plant, labels_append, List.flatMap_append, markers_plantNode n id, ih, markersOfAll]
end

section

variable {ns : List Markup.Node} {id : NodeId} {m : Marker}

theorem nodup_planted (ns : List Markup.Node) (id : NodeId) : (planted ns id).ids.Nodup := by
  rw [planted, (plant_ids ns id).2]
  exact List.nodup_range'

/-- a marker that the skeleton carries once is carried by one node -/
theorem carrier_unique (hc : (markersOfAll ns).count m = 1) {a b : Bare} (ha : a ∈ (planted ns id).labels)
    (hb : b ∈ (planted ns id).labels) (hma : m ∈ a.kind.markers) (hmb : m ∈ b.kind.markers) : a = b := by
  by_contra hne
  have := two_le_count_flatMap (f := fun k : Bare => k.kind.markers) ha hb hne hma hmb
  rw [markers_planted, hc] at this
  omega

theorem exists_carrier (id : NodeId) (hm : m ∈ markersOfAll ns) :
    ∃ n ∈ (planted ns id).labels, m ∈ n.kind.markers := by
  rw [← markers_planted ns id] at hm
  exact List.mem_flatMap.1 hm

theorem index_lt_of_mem (hm : m ∈ markersOfAll ns) : m.index < indexLimit := by
  obtain ⟨n, -, hn⟩ := exists_carrier 0 hm
  rcases List.mem_append.1 hn with hn | hn
  · rw [Option.mem_toList, Kind.marker?, Option.bind_eq_some_iff] at hn
    obtain ⟨tag, -, ht⟩ := hn
    exact index_lt_of_ofTag? ht
  · obtain ⟨a, -, ha⟩ := List.mem_filterMap.1 hn
    exact index_lt_of_ofAttribute? ha

/-- the node that a marker's name leads to is the marker -/
theorem carrier_of_answers (hc : (markersOfAll ns).count m = 1) (ht : m.category.inTag = false) {n : Bare}
    (hn : n ∈ (planted ns id).labels) (ha : n.kind.answers m = true) : (planted ns id).Carrier m n := by
  have hlt : m.index < indexLimit := index_lt_of_mem (List.one_le_count_iff.1 (Nat.le_of_eq hc.symm))
  have hmark := Kind.marker?_of_answers ht hlt ha
  refine ⟨hn, hmark, fun k hk hkm => ?_⟩
  exact carrier_unique hc hk hn (Kind.mem_markers_of_marker? hkm) (Kind.mem_markers_of_marker? hmark)

end

/-! ## Clean skeletons -/

mutual
theorem leaf_plantNode : (n : Markup.Node) → (id : NodeId) → n.Clean →
    ∀ t ∈ (Document.plant.plantNode (L := Empty) n id).1.subtrees, t.1.kind.marker? ≠ none →
      t.1.kind.attributes = [] ∧ t.2 = nil
  | .element tag attributes children, id, ⟨hm, _, hc⟩ => by
    intro t ht hne
    rw [Document.plant.plantNode, tree, subtrees, subtrees, List.append_nil] at ht
    rcases List.mem_cons.1 ht with rfl | ht
    · obtain ⟨m, hmark⟩ := Option.ne_none_iff_exists'.1 hne
      obtain ⟨-, rfl, rfl⟩ := hm m hmark
      exact ⟨rfl, rfl⟩
    · exact leaf_planted children (id + 1) hc t ht hne
  | .text _, _, _ => by
    intro t ht hne
    cases List.mem_singleton.1 ht
    exact absurd rfl hne
  | .comment _, _, _ => by
    intro t ht hne
    cases List.mem_singleton.1 ht
    exact absurd rfl hne
/-- in a clean skeleton, markers have no attributes and nothing is below them -/
theorem leaf_planted : (ns : List Markup.Node) → (id : NodeId) → Clean ns →
    ∀ t ∈ (planted ns id).subtrees, t.1.kind.marker? ≠ none → t.1.kind.attributes = [] ∧ t.2 = nil
  | [], _, _ => fun _ ht => absurd ht List.not_mem_nil
  | n :: ns, id, ⟨hn, hns⟩ => by
    intro t ht hne
    rw [planted, Document.plant, subtrees_append] at ht
    rcases List.mem_append.1 ht with ht | ht
    · exact leaf_plantNode n id hn t ht hne
    · exact leaf_planted ns _ hns t ht hne
end

mutual
theorem clean_plantNode : (n : Markup.Node) → (id : NodeId) → n.Clean →
    ∀ k ∈ (Document.plant.plantNode (L := Empty) n id).1.labels, CleanAttributes k.kind.attributes
  | .element tag attributes children, id, ⟨_, ha, hc⟩ => by
    intro k hk
    rw [Document.plant.plantNode, labels_tree] at hk
    rcases List.mem_cons.1 hk with rfl | hk
    · exact ha
    · exact clean_planted children (id + 1) hc k hk
  | .text _, _, _ => by
    intro k hk
    cases List.mem_singleton.1 hk
    exact fun a h => absurd h List.not_mem_nil
  | .comment _, _, _ => by
    intro k hk
    cases List.mem_singleton.1 hk
    exact fun a h => absurd h List.not_mem_nil
/-- in a clean skeleton, markers among attributes have their exact names -/
theorem clean_planted : (ns : List Markup.Node) → (id : NodeId) → Clean ns →
    ∀ k ∈ (planted ns id).labels, CleanAttributes k.kind.attributes
  | [], _, _ => fun _ hk => absurd hk List.not_mem_nil
  | n :: ns, id, ⟨hn, hns⟩ => by
    intro k hk
    rw [planted, Document.plant, labels_append] at hk
    rcases List.mem_append.1 hk with hk | hk
    · exact clean_plantNode n id hn k hk
    · exact clean_planted ns _ hns k hk
end

section

variable {fills : List (Marker × Forest Bare)}

/-- where nothing is below markers, everything that is put in the place of a node is there in the end -/
theorem mem_ids_fillBy {f : Forest Bare} (hleaf : ∀ t ∈ f.subtrees, t.1.kind.marker? ≠ none → t.2 = nil) {n : Bare}
    (hn : n ∈ f.labels) {id : NodeId} (hid : id ∈ ((tree n nil).fillBy fills).ids) : id ∈ (f.fillBy fills).ids := by
  induction f with
  | nil => cases hn
  | cons a cs rest ihc ihr =>
    rw [subtrees, List.forall_mem_cons] at hleaf
    obtain ⟨ha, hleaf⟩ := hleaf
    have hcs := ihc fun t ht => hleaf t (List.mem_append_left _ ht)
    have hrest := ihr fun t ht => hleaf t (List.mem_append_right _ ht)
    rw [fillBy, fill_cons, ids_append, List.mem_append]
    rw [labels, List.mem_cons, List.mem_append] at hn
    cases hx : a.kind.marker?.bind (fills.lookup ·) with
    | some x =>
      have hcsnil : cs = nil := ha fun hm => by
        rw [hm] at hx
        cases hx
      subst hcsnil
      rcases hn with rfl | hn | hn
      · exact .inl hid
      · cases hn
      · exact .inr (hrest hn)
    | none =>
      rw [fill_tree_of_none hx, ids_tree]
      rcases hn with rfl | hn | hn
      · rw [fillBy, fill_tree_of_none hx, ids_tree] at hid
        obtain rfl := List.mem_singleton.1 hid
        exact .inl List.mem_cons_self
      · exact .inl (List.mem_cons_of_mem _ (hcs hn))
      · exact .inr (hrest hn)

variable {ns : List Markup.Node} {start : NodeId} (α : NodeId → Attributes → Attributes)

/-- what is put in the place of a node of a clean skeleton is there in the end -/
theorem mem_ids_planted (hc : Clean ns) {n : Bare} (hn : n ∈ (planted ns start).labels) {id : NodeId}
    (hid : id ∈ ((tree (n.mapKind (Kind.mapAttributes (α n.id))) nil).fillBy fills).ids) :
    id ∈ (((planted ns start).attrs α).fillBy fills).ids := by
  refine mem_ids_fillBy (fun t ht hm => ?_) ?_ hid
  · rw [attrs, subtrees_map] at ht
    obtain ⟨s, hs, rfl⟩ := List.mem_map.1 ht
    have hmark : s.1.kind.marker? ≠ none := by
      rwa [← Kind.marker?_of_tag? (Kind.tag?_mapAttributes (α s.1.id) s.1.kind)]
    rw [(leaf_planted ns start hc s hs hmark).2]
    rfl
  · rw [labels_attrs]
    exact List.mem_map_of_mem (f := fun n : Bare => n.mapKind (Kind.mapAttributes (α n.id))) hn

/-- in a clean skeleton, a node with attributes is not replaced -/
theorem mem_ids_of_attribute (hc : Clean ns) {n : Bare} (hn : n ∈ (planted ns start).labels)
    (ha : n.kind.attributes ≠ []) : n.id ∈ (((planted ns start).attrs α).fillBy fills).ids := by
  obtain ⟨cs, hcs⟩ := exists_subtree hn
  have hmark : n.kind.marker? = none := by
    by_contra hm
    exact ha (leaf_planted ns start hc _ hcs hm).1
  refine mem_ids_planted α hc hn ?_
  have hnone : (n.mapKind (Kind.mapAttributes (α n.id))).kind.marker?.bind (fills.lookup ·) = none := by
    rw [Node.mapKind, Kind.marker?_of_tag? (Kind.tag?_mapAttributes _ n.kind), hmark]
    rfl
  rw [fillBy, fill_tree_of_none hnone, ids_tree]
  exact List.mem_cons_self

/-- in a clean skeleton, what is filled in for a marker is there in the end -/
theorem mem_ids_of_marker (hc : Clean ns) {m : Marker} (hm : m ∈ markersOfAll ns) (ht : m.category.inTag = false)
    {x : Forest Bare} (hx : fills.lookup m = some x) {id : NodeId} (hid : id ∈ x.ids) :
    id ∈ (((planted ns start).attrs α).fillBy fills).ids := by
  obtain ⟨n, hn, hmn⟩ := exists_carrier start hm
  have hmark : n.kind.marker? = some m := by
    rcases List.mem_append.1 hmn with h | h
    · exact Option.mem_toList.1 h
    · obtain ⟨a, -, ha⟩ := List.mem_filterMap.1 h
      have := (ofAttribute?_eq_some_iff.1 ha).1
      rw [ht] at this
      cases this
  refine mem_ids_planted α hc hn ?_
  have hsome : (n.mapKind (Kind.mapAttributes (α n.id))).kind.marker?.bind (fills.lookup ·) = some x := by
    rw [Node.mapKind, Kind.marker?_of_tag? (Kind.tag?_mapAttributes _ n.kind), hmark]
    exact hx
  rw [fillBy, fill_tree_of_some hsome]
  exact hid

end

/-! ## Reading back -/

theorem toMarkup_bare {L : Type} (f : Forest (Node L)) : f.bare.toMarkup = f.toMarkup := by
  induction f with
  | nil => rfl
  | cons n cs rest ihc ihr =>
    rw [bare] at ihc ihr ⊢
    rw [map, toMarkup, toMarkup, ihc, ihr]
    rfl

section

variable {parts : List Part} {α : Attributes → Attributes} {fills : List (Marker × Forest Bare)}

mutual
theorem toMarkup_plantNode : (n : Markup.Node) → (id : NodeId) →
    (∀ m ∈ markersOf n, m.category.inTag = false → ∃ x, fills.lookup m = some x ∧ x.toMarkup = markerNodes parts m) →
      (((Document.plant.plantNode n id).1.attrs fun _ => α).fillBy fills).toMarkup = furnishNode α parts n
  | .element tag attributes children, id, hf => by
    rw [Document.plant.plantNode, furnishNode]
    cases hmark : ofTag? tag with
    | some m =>
      have hin : m ∈ markersOf (.element tag attributes children) := by
        rw [markersOf, hmark]
        exact List.mem_cons_self
      obtain ⟨x, hx, hxm⟩ := hf m hin (ofTag?_eq_some_iff.1 hmark).1
      rw [fillBy, attrs, tree, map]
      refine (congrArg toMarkup (fill_tree_of_some (x := x) ?_ _)).trans hxm
      show (ofTag? tag).bind (fills.lookup ·) = some x
      rw [hmark]
      exact hx
    | none =>
      have ih := toMarkup_planted children (id + 1) fun m hm => hf m (by
        rw [markersOf]
        exact List.mem_append_right _ hm)
      have hnone : (Kind.element tag (α attributes)).marker?.bind (fills.lookup ·) = none := by
        show (ofTag? tag).bind (fills.lookup ·) = none
        rw [hmark]
        rfl
      rw [fillBy, attrs, tree, map]
      refine (congrArg toMarkup (fill_tree_of_none hnone _)).trans ?_
      rw [planted, attrs, fillBy] at ih
      show [Markup.Node.element tag (α attributes) (toMarkup _)] = _
      rw [← ih]
  | .text data, id, _ => rfl
  | .comment data, id, _ => rfl
/-- a planted skeleton whose attributes were changed and whose markers are filled, as markup -/
theorem toMarkup_planted : (ns : List Markup.Node) → (id : NodeId) →
    (∀ m ∈ markersOfAll ns, m.category.inTag = false →
      ∃ x, fills.lookup m = some x ∧ x.toMarkup = markerNodes parts m) →
      (((planted ns id).attrs fun _ => α).fillBy fills).toMarkup = furnishNodes α parts ns
  | [], _, _ => rfl
  | n :: ns, id, hf => by
    rw [markersOfAll] at hf
    have h1 := toMarkup_plantNode n id fun m hm => hf m (List.mem_append_left _ hm)
    have h2 := toMarkup_planted ns (Document.plant.plantNode (L := Empty) n id).2 fun m hm =>
      hf m (List.mem_append_right _ hm)
    rw [planted] at h2
    rw [planted, Document.plant, attrs, map_append, fillBy, fill_append, toMarkup_append, furnishNodes]
    exact congrArg₂ _ h1 h2
end

end

end Forest

end LiveMarkup
