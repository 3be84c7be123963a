/-
What binding needs, and what it leaves.

Binding needs the markers of slots and children too. Whether all of them are found is said of the template alone, by
`Template.Findable`. If the skeleton is sound, each element has in the end what its cells say.

- `World.spots_spec`: the markers of a category are found, or one of them is not there;
- `Waits.located_iff`: all markers of a waiting component are found if and only if its template is findable;
- `Celled.settled`: the attributes that the changes of a component come to.
-/
import LiveMarkup.Proofs.Component.Bind
import LiveMarkup.Proofs.Template.Findable

namespace LiveMarkup

open Markup Marker Forest

variable {H : Host}

/-! ## Spots -/

/-- the markers of a category are found, each at a node that answers it, or one of them is not there -/
theorem World.spots_spec {w : World H} (hb : w.backend = .faithful) {r : Bare} {Y R : Forest Bare}
    (hw : w.document.Holds (tree r Y ++ R)) (category : Category) (is : List Nat) :
    (∃ spots, w.spots r.id category is = .ok spots ∧ spots.map (·.1) = is ∧
        ∀ e ∈ spots, ∃ n ∈ Y.labels, n.id = e.2 ∧ n.kind.answers ⟨category, e.1⟩ = true) ∨
      (∃ fault, w.spots r.id category is = .error fault) ∧ ∃ i ∈ is, ¬ Y.Has ⟨category, i⟩ := by
  induction is with
  | nil => exact .inl ⟨[], rfl, rfl, fun _ h => absurd h List.not_mem_nil⟩
  | cons i is ih =>
    rw [World.spots]
    rcases World.marker_cases hb hw ⟨category, i⟩ with ⟨hm, hno⟩ | ⟨n, hn, ha, hm⟩
    · rw [hm]
      exact .inr ⟨⟨_, rfl⟩, i, List.mem_cons_self, hno⟩
    · rw [hm]
      rcases ih with ⟨spots, hspots, his, hall⟩ | ⟨⟨fault, herr⟩, j, hj, hno⟩
      · rw [hspots]
        exact .inl ⟨(i, n.id) :: spots, rfl, congrArg (i :: ·) his, List.forall_mem_cons.2 ⟨⟨n, hn, rfl, ha⟩, hall⟩⟩
      · rw [herr]
        exact .inr ⟨⟨fault, rfl⟩, j, List.mem_cons_of_mem _ hj, hno⟩

/-- element markers do not depend on attributes -/
theorem Forest.has_attrs {m : Marker} (hm : m.category.inTag = false) (fills : List (Marker × Forest Bare))
    (α : NodeId → Attributes → Attributes) (f : Forest Bare) : ((f.attrs α).fillBy fills).Has m ↔ (f.fillBy fills).Has m := by
  induction f with
  | nil => exact Iff.rfl
  | cons a cs rest ihc ihr =>
    have htag : (a.mapKind (Kind.mapAttributes (α a.id))).kind.tag? = a.kind.tag? := Kind.tag?_mapAttributes _ _
    have hmarker := Kind.marker?_of_tag? htag
    rw [attrs] at ihc ihr ⊢
    rw [Forest.map, fillBy, fillBy, fill_cons, fill_cons, has_append, has_append]
    refine or_congr ?_ ihr
    cases hx : a.kind.marker?.bind (fills.lookup ·) with
    | some x =>
      have hx' : (a.mapKind (Kind.mapAttributes (α a.id))).kind.marker?.bind (fills.lookup ·) = some x := by
        rw [hmarker]
        exact hx
      rw [fill_tree_of_some hx', fill_tree_of_some hx]
    | none =>
      have hx' : (a.mapKind (Kind.mapAttributes (α a.id))).kind.marker?.bind (fills.lookup ·) = none := by
        rw [hmarker]
        exact hx
      rw [fill_tree_of_none hx', fill_tree_of_none hx, has_tree, has_tree, Kind.answers_of_tag? hm htag]
      exact or_congr_right ihc

/-! ## Which markers are found -/

/-- what holds of each element of a list and of what is before it -/
theorem forall_split_cons {α : Type} {P : List α → α → Prop} {a : α} {l : List α} :
    (∀ pre x post, a :: l = pre ++ x :: post → P pre x) ↔
      P [] a ∧ ∀ pre x post, l = pre ++ x :: post → P (a :: pre) x := by
  constructor
  · exact fun h => ⟨h [] a l rfl, fun pre x post he => h (a :: pre) x post (by rw [he]; rfl)⟩
  · rintro ⟨h, hrest⟩ pre x post he
    cases pre with
    | nil =>
      obtain ⟨rfl, -⟩ := List.cons.inj he
      exact h
    | cons d pre =>
      rw [List.cons_append] at he
      obtain ⟨rfl, hl⟩ := List.cons.inj he
      exact hrest pre x post hl

theorem forall_split_nil {α : Type} {P : List α → α → Prop} : ∀ pre x post, ([] : List α) = pre ++ x :: post → P pre x := by
  intro pre x post h
  have := congrArg List.length h
  simp at this

/-- each text marker is found once those before it are gone -/
theorem textsFound_iff {data : String → String} {ns : List Markup.Node} {start : NodeId} {done cells : List TextCell} :
    TextsFound data ns start done cells ↔ ∀ pre cell post, cells = pre ++ cell :: post →
      ((planted ns start).fillBy ((done ++ pre).map (TextCell.fill data))).Has ⟨.text, cell.index⟩ := by
  induction cells generalizing done with
  | nil => exact ⟨fun _ => forall_split_nil, fun _ => trivial⟩
  | cons cell cells ih =>
    rw [TextsFound, ih, forall_split_cons, List.append_nil]
    simp only [List.append_assoc, List.singleton_append]

/-- each marker is found after the changes before it -/
theorem allFound_iff {f : Forest Bare} {done cs : List Change} :
    AllFound f done cs ↔ ∀ pre c post, cs = pre ++ c :: post → Found f (done ++ pre) c.marker := by
  induction cs generalizing done with
  | nil => exact ⟨fun _ => forall_split_nil, fun _ => trivial⟩
  | cons c cs ih =>
    rw [AllFound, ih, forall_split_cons, List.append_nil]
    simp only [List.append_assoc, List.singleton_append]

namespace Core

variable {c : Core H} {fragment : NodeId} {row : List (Kid H)}

theorem Celled.mem_texts (h : c.Celled) {k : Marker} : (k ∈ markersFor 0 c.template.placeholders ∧ k.category = .text) ↔
    ∃ cell ∈ c.textCells, k = ⟨.text, cell.index⟩ := by
  rw [mem_markersFor_zero]
  constructor
  · rintro ⟨⟨p, hp, hc⟩, hk⟩
    obtain ⟨category, index⟩ := k
    obtain rfl : category = .text := hk
    cases p with
    | text prop =>
      obtain ⟨cell, hcell, rfl, -⟩ := h.exists_text hp
      exact ⟨cell, hcell, rfl⟩
    | _ => cases hc
  · rintro ⟨cell, hcell, rfl⟩
    exact ⟨⟨_, h.text hcell, rfl⟩, rfl⟩

/-- what a search comes to when the texts before it are in place -/
theorem Celled.has_iff (h : c.Celled) (start : NodeId) {m : Marker} {pre : List TextCell}
    (hpre : ∀ cell, cell ∈ pre ↔ cell ∈ c.textCells ∧ (m.category = .text → cell.index < m.index)) :
    ((planted c.template.skeleton start).fillBy (pre.map (TextCell.fill c.props.text))).Has m ↔
      Offers (c.template.GoneBefore m) m c.template.skeleton := by
  refine has_fillBy_planted (fun k => ?_) (TextCell.not_has_fill pre m) _ _
  rw [Template.GoneBefore, ← and_assoc, h.mem_texts, ne_eq, List.lookup_eq_none_iff]
  constructor
  · rintro ⟨⟨cell, hc, rfl⟩, hlt⟩ hall
    have := hall _ (List.mem_map_of_mem (f := TextCell.fill c.props.text) ((hpre cell).2 ⟨hc, hlt⟩))
    exact ne_of_beq_false (Bool.not_eq_true' _ ▸ this) rfl
  · intro hne
    by_contra hno
    refine hne fun e he => ?_
    obtain ⟨cell, hc, rfl⟩ := List.mem_map.1 he
    obtain ⟨hc, hlt⟩ := (hpre cell).1 hc
    refine bne_iff_ne.2 fun hk => hno ⟨⟨cell, hc, hk⟩, fun ht => ?_⟩
    rw [hk]
    exact hlt ht

theorem Celled.has_skeletonWithTexts (h : c.Celled) (start : NodeId) {m : Marker} (hm : m.category ≠ .text) :
    (c.skeletonWithTexts start).Has m ↔ Offers (c.template.GoneBefore m) m c.template.skeleton :=
  h.has_iff start fun _ => (and_iff_left fun ht => absurd ht hm).symm

theorem Celled.sorted_texts (h : c.Celled) : (c.textCells.map (·.index)).Pairwise (· < ·) := by
  have := sorted_spotsOf Placeholder.text? 0 c.template.placeholders
  rwa [← h.texts, List.map_map] at this

theorem Celled.sorted_attributes (h : c.Celled) : (c.attributeCells.map (·.index)).Pairwise (· < ·) := by
  have := sorted_spotsOf Placeholder.attribute? 0 c.template.placeholders
  rwa [← h.attributes, List.map_map] at this

/-- all text markers are found -/
theorem Celled.textsFound_iff (h : c.Celled) (start : NodeId) :
    TextsFound c.props.text c.template.skeleton start [] c.textCells ↔
      ∀ m ∈ markersFor 0 c.template.placeholders, m.category = .text →
        Offers (c.template.GoneBefore m) m c.template.skeleton := by
  have hpre : ∀ {pre cell post}, c.textCells = pre ++ cell :: post →
      ∀ d, d ∈ pre ↔ d ∈ c.textCells ∧ ((⟨.text, cell.index⟩ : Marker).category = .text → d.index < cell.index) := by
    intro pre cell post he d
    have hsorted := h.sorted_texts
    rw [he] at hsorted ⊢
    rw [mem_before_iff hsorted]
    exact and_congr_right fun _ => ⟨fun hlt _ => hlt, fun hlt => hlt rfl⟩
  rw [LiveMarkup.textsFound_iff]
  constructor
  · intro hall m hm hc
    obtain ⟨cell, hcell, rfl⟩ := h.mem_texts.1 ⟨hm, hc⟩
    obtain ⟨pre, post, he⟩ := List.append_of_mem hcell
    exact (h.has_iff start (hpre he)).1 (hall pre cell post he)
  · intro hall pre cell post he
    have hcell : cell ∈ c.textCells := by
      rw [he]
      exact List.mem_append_right _ List.mem_cons_self
    obtain ⟨hm, hc⟩ := h.mem_texts.2 ⟨cell, hcell, rfl⟩
    exact (h.has_iff start (hpre he)).2 (hall _ hm hc)

/-- the attributes that are bound before a marker's turn -/
theorem Celled.bind_before (h : c.Celled) {pre post : List Change} {d : Change} (he : c.changes = pre ++ d :: post)
    {cell : AttributeCell} (hcell : cell ∈ c.attributeCells) :
    Change.bind cell ∈ pre ↔ (d.marker.category = .attribute → cell.index < d.marker.index) := by
  have hd : ∀ d ∈ Change.drops .event 0 c.template.placeholders ++ Change.drops .action 0 c.template.placeholders,
      d.marker.category ≠ .attribute := by
    intro d hd hc
    rw [drops_eq, drops_eq] at hd
    rcases List.mem_append.1 hd with hd | hd <;>
    · obtain ⟨i, -, rfl⟩ := List.mem_map.1 hd
      cases hc
  have hin : Change.bind cell ∈ c.attributeCells.map Change.bind := List.mem_map_of_mem hcell
  rw [Core.changes] at he
  rcases List.append_eq_append_iff.1 he with ⟨rest, hpre, hrest⟩ | ⟨rest, hcells, hrest⟩
  · -- the marker is dropped, and all attributes are bound
    have hdd := hd d (by rw [hrest]; exact List.mem_append_right _ List.mem_cons_self)
    rw [hpre]
    exact ⟨fun _ hc => absurd hc hdd, fun _ => List.mem_append_left _ hin⟩
  · cases rest with
    | nil =>
      rw [List.append_nil] at hcells
      have hdd := hd d (by rw [← List.nil_append (_ ++ _), ← hrest]; exact List.mem_cons_self)
      rw [← hcells]
      exact ⟨fun _ hc => absurd hc hdd, fun _ => hin⟩
    | cons e rest =>
      obtain ⟨rfl, -⟩ := List.cons.inj hrest
      have hsorted : ((pre ++ d :: rest).map (·.marker.index)).Pairwise (· < ·) := by
        rw [← hcells, List.map_map]
        exact h.sorted_attributes
      have hdc : d.marker.category = .attribute := by
        have hin : d ∈ c.attributeCells.map Change.bind := by
          rw [hcells]
          exact List.mem_append_right _ List.mem_cons_self
        obtain ⟨cell, -, rfl⟩ := List.mem_map.1 hin
        rfl
      rw [mem_before_iff hsorted, ← hcells]
      exact ⟨fun hlt _ => hlt.2, fun hlt => ⟨hin, hlt hdc⟩⟩

/-- a bound attribute brings a marker's name back before its turn -/
theorem Celled.restores_iff (h : c.Celled) {pre post : List Change} {d : Change} (he : c.changes = pre ++ d :: post)
    (hd : d.marker.category.inTag = true) : (∃ e ∈ pre, d.marker.name ∈ e.adds) ↔ c.template.Restores d.marker := by
  constructor
  · rintro ⟨e, hep, hadd⟩
    have hec : e ∈ c.changes := by
      rw [he]
      exact List.mem_append_left _ hep
    rcases List.mem_append.1 hec with hin | hin
    · obtain ⟨cell, hcell, rfl⟩ := List.mem_map.1 hin
      have hname : d.marker.name = cell.name := List.mem_singleton.1 hadd
      refine ⟨hd, cell.index, cell.prop, ?_, (h.bind_before he hcell).1 hep⟩
      rw [hname]
      exact h.attribute hcell
    · rw [drops_eq, drops_eq] at hin
      rcases List.mem_append.1 hin with hin | hin <;>
      · obtain ⟨i, -, rfl⟩ := List.mem_map.1 hin
        cases hadd
  · rintro ⟨-, j, prop, hj, hlt⟩
    obtain ⟨cell, hcell, rfl, rfl, hname⟩ := h.exists_attribute hj
    exact ⟨_, (h.bind_before he hcell).2 hlt, by rw [← hname]; exact List.mem_singleton.2 rfl⟩

/-- all markers in tags are found -/
theorem Celled.allFound_iff (h : c.Celled) (start : NodeId) :
    AllFound (c.skeletonWithTexts start) [] c.changes ↔
      ∀ m ∈ markersFor 0 c.template.placeholders, m.category.inTag = true →
        Offers (c.template.GoneBefore m) m c.template.skeleton ∨ c.template.Restores m := by
  have hfound : ∀ {pre d post}, c.changes = pre ++ d :: post → d.marker.category.inTag = true →
      (Found (c.skeletonWithTexts start) pre d.marker ↔
        Offers (c.template.GoneBefore d.marker) d.marker c.template.skeleton ∨ c.template.Restores d.marker) := by
    intro pre d post he hd
    have hne : d.marker.category ≠ .text := fun ht => by
      rw [ht] at hd
      cases hd
    rw [Found, h.has_skeletonWithTexts start hne, h.restores_iff he hd]
  rw [LiveMarkup.allFound_iff]
  constructor
  · intro hall m hm hc
    obtain ⟨d, hd, rfl⟩ := List.mem_map.1 (h.mem_changes.2 ⟨hm, hc⟩)
    obtain ⟨pre, post, he⟩ := List.append_of_mem hd
    exact (hfound he hc).1 (hall pre d post he)
  · intro hall pre d post he
    have hd : d ∈ c.changes := by
      rw [he]
      exact List.mem_append_right _ List.mem_cons_self
    obtain ⟨hm, hc⟩ := h.mem_changes.1 (List.mem_map_of_mem hd)
    exact (hfound he hc).2 (hall _ hm hc)

/-- **Which components can be bound.** All markers of a waiting component are found iff its template is findable. -/
theorem Waits.located_iff (h : c.Waits fragment row) :
    (c.Located (fragment + 1) ∧ ∀ category, category = .slot ∨ category = .child →
      ∀ i ∈ indicesOf c.template.placeholders category, (c.skeletonWithTexts (fragment + 1)).Has ⟨category, i⟩) ↔
    c.template.Findable := by
  rw [Located, h.celled.textsFound_iff, h.celled.allFound_iff]
  constructor
  · rintro ⟨⟨htexts, hchanges⟩, hspots⟩ m hm
    have hspot : m.category = .slot ∨ m.category = .child → Offers (c.template.GoneBefore m) m c.template.skeleton := by
      intro hc
      have hne : m.category ≠ .text := by rcases hc with hc | hc <;> rw [hc] <;> exact fun e => nomatch e
      refine (h.celled.has_skeletonWithTexts _ hne).1 (hspots m.category hc m.index ?_)
      exact mem_indicesOf.2 (mem_markersFor_zero.1 hm)
    by_cases hc : m.category.inTag = true
    · exact hchanges m hm hc
    · refine .inl ?_
      cases hcat : m.category with
      | text => exact htexts m hm hcat
      | slot => exact hspot (.inl hcat)
      | child => exact hspot (.inr hcat)
      | _ => rw [hcat] at hc; exact absurd rfl hc
  · intro hf
    have hoffers : ∀ m ∈ markersFor 0 c.template.placeholders, m.category.inTag = false →
        Offers (c.template.GoneBefore m) m c.template.skeleton := fun m hm hc =>
      (hf m hm).resolve_right fun hr => Bool.false_ne_true (hc.symm.trans hr.1)
    refine ⟨⟨fun m hm hc => hoffers m hm (by rw [hc]; rfl), fun m hm _ => hf m hm⟩, fun category hc i hi => ?_⟩
    have hm : (⟨category, i⟩ : Marker) ∈ markersFor 0 c.template.placeholders :=
      mem_markersFor_zero.2 (mem_indicesOf.1 hi)
    have hne : category ≠ .text := by rcases hc with rfl | rfl <;> exact fun e => nomatch e
    refine (h.celled.has_skeletonWithTexts _ hne).2 (hoffers _ hm ?_)
    rcases hc with rfl | rfl <;> rfl

end Core

/-! ## What the attributes come to -/

/-- dropping markers one after another -/
theorem Change.foldl_drop (ms : List Marker) (as : Attributes) : (ms.map Change.drop).foldl Change.run as =
    (ms.map Marker.name).foldl (fun as name => Entries.erase name as) as := by
  induction ms generalizing as with
  | nil => rfl
  | cons m ms ih =>
    have hrun : Change.run as (Change.drop m) = Entries.erase m.name as := by
      rw [Change.run]
      split
      · rfl
      · next hno => exact (Entries.erase_of_not_mem hno).symm
    rw [List.map_cons, List.map_cons, List.foldl_cons, List.foldl_cons, hrun, ih]

/-- names of attribute markers come in the order of the markers -/
theorem names_sublist {names : List String}
    (h : ∀ name ∈ names, ∃ m, ofAttribute? name = some m ∧ m.category = .attribute ∧ name = m.name) (as : Attributes) :
    ((Entries.names as).filter (· ∈ names)).Sublist
      (((attributeMarkers as).filter (·.category = .attribute)).map Marker.name) := by
  induction as with
  | nil => exact List.Sublist.refl _
  | cons a as ih =>
    obtain ⟨name, value⟩ := a
    rw [Entries.names_cons, attributeMarkers_cons]
    by_cases hin : name ∈ names
    · obtain ⟨m, hm, hc, hname⟩ := h name hin
      rw [List.filter_cons_of_pos (by simpa using hin), hm, Option.toList, List.singleton_append,
        List.filter_cons_of_pos (by simpa using hc), List.map_cons, ← hname]
      exact ih.cons_cons _
    · rw [List.filter_cons_of_neg (by simpa using hin), List.filter_append, List.map_append]
      exact ih.trans (List.sublist_append_right _ _)

namespace Core

variable {c : Core H}

/-- the markers in tags that stand for nothing -/
def silent (c : Core H) : List Marker :=
  (indicesOf c.template.placeholders .event).map (Marker.mk .event) ++
    (indicesOf c.template.placeholders .action).map (Marker.mk .action)

theorem foldl_changes (c : Core H) (as : Attributes) : c.changes.foldl Change.run as =
    settle (c.attributeCells.map AttributeCell.entry) (c.silent.map Marker.name) as := by
  have hdrops : Change.drops .event 0 c.template.placeholders ++ Change.drops .action 0 c.template.placeholders =
      c.silent.map Change.drop := by
    rw [drops_eq, drops_eq, silent, List.map_append, List.map_map, List.map_map]
    rfl
  rw [changes, hdrops, List.foldl_append, Change.foldl_drop, settle]
  simp only [List.foldl_map]
  rfl

theorem Celled.indices_attributes (h : c.Celled) :
    c.attributeCells.map (·.index) = indicesOf c.template.placeholders .attribute := by
  have : (spotsOf Placeholder.attribute? 0 c.template.placeholders).map (·.1) =
      indicesOf c.template.placeholders .attribute :=
    indices_spotsOf (fun p => by cases p <;> simp [Placeholder.attribute?, Placeholder.category]) _
  rw [← this, ← h.attributes, List.map_map]
  rfl

/-- the attributes in a sound skeleton are bound in the order of the cells -/
theorem Celled.inOrder (h : c.Celled) (hs : c.template.Sound) {start : NodeId} {n : Bare}
    (hn : n ∈ (planted c.template.skeleton start).labels) :
    InOrder (c.attributeCells.map AttributeCell.entry) (c.silent.map Marker.name) n.kind.attributes := by
  have hmarkers : (attributeMarkers n.kind.attributes).Sublist (markersFor 0 c.template.placeholders) := by
    have hnode : (attributeMarkers n.kind.attributes).Sublist n.kind.markers := List.sublist_append_right _ _
    rw [← hs.markers, ← markers_planted c.template.skeleton start, List.flatMap_def]
    exact hnode.trans (List.sublist_flatten_of_mem (List.mem_map_of_mem (f := fun k : Bare => k.kind.markers) hn))
  have hlt : ∀ m ∈ markersFor 0 c.template.placeholders, m.index < indexLimit := by
    intro m hm
    rw [← hs.markers] at hm
    exact index_lt_of_mem hm
  have hchanges : ∀ m ∈ c.changes.map (·.marker), ofAttribute? m.name = some m := fun m hm =>
    ofAttribute?_name (h.mem_changes.1 hm).2 (hlt m (h.mem_changes.1 hm).1)
  rw [markers_changes] at hchanges
  have hnames : ∀ name ∈ Entries.names (c.attributeCells.map AttributeCell.entry),
      ∃ m, ofAttribute? name = some m ∧ m.category = .attribute ∧ name = m.name := by
    intro name hname
    rw [names_entries] at hname
    obtain ⟨m, hm, rfl⟩ := List.mem_map.1 hname
    refine ⟨m, hchanges m (List.mem_append_left _ hm), ?_, rfl⟩
    obtain ⟨i, -, rfl⟩ := List.mem_map.1 hm
    rfl
  refine ⟨h.nodup_entries, fun name hname => ?_, fun e he => ?_, fun name hname => ?_, ?_, fun name hname hm => ?_⟩
  · obtain ⟨m, hm, -⟩ := hnames name hname
    rw [hm]
    exact Option.some_ne_none m
  · obtain ⟨cell, hcell, rfl⟩ := List.mem_map.1 he
    exact (hs.named _ _ (List.mem_of_getElem? (h.attribute hcell))).2.2
  · obtain ⟨m, hm, rfl⟩ := List.mem_map.1 hname
    rw [hchanges m (List.mem_append_right _ hm)]
    exact Option.some_ne_none m
  · have hcells : Entries.names (c.attributeCells.map AttributeCell.entry) =
        ((markersFor 0 c.template.placeholders).filter (·.category = .attribute)).map Marker.name := by
      rw [names_entries, h.indices_attributes, filter_markersFor]
    refine (names_sublist hnames _).trans ?_
    rw [hcells]
    exact (hmarkers.filter _).map _
  · obtain ⟨a, ha, rfl⟩ := List.mem_map.1 hname
    obtain ⟨m, hm⟩ := Option.ne_none_iff_exists'.1 hm
    have hin : m ∈ markersFor 0 c.template.placeholders :=
      hmarkers.subset (List.mem_filterMap.2 ⟨a, ha, hm⟩)
    have hchange := h.mem_changes.2 ⟨hin, (ofAttribute?_eq_some_iff.1 hm).1⟩
    rw [markers_changes, List.mem_append] at hchange
    rw [clean_planted _ _ hs.clean n hn a ha m hm, names_entries]
    exact hchange.imp List.mem_map_of_mem List.mem_map_of_mem

/-- no change of a component with a sound skeleton brings the name of a marker -/
theorem Celled.tidy (h : c.Celled) (hs : c.template.Sound) : Change.Tidy c.changes := by
  intro d hd name hname
  rcases List.mem_append.1 hd with hin | hin
  · obtain ⟨cell, hcell, rfl⟩ := List.mem_map.1 hin
    obtain rfl : name = cell.name := List.mem_singleton.1 hname
    exact (hs.named _ _ (List.mem_of_getElem? (h.attribute hcell))).2.2
  · rw [drops_eq, drops_eq] at hin
    rcases List.mem_append.1 hin with hin | hin <;>
    · obtain ⟨i, -, rfl⟩ := List.mem_map.1 hin
      cases hname

/-- the changes of a component give each element of a sound skeleton what its cells say -/
theorem Celled.settled (h : c.Celled) (hs : c.template.Sound) {start : NodeId} {fills : List (Marker × Forest Bare)}
    {α : NodeId → Attributes → Attributes} (hr : Rewritten c.template.skeleton start fills c.changes α) :
    (planted c.template.skeleton start).attrs α =
      (planted c.template.skeleton start).attrs fun _ => fillAttributes (lookOf c.attributeCells) := by
  refine attrs_congr fun n hn => ?_
  rw [hr.attributes (h.tidy hs) n hn, foldl_changes]
  exact settle_eq (h.inOrder hs hn)

end Core

end LiveMarkup
