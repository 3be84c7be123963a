/-
Changes of attributes below a fragment.

Attributes, listeners and actions each find the node that carries a marker and change its attributes. Such a step is a
`Change`. What a sequence of changes has done to a skeleton is said by `Rewritten`: what a search for the next marker
comes to, and, if no change brings the name of a marker, which changes each node has seen. `change_step` is one change.
-/
import LiveMarkup.Proofs.Component.Fragment

namespace LiveMarkup

open Markup Marker Forest

variable {H : Host}

/-! ## Changes -/

/-- a change of the attributes of the node that carries a marker; `adds` are the names that it brings -/
structure Change where
  marker : Marker
  apply : Attributes → Attributes
  adds : List String

namespace Change

/-- the attribute of a cell in the place of its marker -/
def bind (cell : AttributeCell) : Change :=
  ⟨⟨.attribute, cell.index⟩, Entries.rename (Marker.name ⟨.attribute, cell.index⟩) cell.name cell.value, [cell.name]⟩

def drop (m : Marker) : Change := ⟨m, Entries.erase m.name, []⟩

def drops {A T : Type} (category : Category) (index : Nat) (ps : List (Placeholder A T)) : List Change :=
  ((ps.zipIdx index).filter (·.1.category = category)).map fun e => drop ⟨category, e.2⟩

/-- the change, made where its marker is among the attributes -/
def run (attributes : Attributes) (c : Change) : Attributes :=
  if c.marker.name ∈ Entries.names attributes then c.apply attributes else attributes

/-- a change of an attribute marker that brings no other names than it says and takes none but its marker's -/
structure Lawful (c : Change) : Prop where
  inTag : c.marker.category.inTag = true
  names : ∀ as, c.marker.name ∈ Entries.names as → ∀ name, name ≠ c.marker.name →
    (name ∈ Entries.names (c.apply as) ↔ name ∈ Entries.names as ∨ name ∈ c.adds)

theorem lawful_bind (cell : AttributeCell) : (bind cell).Lawful := by
  refine ⟨rfl, fun as hin name hne => ?_⟩
  obtain ⟨pre, v, post, rfl, -, hr⟩ := Entries.exists_split hin
  show name ∈ Entries.names (Entries.rename (bind cell).marker.name _ _ _) ↔ _ ∨ name ∈ [cell.name]
  rw [hr, Entries.names_append, Entries.names_append, Entries.names_cons, Entries.names_cons, List.mem_append,
    List.mem_append, List.mem_cons, List.mem_cons, Entries.mem_names_erase, Entries.mem_names_erase,
    List.mem_singleton]
  by_cases hn : name = cell.name
  · simp [hn]
  · simp [hn, show (name = (bind cell).marker.name) = False from eq_false hne]

theorem lawful_drop {m : Marker} (hm : m.category.inTag = true) : (drop m).Lawful := by
  refine ⟨hm, fun as _ name hne => ?_⟩
  show name ∈ Entries.names (Entries.erase m.name as) ↔ _ ∨ name ∈ []
  rw [Entries.mem_names_erase]
  have hne' : name ≠ m.name := hne
  simp [hne']

theorem lawful_drops {A T : Type} {category : Category} (hc : category.inTag = true) (index : Nat)
    (ps : List (Placeholder A T)) : ∀ c ∈ drops category index ps, c.Lawful := by
  intro c hin
  obtain ⟨e, -, rfl⟩ := List.mem_map.1 hin
  exact lawful_drop hc

theorem drops_cons_of_ne {A T : Type} {category : Category} {p : Placeholder A T} (h : p.category ≠ category)
    (index : Nat) (ps : List (Placeholder A T)) : drops category index (p :: ps) = drops category (index + 1) ps := by
  rw [drops, List.zipIdx_cons, List.filter_cons_of_neg (by simpa using h)]
  rfl

theorem drops_cons_of_eq {A T : Type} {category : Category} {p : Placeholder A T} (h : p.category = category)
    (index : Nat) (ps : List (Placeholder A T)) :
    drops category index (p :: ps) = drop ⟨category, index⟩ :: drops category (index + 1) ps := by
  rw [drops, List.zipIdx_cons, List.filter_cons_of_pos (by simpa using h)]
  rfl

/-- no change brings the name of a marker -/
def Tidy (done : List Change) : Prop := ∀ c ∈ done, ∀ name ∈ c.adds, ofAttribute? name = none

/-- a marker whose turn has not come is there only if it was there -/
theorem mem_of_foldl_run {done : List Change} (hl : ∀ c ∈ done, c.Lawful) (ht : Tidy done) {m : Marker}
    (hm : ofAttribute? m.name = some m) (hne : ∀ c ∈ done, c.marker ≠ m) {as : Attributes}
    (h : m.name ∈ Entries.names (done.foldl run as)) : m.name ∈ Entries.names as := by
  induction done generalizing as with
  | nil => exact h
  | cons c done ih =>
    rw [List.forall_mem_cons] at hl hne
    have hstep := ih hl.2 (fun d hd => ht d (List.mem_cons_of_mem _ hd)) hne.2 h
    rw [run] at hstep
    split at hstep
    · next hin =>
      refine ((hl.1.names as hin m.name fun e => hne.1 (name_inj e).symm).1 hstep).resolve_right fun hadd => ?_
      rw [ht c List.mem_cons_self _ hadd] at hm
      cases hm
    · exact hstep

end Change

/-! ## What changes have done -/

/-- the attributes of one node more are changed -/
def bump (α : NodeId → Attributes → Attributes) (el : NodeId) (g : Attributes → Attributes) :
    NodeId → Attributes → Attributes := fun id as => if id = el then g (α id as) else α id as

/-- a search for the marker comes to something, after these texts and changes -/
def Found (f : Forest Bare) (done : List Change) (m : Marker) : Prop := f.Has m ∨ ∃ c ∈ done, m.name ∈ c.adds

/-- each marker is found in its turn -/
def AllFound (f : Forest Bare) (done : List Change) : List Change → Prop
  | [] => True
  | c :: cs => Found f done c.marker ∧ AllFound f (done ++ [c]) cs

theorem allFound_append {f : Forest Bare} {done cs ds : List Change} :
    AllFound f done (cs ++ ds) ↔ AllFound f done cs ∧ AllFound f (done ++ cs) ds := by
  induction cs generalizing done with
  | nil => simp [AllFound]
  | cons c cs ih =>
    rw [List.cons_append, AllFound, AllFound, ih, List.append_assoc, and_assoc]
    rfl

/-- lawful changes for distinct markers that the skeleton carries once -/
structure Changes (ns : List Markup.Node) (cs : List Change) : Prop where
  lawful : ∀ c ∈ cs, c.Lawful
  marked : ∀ c ∈ cs, (markersOfAll ns).count c.marker = 1
  distinct : (cs.map (·.marker)).Nodup

theorem Changes.left {ns : List Markup.Node} {cs ds : List Change} (h : Changes ns (cs ++ ds)) : Changes ns cs := by
  refine ⟨fun c hc => h.lawful c (List.mem_append_left _ hc), fun c hc => h.marked c (List.mem_append_left _ hc), ?_⟩
  have := h.distinct
  rw [List.map_append] at this
  exact (List.nodup_append.1 this).1

theorem Changes.new {ns : List Markup.Node} {cs ds : List Change} {c : Change} (h : Changes ns (cs ++ c :: ds)) :
    ∀ d ∈ cs, d.marker ≠ c.marker := by
  have := h.distinct
  rw [List.map_append, List.map_cons, List.nodup_append] at this
  exact fun d hd e => this.2.2 _ (List.mem_map_of_mem hd) _ List.mem_cons_self e

/-- what the changes in `done` have made of the attributes in a planted skeleton -/
structure Rewritten (ns : List Markup.Node) (start : NodeId) (fills : List (Marker × Forest Bare)) (done : List Change)
    (α : NodeId → Attributes → Attributes) : Prop where
  has : ∀ m : Marker, m.category.inTag = true → (∀ c ∈ done, c.marker ≠ m) →
    ((((planted ns start).attrs α).fillBy fills).Has m ↔ Found ((planted ns start).fillBy fills) done m)
  attributes : Change.Tidy done →
    ∀ n ∈ (planted ns start).labels, α n.id n.kind.attributes = done.foldl Change.run n.kind.attributes

theorem Rewritten.nil (ns : List Markup.Node) (start : NodeId) (fills : List (Marker × Forest Bare)) :
    Rewritten ns start fills [] fun _ as => as := by
  refine ⟨fun m _ _ => ?_, fun _ _ _ => rfl⟩
  rw [attrs_id, Found]
  simp

section

variable {data : String → String} {ns : List Markup.Node} {start : NodeId} {cells : List TextCell}
  {α : NodeId → Attributes → Attributes} {done : List Change}

theorem update_attrs_fillBy (data : String → String) (hc : TextCells ns start cells) {el : NodeId} (hel : el ∈ (planted ns start).ids)
    (g : Attributes → Attributes) :
    (((planted ns start).attrs α).fillBy (cells.map (TextCell.fill data))).update (Document.isNode el)
        (Node.mapKind (Kind.mapAttributes g)) =
      ((planted ns start).attrs (bump α el g)).fillBy (cells.map (TextCell.fill data)) := by
  have hfills : ((cells.map (TextCell.fill data)).map fun e =>
      (e.1, e.2.update (Document.isNode el) (Node.mapKind (Kind.mapAttributes g)))) =
      cells.map (TextCell.fill data) := by
    rw [List.map_map]
    refine List.map_congr_left fun cell hcell => ?_
    have hnone : el ∉ (cell.ground data).ids := by
      rw [TextCell.ground, ids_tree]
      intro hin
      obtain rfl : el = cell.node := List.mem_singleton.1 hin
      exact hc.nodes cell hcell hel
    exact congrArg (Prod.mk _) (update_of_none (Document.isNode_of_not_mem hnone) _)
  rw [update_fillBy (Kind.tag?_mapAttributes g), hfills, update_attrs]
  rfl

/-- after a change, what is found is what was found, and what the change adds -/
theorem has_update {Y : Forest Bare} (hY : Y.ids.Nodup) {n : Bare} (hn : n ∈ Y.labels) {c : Change} (hl : c.Lawful)
    (ha : n.kind.answers c.marker = true) {m : Marker} (hm : m.category.inTag = true) (hne : c.marker ≠ m) :
    (Y.update (Document.isNode n.id) (Node.mapKind (Kind.mapAttributes c.apply))).Has m ↔
      Y.Has m ∨ m.name ∈ c.adds := by
  rw [Kind.answers_inTag hl.inTag] at ha
  have hname : m.name ≠ c.marker.name := fun e => hne (name_inj e).symm
  have hattributes : (n.kind.mapAttributes c.apply).attributes = c.apply n.kind.attributes := by
    cases hk : n.kind with
    | element => rfl
    | fragment => rw [hk] at ha; cases ha
    | text => rw [hk] at ha; cases ha
    | comment => rw [hk] at ha; cases ha
  have hchanged : ((n.kind.mapAttributes c.apply).answers m = true) ↔ n.kind.answers m = true ∨ m.name ∈ c.adds := by
    rw [Kind.answers_inTag hm, Kind.answers_inTag hm, hattributes]
    exact hl.names _ ha _ hname
  have hpick : ∀ k ∈ Y.labels, Document.isNode n.id k = true → k = n := fun k hk hp =>
    List.inj_on_of_nodup_map hY hk hn (Document.isNode_iff.1 hp)
  rw [Has, labels_update]
  constructor
  · rintro ⟨_, hin, hka⟩
    obtain ⟨k, hk, rfl⟩ := List.mem_map.1 hin
    split at hka
    · next hp =>
      obtain rfl := hpick k hk hp
      exact (hchanged.1 hka).imp_left fun h => ⟨k, hk, h⟩
    · exact .inl ⟨k, hk, hka⟩
  · have hself : n.mapKind (Kind.mapAttributes c.apply) ∈ Y.labels.map fun k =>
        if Document.isNode n.id k then k.mapKind (Kind.mapAttributes c.apply) else k :=
      List.mem_map.2 ⟨n, hn, if_pos (Document.isNode_iff.2 rfl)⟩
    rintro (⟨k, hk, hka⟩ | hadd)
    · by_cases hp : Document.isNode n.id k = true
      · obtain rfl := hpick k hk hp
        exact ⟨_, hself, hchanged.2 (.inl hka)⟩
      · exact ⟨k, List.mem_map.2 ⟨k, hk, if_neg hp⟩, hka⟩
    · exact ⟨_, hself, hchanged.2 (.inr hadd)⟩

/-- **One change.** The search for its marker fails, or leads to a node of the skeleton whose attributes are changed. -/
theorem change_step (hc : TextCells ns start cells) {c : Change} (hcs : Changes ns (done ++ [c])) {w : World H}
    (hb : w.backend = .faithful) {r : Bare} {R : Forest Bare}
    (hw : w.document.Holds
      (tree r (((planted ns start).attrs α).fillBy (cells.map (TextCell.fill data))) ++ R))
    (hr : Rewritten ns start (cells.map (TextCell.fill data)) done α) :
    ((∃ fault, w.marker r.id c.marker = .error fault) ∧
        ¬ Found ((planted ns start).fillBy (cells.map (TextCell.fill data))) done c.marker) ∨
      ∃ n ∈ (planted ns start).labels, w.marker r.id c.marker = .ok n.id ∧
        Found ((planted ns start).fillBy (cells.map (TextCell.fill data))) done c.marker ∧
        (Change.Tidy done → c.marker.name ∈ Entries.names n.kind.attributes) ∧
        (w.document.updateAttributes n.id c.apply).Holds
          (tree r (((planted ns start).attrs (bump α n.id c.apply)).fillBy (cells.map (TextCell.fill data))) ++ R) ∧
        Rewritten ns start (cells.map (TextCell.fill data)) (done ++ [c]) (bump α n.id c.apply) := by
  have hl : c.Lawful := hcs.lawful c (List.mem_append_right _ List.mem_cons_self)
  have hcount := hcs.marked c (List.mem_append_right _ List.mem_cons_self)
  have hnew := hcs.new
  have hlt : c.marker.index < indexLimit := index_lt_of_mem (List.one_le_count_iff.1 (Nat.le_of_eq hcount.symm))
  have hof : ofAttribute? c.marker.name = some c.marker := ofAttribute?_name hl.inTag hlt
  rcases World.marker_cases hb hw c.marker with ⟨hm, hno⟩ | ⟨k, hk, ha, hm⟩
  · exact .inl ⟨⟨_, hm⟩, fun h => hno ((hr.has _ hl.inTag hnew).2 h)⟩
  · have hkS : k ∈ ((planted ns start).attrs α).labels := by
      rcases mem_labels_fillBy hk with h | ⟨e, he, h⟩
      · exact h
      · exact absurd ⟨k, h, ha⟩ (TextCell.not_has_fill cells _ e he)
    obtain ⟨n, hn, rfl⟩ := mem_labels_attrs α _ hkS
    have hid : n.id ∈ (planted ns start).ids := mem_ids_of_mem hn
    have hupdate : (((planted ns start).attrs α).fillBy _).update _ _ = _ := update_attrs_fillBy data hc hid c.apply
    have hY := (List.nodup_append.1 (ids_append (tree r _) R ▸ hw.nodup)).1
    rw [ids_tree, List.nodup_cons] at hY
    have hkind : (n.mapKind (Kind.mapAttributes (α n.id))).kind.attributes = α n.id n.kind.attributes ∨
        n.kind.attributes = [] ∧ (n.mapKind (Kind.mapAttributes (α n.id))).kind.attributes = [] := by
      obtain ⟨id, kind, listeners, ticket⟩ := n
      cases kind with
      | element => exact .inl rfl
      | fragment => exact .inr ⟨rfl, rfl⟩
      | text => exact .inr ⟨rfl, rfl⟩
      | comment => exact .inr ⟨rfl, rfl⟩
    have hname := (Kind.answers_inTag hl.inTag).1 ha
    have hkind : (n.mapKind (Kind.mapAttributes (α n.id))).kind.attributes = α n.id n.kind.attributes := by
      refine hkind.resolve_right fun h => ?_
      rw [h.2] at hname
      cases hname
    rw [hkind] at hname
    have hlawful : ∀ d ∈ done, d.Lawful := fun d hd => hcs.lawful d (List.mem_append_left _ hd)
    have horigin : Change.Tidy done → c.marker.name ∈ Entries.names n.kind.attributes := fun ht => by
      rw [hr.attributes ht n hn] at hname
      exact Change.mem_of_foldl_run hlawful ht hof hnew hname
    have hmarkers : ∀ k : Bare, c.marker.name ∈ Entries.names k.kind.attributes → c.marker ∈ k.kind.markers :=
      fun k h => Kind.mem_markers_of_answers hlt ((Kind.answers_inTag hl.inTag).2 h)
    refine .inr ⟨n, hn, hm, (hr.has _ hl.inTag hnew).1 ⟨_, hk, ha⟩, horigin, ?_, ?_, ?_⟩
    · have h := hw.updateAttributes n.id c.apply
      have hin := mem_ids_of_mem hk
      rw [Node.id_mapKind] at hin
      rw [hw.update_in hin, hupdate] at h
      exact h
    · intro m hmt hdone
      have hne : c.marker ≠ m := hdone c (List.mem_append_right _ List.mem_cons_self)
      have hhas := has_update hY.2 hk hl ha hmt hne
      rw [Node.id_mapKind] at hhas
      rw [← hupdate, hhas, hr.has m hmt fun d hd => hdone d (List.mem_append_left _ hd), Found, Found, or_assoc]
      refine or_congr_right ⟨?_, ?_⟩
      · rintro (⟨d, hd, hadd⟩ | hadd)
        · exact ⟨d, List.mem_append_left _ hd, hadd⟩
        · exact ⟨c, List.mem_append_right _ List.mem_cons_self, hadd⟩
      · rintro ⟨d, hd, hadd⟩
        rcases List.mem_append.1 hd with hd | hd
        · exact .inl ⟨d, hd, hadd⟩
        · exact .inr (List.mem_singleton.1 hd ▸ hadd)
    · intro ht k hk'
      have htd : Change.Tidy done := fun d hd => ht d (List.mem_append_left _ hd)
      rw [List.foldl_append, List.foldl_cons, List.foldl_nil, ← hr.attributes htd k hk', Change.run, bump]
      by_cases he : k.id = n.id
      · obtain rfl : k = n := List.inj_on_of_nodup_map (nodup_planted ns start) hk' hn he
        rw [if_pos rfl, if_pos hname]
      · rw [if_neg he, if_neg]
        intro hin
        rw [hr.attributes htd k hk'] at hin
        have hin := Change.mem_of_foldl_run hlawful htd hof hnew hin
        exact he (congrArg Node.id (carrier_unique hcount hk' hn (hmarkers k hin) (hmarkers n (horigin htd))))

end

end LiveMarkup
