/-
Who attends to the events of a component.

When a component is mounted, each of its event placeholders gets an ear on the element of the component's copy that carries
the marker, and a cleanup that takes it off again. A component attends if these ears are all that hear its channel: while it
is mounted one for every event placeholder, in their order, and at any other time none. This is kept by whatever is done to
other components and by actions that mind where they are.

- `Core.Midway.finds`: while a component is bound, the marker of an event leads to the element of the copy that carries it;
- `Core.Awaits.attends_bind`: a component binds itself and has an ear for every event placeholder, if all markers are found;
- `Core.Listens.cleanUp`: a component undoes what it has to undo, and nothing hears its channel.
-/
import LiveMarkup.Proofs.Component.Awaiting
import LiveMarkup.Proofs.Template.Spots

namespace LiveMarkup

open Markup Marker Forest

/-! ## Markers go -/

theorem Entries.mem_names_set {α : Type} {es : Entries α} {name n : String} {value : α}
    (h : n ∈ (es.set name value).names) : n ∈ es.names ∨ n = name := by
  rw [names_set] at h
  split at h
  · exact .inl h
  · exact (List.mem_append.1 h).imp_right List.mem_singleton.1

theorem Entries.mem_names_rename {α : Type} {es : Entries α} {source target n : String} {value : α}
    (h : n ∈ (es.rename source target value).names) : n ∈ es.names ∨ n = target := by
  by_cases hs : source ∈ es.names
  · obtain ⟨pre, v, post, rfl, -, hr⟩ := exists_split hs
    rw [hr, names_append, names_cons, List.mem_append, List.mem_cons, mem_names_erase, mem_names_erase] at h
    rw [names_append, names_cons, List.mem_append, List.mem_cons]
    tauto
  · rw [rename_of_not_mem hs] at h
    exact mem_names_set h

/-- no marker comes to an element -/
def Kind.Fades (k k₁ : Kind) : Prop :=
  ∀ name ∈ Entries.names k₁.attributes, name ∈ Entries.names k.attributes ∨ ofAttribute? name = none

theorem Kind.Fades.refl (k : Kind) : k.Fades k := fun _ h => .inl h

theorem Kind.Fades.trans {k k₁ k₂ : Kind} (h : k.Fades k₁) (h' : k₁.Fades k₂) : k.Fades k₂ := fun name hin =>
  (h' name hin).elim (h name) .inr

/-- what carries a marker carried it before -/
theorem Kind.Fades.answers {k k₁ : Kind} (h : k.Fades k₁) {m : Marker} (hc : m.category.inTag = true)
    (hm : m.index < indexLimit) (ha : k₁.answers m = true) : k.answers m = true := by
  rw [answers_inTag hc] at ha ⊢
  refine (h m.name ha).resolve_right fun hnone => ?_
  rw [ofAttribute?_name hc hm] at hnone
  cases hnone

namespace Writing

variable {L : Type}

theorem fades_mapAttributes {g : Attributes → Attributes}
    (hg : ∀ as, ∀ name ∈ Entries.names (g as), name ∈ Entries.names as ∨ ofAttribute? name = none) (n : Node L) :
    n.kind.Fades (mapAttributes g n).kind := by
  obtain ⟨id, kind, listeners, nextTicket⟩ := n
  cases kind with
  | element tag attributes => exact hg attributes
  | _ => exact .refl _

theorem fades_removeAttribute (name : String) (n : Node L) : n.kind.Fades ((removeAttribute name).apply n).kind :=
  fades_mapAttributes (fun _ _ h => .inl (Entries.mem_names_erase.1 h).1) n

theorem fades_setAttribute {name : String} (h : ofAttribute? name = none) (value : String) (n : Node L) :
    n.kind.Fades ((setAttribute name value).apply n).kind :=
  fades_mapAttributes (fun _ _ hin => (Entries.mem_names_set hin).imp_right fun he => by rw [he]; exact h) n

theorem fades_renameAttribute (source : String) {target : String} (h : ofAttribute? target = none) (value : String)
    (n : Node L) : n.kind.Fades ((renameAttribute source target value).apply n).kind :=
  fades_mapAttributes (fun _ _ hin => (Entries.mem_names_rename hin).imp_right fun he => by rw [he]; exact h) n

end Writing

namespace Document

variable {L : Type} {d d₁ d₂ : Document L}

/-- no node comes, and no marker to an element -/
def Fades (d d₁ : Document L) : Prop := ∀ x n₁, d₁.node? x = some n₁ → ∃ n, d.node? x = some n ∧ n.kind.Fades n₁.kind

theorem Fades.refl (d : Document L) : d.Fades d := fun _ n hn => ⟨n, hn, .refl _⟩

theorem Fades.trans (h : d.Fades d₁) (h' : d₁.Fades d₂) : d.Fades d₂ := fun x n₂ hn₂ => by
  obtain ⟨n₁, hn₁, hs'⟩ := h' x n₂ hn₂
  obtain ⟨n, hn, hs⟩ := h x n₁ hn₁
  exact ⟨n, hn, hs.trans hs'⟩

theorem fades_perform (hd : d.Intact) (x : NodeId) {writing : Writing L}
    (hw : ∀ n : Node L, n.kind.Fades (writing.apply n).kind) : d.Fades (writing.perform x d) := by
  intro y n₁ hn₁
  rw [(rewrites_perform hd writing x).2.node] at hn₁
  obtain ⟨n, hn, rfl⟩ := Option.map_eq_some_iff.1 hn₁
  refine ⟨n, hn, ?_⟩
  split
  · exact hw n
  · exact .refl _

theorem fades_replaceWith (hd : d.Intact) (old new : NodeId) : d.Fades (d.replaceWith old new) := by
  unfold replaceWith
  cases d.parent? old with
  | none => exact .refl d
  | some p =>
    intro x n hn
    refine ⟨n, ?_, .refl _⟩
    rw [← (relinks_insertBefore hd p new (some old)).node x]
    exact (node?_detach (hd.insertBefore p new (some old)).valid old x).symm.trans hn

end Document

/-! ## Seats -/

def Placeholder.event? {A T : Type} : Placeholder A T → Option (String × String)
  | .event name topic => some (name, topic)
  | _ => none

/-- the node that carries the marker of an event placeholder, in the copy with this fragment -/
def Template.carrier? {A : Type} (t : Template A) (fragment : NodeId) (index : Nat) : Option NodeId :=
  ((planted t.skeleton (fragment + 1)).labels.find? (·.kind.answers ⟨.event, index⟩)).map (·.id)

/-- where an event placeholder is: its event, its topic, and the node that carries its marker -/
abbrev Seat := String × String × Option NodeId

/-- the seats of placeholders that begin with number `index` -/
def Template.seatsFrom {A T : Type} (t : Template A) (fragment : NodeId) (index : Nat) (ps : List (Placeholder A T)) :
    List Seat :=
  (spotsOf Placeholder.event? index ps).map fun e => (e.2.1, e.2.2, t.carrier? fragment e.1)

/-- the seats of all event placeholders, in order -/
def Template.seats {A : Type} (t : Template A) (fragment : NodeId) : List Seat := t.seatsFrom fragment 0 t.placeholders

def Ear.seat (ear : Ear) : Seat := (ear.event, ear.topic, some ear.node)

/-- the nodes of a copy have been made, and those that are left are the elements that they were -/
def Document.Copied {A L : Type} (t : Template A) (fragment : NodeId) (d : Document L) : Prop :=
  ∀ m ∈ (planted t.skeleton (fragment + 1)).labels, m.id < d.fresh ∧
    ∀ n, d.node? m.id = some n → n.kind.tag? = m.kind.tag?

variable {H : Host}

/-- what is not retuned is still the copy -/
theorem Document.Copied.retunes {A : Type} {t : Template A} {fragment : NodeId} {K : List Nat}
    {d d₁ : Document (Listener H.Handler)} (h : d.Copied t fragment) (hr : Retunes K d d₁) : d₁.Copied t fragment := by
  intro m hm
  obtain ⟨hlt, htag⟩ := h m hm
  refine ⟨Nat.lt_of_lt_of_le hlt hr.fresh, fun n₁ hn₁ => ?_⟩
  obtain ⟨n, hn, hsame⟩ := hr.old m.id hlt n₁ hn₁
  exact hsame.tag.trans (htag n hn)

/-- a node in a tree of the document -/
theorem Document.node?_of_tree {L : Type} {d : Document L} (hv : d.Valid) {T : Node L × Forest (Node L)}
    (hT : T ∈ d.forest.trees) {n : Node L} (hn : n ∈ (tree T.1 T.2).labels) : d.node? n.id = some n := by
  obtain ⟨g, k, hf⟩ := exists_append_of_tree hT
  refine node?_of_mem hv ?_
  rw [hf, labels_append, labels_append]
  exact List.mem_append_right _ (List.mem_append_left _ hn)

/-- the nodes of a copy as it was made -/
theorem mem_planted_iff {L : Type} {ns : List Markup.Node} {id : NodeId} {m : Bare} :
    m ∈ (planted ns id).labels ↔ ∃ n ∈ (Document.plant (L := L) ns id).1.labels, n.bare = m := by
  rw [planted, ← (bare_plant (L := L) ns id).1, bare, labels_map, List.mem_map]

/-- a copy as it was made is copied -/
theorem Document.copied {A L : Type} {d : Document L} (hv : d.Valid) {t : Template A} {fragment : NodeId}
    (h : t.copy L fragment ∈ d.forest.trees) : d.Copied t fragment := by
  intro m hm
  obtain ⟨n, hn, rfl⟩ := (mem_planted_iff (L := L)).1 hm
  have hmem : n ∈ (tree (t.copy L fragment).1 (t.copy L fragment).2).labels := by
    rw [labels_tree]
    exact List.mem_cons_of_mem _ hn
  refine ⟨hv.below (mem_ids_of_tree h (mem_ids_of_mem hmem)), fun k hk => ?_⟩
  obtain rfl := Option.some.inj ((node?_of_tree hv h hmem).symm.trans hk)
  rfl

/-! ## Binding -/

/-- a component that waited in `w₀` is being bound: only its own trees have changed, and no marker has come -/
structure Core.Midway (c : Core H) (w₀ w : World H) : Prop where
  intact : w.document.Intact
  fades : w₀.document.Fades w.document
  spared : ∀ T ∈ w₀.document.forest.trees, T.1.id ∉ c.handles → w.document.Spared T

section

variable {c : Core H} {w₀ w : World H} {fragment x y : NodeId}

theorem Core.Midway.start (c : Core H) (hd : w.document.Intact) : c.Midway w w :=
  ⟨hd, .refl _, fun _ hT _ => ⟨hd, hT⟩⟩

section

variable (h : c.Midway w₀ w)
include h

theorem Core.Midway.perform
    (hx : ∀ T ∈ w₀.document.forest.trees, T.1.id ∉ c.handles → Document.Outside T x) (writing : Writing (Listener H.Handler))
    (hw : ∀ n : Node (Listener H.Handler), n.kind.Fades (writing.apply n).kind) :
    c.Midway w₀ (w.edit (writing.perform x)) :=
  ⟨(Document.rewrites_perform h.intact writing x).1, h.fades.trans (Document.fades_perform h.intact x hw),
    fun T hT hother => (h.spared T hT hother).perform (hx T hT hother) writing⟩

theorem Core.Midway.replaceWith (hx : ∀ T ∈ w₀.document.forest.trees, T.1.id ∉ c.handles → Document.Outside T x)
    (hy : ∀ T ∈ w₀.document.forest.trees, T.1.id ∉ c.handles → Document.Outside T y) :
    c.Midway w₀ (w.edit (·.replaceWith x y)) :=
  ⟨h.intact.replaceWith x y, h.fades.trans (Document.fades_replaceWith h.intact x y),
    fun T hT hother => (h.spared T hT hother).replaceWith (hx T hT hother) (hy T hT hother)⟩

variable (hd : w₀.document.Intact) (ha : c.Awaits w₀.document)
include hd ha

variable (hp : c.phase = .created fragment)
include hp

/-- what the component finds is in none but its own trees -/
theorem Core.Midway.outside {m : Marker} (hm : w.marker fragment m = .ok x) :
    ∀ T ∈ w₀.document.forest.trees, T.1.id ∉ c.handles → Document.Outside T x := by
  intro T hT hother
  have hf : fragment ∈ c.handles := by
    rw [ha.handles hp]
    exact List.mem_cons_self
  exact (Zone.besides T : Zone H).marker (h.spared T hT hother) (ha.outside hd.valid hT hother hf) hm

/-- the marker of an event leads to the node of the copy that carries it -/
theorem Core.Midway.finds (hs : c.template.Marked) {index : Nat} (hin : ⟨.event, index⟩ ∈ markersFor 0 c.template.placeholders)
    (hm : w.marker fragment ⟨.event, index⟩ = .ok x) : c.template.carrier? fragment index = some x := by
  have hcount := hs _ hin
  have hlt : index < indexLimit :=
    index_lt_of_mem (m := ⟨.event, index⟩) (List.one_le_count_iff.1 (Nat.le_of_eq hcount.symm))
  obtain ⟨n₁, hn₁, ha₁⟩ := World.marker_answers h.intact (m := ⟨.event, index⟩) rfl hm
  obtain ⟨n, hn, hfade⟩ := h.fades x n₁ hn₁
  have hanswers := hfade.answers rfl hlt ha₁
  -- the node is in a tree of the component
  obtain ⟨T, hT, hxT⟩ := Document.exists_tree_of_mem
    (Document.mem_ids_of_node? hd.valid (by rw [hn]; exact Option.some_ne_none n))
  have hown : T.1.id ∈ c.handles := by
    by_contra hother
    exact h.outside hd ha hp hm T hT hother hxT
  obtain ⟨k, hk, rfl⟩ := List.mem_map.1 hxT
  obtain rfl := Option.some.inj ((Document.node?_of_tree hd.valid hT hk).symm.trans hn)
  obtain ⟨fragment', hp', hcopy⟩ := ha.copy
  obtain rfl : fragment = fragment' := Phase.created.inj (hp.symm.trans hp')
  rw [ha.handles hp, List.mem_cons, List.mem_map] at hown
  rcases hown with hroot | ⟨cell, hcell, hroot⟩
  · -- it is in the copy
    obtain rfl := Document.tree_unique hd.valid hT hcopy (Document.root_mem T) (hroot ▸ Document.root_mem _)
    rw [labels_tree, List.mem_cons] at hk
    rcases hk with rfl | hk
    · cases hanswers
    have hplanted : k.bare ∈ (planted c.template.skeleton (fragment + 1)).labels := mem_planted_iff.2 ⟨k, hk, rfl⟩
    have hfirst : ((planted c.template.skeleton (fragment + 1)).labels.find?
        (·.kind.answers ⟨.event, index⟩)).isSome = true := List.find?_isSome.2 ⟨k.bare, hplanted, hanswers⟩
    obtain ⟨m, hfirst⟩ := Option.isSome_iff_exists.1 hfirst
    have hcarries : m.kind.answers ⟨.event, index⟩ = true := by simpa using List.find?_some hfirst
    have hsame : m = k.bare := carrier_unique hcount (List.mem_of_find?_eq_some hfirst) hplanted
      (Kind.mem_markers_of_answers hlt hcarries) (Kind.mem_markers_of_answers hlt hanswers)
    rw [Template.carrier?, hfirst, hsame]
    rfl
  · -- a text carries no marker
    obtain ⟨data, hdata⟩ := ha.texts cell hcell
    obtain rfl := Document.tree_unique hd.valid hT hdata (Document.root_mem T) (hroot ▸ Document.root_mem _)
    obtain rfl := List.mem_singleton.1 hk
    cases hanswers

end

end

/-! ### What is bound in turn -/

/-- what is written into an element besides listeners is not heard -/
theorem World.retunes_write {w : World H} (hd : w.document.Intact) (x : NodeId) (writing : Writing (Listener H.Handler))
    (hl : ∀ n : Node (Listener H.Handler), (writing.apply n).listeners = n.listeners)
    (ht : ∀ n : Node (Listener H.Handler), (writing.apply n).nextTicket = n.nextTicket) :
    w.Retunes [] (w.edit (writing.perform x)) :=
  ⟨rfl, Document.retunes_write hd x writing hl ht⟩

theorem World.retunes_removeAttribute {w : World H} (hd : w.document.Intact) (x : NodeId) (name : String) :
    w.Retunes [] (w.edit (·.removeAttribute x name)) :=
  World.retunes_write hd x (.removeAttribute name) (fun _ => rfl) fun _ => rfl

/-- takes an ear off -/
def Ear.cleanup (ear : Ear) : Cleanup H := .listener ear.node ear.ticket

/-- what an action has left to be done at the end minds where it is -/
def Cleanup.Minds (cleanup : Cleanup H) : Prop := ∃ node run, cleanup = .hook node run ∧ MindsAt node run

section

variable {c : Core H} {w₀ w : World H} {fragment : NodeId} (hd : w₀.document.Intact) (ha : c.Awaits w₀.document)
  (hp : c.phase = .created fragment) (h : c.Midway w₀ w)
include hd ha hp h

theorem Core.Midway.bindTexts (cells : List TextCell) (hcells : ∀ cell ∈ cells, cell.node ∈ c.handles) :
    c.Midway w₀ (LiveMarkup.bindTexts fragment cells w).world ∧
      w.Retunes [] (LiveMarkup.bindTexts fragment cells w).world := by
  induction cells generalizing w with
  | nil => exact ⟨h, .refl h.intact⟩
  | cons cell cells ih =>
    rw [List.forall_mem_cons] at hcells
    rw [LiveMarkup.bindTexts]
    cases hmarker : w.marker fragment ⟨.text, cell.index⟩ with
    | error fault => exact ⟨h, .refl h.intact⟩
    | ok spot =>
      have hstep := h.replaceWith (h.outside hd ha hp hmarker) fun T hT hother => ha.outside hd.valid hT hother hcells.1
      have htunes : w.Retunes [] (w.edit (·.replaceWith spot cell.node)) :=
        ⟨rfl, Document.retunes_replaceWith h.intact spot cell.node⟩
      obtain ⟨hrest, hrests⟩ := ih hstep hcells.2
      exact ⟨hrest, htunes.trans hrests⟩

omit hd ha hp in
/-- an attribute takes the place of its marker -/
theorem Core.Midway.renameAttribute {x : NodeId}
    (hx : ∀ T ∈ w₀.document.forest.trees, T.1.id ∉ c.handles → Document.Outside T x) (source : String) {target : String}
    (ht : ofAttribute? target = none) (value : String) :
    c.Midway w₀ (w.renameAttribute x source target value) ∧
      w.Retunes [] (w.renameAttribute x source target value) := by
  unfold World.renameAttribute
  cases w.backend.renamesInPlace with
  | true =>
    exact ⟨h.perform hx _ (Writing.fades_renameAttribute source ht value), World.retunes_write h.intact x
      (.renameAttribute source target value) (fun _ => rfl) fun _ => rfl⟩
  | false =>
    have hremove := h.perform hx _ (Writing.fades_removeAttribute source)
    exact ⟨hremove.perform hx _ (Writing.fades_setAttribute ht value),
      (World.retunes_removeAttribute h.intact x source).trans (World.retunes_write hremove.intact x
        (.setAttribute target value) (fun _ => rfl) fun _ => rfl)⟩

theorem Core.Midway.bindAttributes (cells : List AttributeCell) (hcells : ∀ cell ∈ cells, ofAttribute? cell.name = none) :
    c.Midway w₀ (LiveMarkup.bindAttributes fragment cells w).world ∧
      w.Retunes [] (LiveMarkup.bindAttributes fragment cells w).world := by
  induction cells generalizing w with
  | nil => exact ⟨h, .refl h.intact⟩
  | cons cell cells ih =>
    rw [List.forall_mem_cons] at hcells
    rw [LiveMarkup.bindAttributes]
    cases hmarker : w.marker fragment ⟨.attribute, cell.index⟩ with
    | error fault => exact ⟨h, .refl h.intact⟩
    | ok x =>
      obtain ⟨hstep, htunes⟩ := h.renameAttribute (h.outside hd ha hp hmarker) (Marker.name ⟨.attribute, cell.index⟩)
        hcells.1 cell.value
      obtain ⟨hrest, hrests⟩ := ih hstep hcells.2
      exact ⟨hrest, htunes.trans hrests⟩

/-- an ear for every event placeholder, up to the first marker that is missing -/
theorem Core.Midway.attachListeners (hs : c.template.Marked) {T : Type} (index : Nat) (ps : List (Placeholder (Action H) T))
    (hps : ∀ e ∈ spotsOf Placeholder.event? index ps, ⟨.event, e.1⟩ ∈ markersFor 0 c.template.placeholders) :
    let o := LiveMarkup.attachListeners fragment c.channel index ps w
    w.Retunes [c.channel] o.world ∧ ∃ ears : List Ear, o.self = ears.map Ear.cleanup ∧
      (∀ before, w.document.Hears c.channel before → o.world.document.Hears c.channel (before ++ ears)) ∧
      (o.result = .ok () → ears.map Ear.seat = c.template.seatsFrom fragment index ps) := by
  intro o
  subst o
  induction ps generalizing index w with
  | nil =>
    exact ⟨.refl h.intact, [], rfl, fun before hb => by rw [List.append_nil]; exact hb, fun _ => rfl⟩
  | cons p ps ih =>
    rw [spotsOf_cons, List.forall_mem_append] at hps
    cases p with
    | event event topic =>
      have hin := hps.1 _ (List.mem_singleton.2 rfl)
      rw [LiveMarkup.attachListeners]
      dsimp only
      cases hmarker : w.marker fragment ⟨.event, index⟩ with
      | error fault =>
        exact ⟨.refl h.intact, [], rfl, fun before hb => by rw [List.append_nil]; exact hb, fun hok => absurd hok error_ne_ok⟩
      | ok x =>
        have houtside := h.outside hd ha hp hmarker
        have hcarrier := h.finds hd ha hp hs hin hmarker
        have hx : x < w.document.fresh := by
          obtain ⟨n, hn, -⟩ := World.marker_answers h.intact (m := ⟨.event, index⟩) rfl hmarker
          exact h.intact.valid.below (Document.mem_ids_of_node? h.intact.valid (by rw [hn]; exact Option.some_ne_none n))
        have hremove := h.perform houtside _ (Writing.fades_removeAttribute (Marker.name ⟨.event, index⟩))
        have hremoved := World.retunes_removeAttribute h.intact x (Marker.name ⟨.event, index⟩)
        have hlisten := hremove.perform houtside (.listen event (.channel c.channel topic)) fun n => Kind.Fades.refl n.kind
        obtain ⟨htunes, ears, hself, hhears, hseats⟩ := ih hlisten (index + 1) hps.2
        have hheard : World.Retunes [c.channel] (w.edit (·.removeAttribute x (Marker.name ⟨.event, index⟩)))
            (World.listen (w.edit (·.removeAttribute x (Marker.name ⟨.event, index⟩))) x event (.channel c.channel topic)).1 :=
          ⟨rfl, Document.retunes_listen hremove.intact x event c.channel topic⟩
        refine ⟨((hremoved.mono (List.nil_subset _)).trans hheard).trans htunes, ⟨x, _, event, topic⟩ :: ears,
          congrArg _ hself, fun before hb => ?_, fun hok => ?_⟩
        · have hmore := (hb.retunes hremoved.tunes List.not_mem_nil).listen hremove.intact
            (Nat.lt_of_lt_of_le hx hremoved.tunes.fresh) event topic
          rw [List.append_cons]
          exact hhears _ hmore
        · rw [List.map_cons, hseats hok, Template.seatsFrom, Template.seatsFrom, spotsOf_cons]
          show _ = (event, topic, c.template.carrier? fragment index) :: _
          rw [hcarrier]
          rfl
    | _ => exact ih h (index + 1) hps.2

end

/-- the actions run, and leave behind what minds where it is -/
theorem retunes_runActions {T : Type} {w : World H} (fragment : NodeId) (props : Props)
    {ps : List (Placeholder (Action H) T)} (hm : ∀ run param, .action run param ∈ ps → Action.Minds run) (index : Nat)
    (hd : w.document.Intact) :
    w.Retunes [] (runActions fragment props index ps w).world ∧
      ∀ cleanup ∈ (runActions fragment props index ps w).self.1, cleanup.Minds := by
  induction ps generalizing index w with
  | nil => exact ⟨.refl hd, List.forall_mem_nil _⟩
  | cons p ps ih =>
    have hps : ∀ run param, .action run param ∈ ps → Action.Minds run := fun run param hin =>
      hm run param (List.mem_cons_of_mem _ hin)
    cases p with
    | action run param =>
      rw [runActions]
      dsimp only
      cases w.marker fragment ⟨.action, index⟩ with
      | error fault => exact ⟨.refl hd, List.forall_mem_nil _⟩
      | ok x =>
        have hremoved := World.retunes_removeAttribute hd x (Marker.name ⟨.action, index⟩)
        have hminds := hm run param List.mem_cons_self
        have hrun := (hminds.now x (param.bind props.get?) _ hremoved.tunes.intact).toRetunes
        obtain ⟨hrest, hcleanups⟩ := ih hps (index + 1) hrun.tunes.intact
        refine ⟨(hremoved.trans hrun).trans hrest, List.forall_mem_append.2 ⟨fun cleanup hin => ?_, hcleanups⟩⟩
        obtain ⟨destroy, hdestroy, rfl⟩ := Option.map_eq_some_iff.1 (Option.mem_toList.1 hin)
        exact ⟨x, destroy, rfl, hminds.later x _ _ hremoved.tunes.intact destroy hdestroy⟩
    | _ => exact ih hps (index + 1) hd

/-! ## Attending -/

/-- these ears are all that hear the channel, and they go first when the component undoes what it has to undo -/
structure Core.Listens (c : Core H) (ears : List Ear) (d : Document (Listener H.Handler)) : Prop where
  cleanups : ∃ hooks, c.cleanups = ears.map Ear.cleanup ++ hooks ∧ ∀ hook ∈ hooks, Cleanup.Minds hook
  hears : d.Hears c.channel ears

section

variable {c : Core H} {w : World H} {fragment : NodeId} {ears : List Ear}

/-- what is done to other channels makes no difference -/
theorem Core.Listens.retunes {d d₁ : Document (Listener H.Handler)} {K : List Nat} (h : c.Listens ears d)
    (hr : Document.Retunes K d d₁) (hc : c.channel ∉ K) : c.Listens ears d₁ := ⟨h.cleanups, h.hears.retunes hr hc⟩

/-- nothing to undo, and nobody who hears -/
theorem Core.Listens.deaf {d : Document (Listener H.Handler)} (hc : c.cleanups = []) (h : d.Hears c.channel []) :
    c.Listens [] d := ⟨⟨[], hc, List.forall_mem_nil _⟩, h⟩

/-- **Binding.** A component that waits binds itself as far as it gets, and listens; if all markers are found, it has an
ear for each event placeholder, on the node that carries the marker. -/
theorem Core.Awaits.attends_bind (ha : c.Awaits w.document) (hd : w.document.Intact) (hapt : c.template.Apt)
    (hp : c.phase = .created fragment) (hq : w.document.Hears c.channel []) :
    w.Retunes [c.channel] (c.bind fragment w).world ∧ ∃ ears,
      (c.bind fragment w).self.Listens ears (c.bind fragment w).world.document ∧
      ((c.bind fragment w).result = .ok () → ears.map Ear.seat = c.template.seats fragment) := by
  obtain ⟨htexts, htunes⟩ := (Core.Midway.start c hd).bindTexts hd ha hp c.textCells fun cell hcell =>
    Core.mem_handles.2 (.inr (.inr (.inl ⟨cell, hcell, rfl⟩)))
  obtain ⟨hattributes, hmore⟩ := htexts.bindAttributes hd ha hp c.attributeCells fun cell hcell =>
    (ha.attributes cell hcell).2
  have htunes' := htunes.trans hmore
  have hdeaf := hq.retunes htunes.tunes List.not_mem_nil
  have hdeaf' := hq.retunes htunes'.tunes List.not_mem_nil
  have hweaker : ([] : List Nat) ⊆ [c.channel] := List.nil_subset _
  obtain ⟨hlisten, ears, hself, hhears, hseats⟩ := hattributes.attachListeners hd ha hp hapt.sound.marked 0
    c.template.placeholders fun e he => by
      obtain ⟨p, hp, hevent⟩ := mem_spotsOf_zero.1 he
      refine mem_markersFor_zero.2 ⟨p, hp, ?_⟩
      cases p <;> first | rfl | cases hevent
  have hears := hhears [] hdeaf'
  rw [List.nil_append] at hears
  obtain ⟨hactions, hminds⟩ := retunes_runActions fragment c.props
    (fun run param hin => hapt.minds run param hin) 0 hlisten.tunes.intact
  unfold Core.bind
  dsimp only
  cases (LiveMarkup.bindTexts fragment c.textCells w).result with
  | error fault => exact ⟨htunes.mono hweaker, [], .deaf ha.cleanups hdeaf, fun hok => absurd hok error_ne_ok⟩
  | ok =>
    dsimp only
    cases (LiveMarkup.bindAttributes fragment c.attributeCells
        (LiveMarkup.bindTexts fragment c.textCells w).world).result with
    | error fault => exact ⟨htunes'.mono hweaker, [], .deaf ha.cleanups hdeaf', fun hok => absurd hok error_ne_ok⟩
    | ok =>
      dsimp only
      rw [ha.cleanups, List.nil_append, hself]
      cases hresult : (LiveMarkup.attachListeners fragment c.channel 0 c.template.placeholders
          (LiveMarkup.bindAttributes fragment c.attributeCells
            (LiveMarkup.bindTexts fragment c.textCells w).world).world).result with
      | error fault =>
        refine ⟨(htunes'.mono hweaker).trans hlisten, ears, ⟨⟨[], ?_, List.forall_mem_nil _⟩, hears⟩,
          fun hok => absurd hok error_ne_ok⟩
        exact (List.append_nil _).symm
      | ok =>
        exact ⟨((htunes'.mono hweaker).trans hlisten).trans (hactions.mono hweaker), ears,
          ⟨⟨_, rfl, hminds⟩, hears.retunes hactions.tunes List.not_mem_nil⟩, fun _ => hseats hresult⟩

/-- **Undoing.** A component undoes what it has to undo, and then nobody hears its channel. -/
theorem Core.Listens.cleanUp (h : c.Listens ears w.document) (hd : w.document.Intact) (ht : w.document.Ticketed) :
    w.Retunes [c.channel] (c.cleanUp w) ∧ (c.cleanUp w).document.Hears c.channel [] := by
  have hweaker : ([] : List Nat) ⊆ [c.channel] := List.nil_subset _
  obtain ⟨⟨hooks, hcleanups, hminds⟩, hears⟩ := h
  unfold Core.cleanUp
  rw [hcleanups]
  clear hcleanups
  induction ears generalizing w with
  | nil =>
    rw [List.map_nil, List.nil_append]
    induction hooks generalizing w with
    | nil => exact ⟨.refl hd, hears⟩
    | cons hook hooks ih =>
      rw [List.forall_mem_cons] at hminds
      obtain ⟨⟨node, run, rfl, hrun⟩, hrest⟩ := hminds
      have hone := (hrun w hd).toRetunes
      obtain ⟨htunes, hdeaf⟩ := ih (w := run w) hrest hone.tunes.intact
        (hone.tunes.ticketed ht) (hears.retunes hone.tunes List.not_mem_nil)
      exact ⟨(hone.mono hweaker).trans htunes, hdeaf⟩
  | cons ear ears ih =>
    obtain ⟨hless, htunes⟩ := hears.unlisten hd ht
    have hone : w.Retunes [c.channel] (w.edit (·.unlisten ear.node ear.ticket)) := ⟨rfl, htunes⟩
    obtain ⟨hrest, hdeaf⟩ := ih (w := w.edit (·.unlisten ear.node ear.ticket)) hone.tunes.intact (hone.tunes.ticketed ht)
      hless
    exact ⟨hone.trans hrest, hdeaf⟩

/-- while it is mounted, the component has an ear for each of its event placeholders, in order, on the node of its copy that
carried the marker; at any other time nobody hears its channel -/
def Core.Attends (d : Document (Listener H.Handler)) (c : Core H) : Prop :=
  ∃ ears, c.Listens ears d ∧ (c.phase ≠ .mounted → ears = []) ∧
    (c.phase = .mounted → ∃ fragment, d.Copied c.template fragment ∧ ears.map Ear.seat = c.template.seats fragment)

theorem Core.Attends.retunes {d d₁ : Document (Listener H.Handler)} {K : List Nat} (h : c.Attends d)
    (hr : Document.Retunes K d d₁) (hc : c.channel ∉ K) : c.Attends d₁ := by
  obtain ⟨ears, hl, hidle, hmounted⟩ := h
  refine ⟨ears, hl.retunes hr hc, hidle, fun hp => ?_⟩
  obtain ⟨fragment, hcopied, hseats⟩ := hmounted hp
  exact ⟨fragment, hcopied.retunes hr, hseats⟩

/-- a component that is not mounted and has nothing to undo -/
theorem Core.Attends.deaf {d : Document (Listener H.Handler)} (hp : c.phase ≠ .mounted) (hc : c.cleanups = [])
    (h : d.Hears c.channel []) : c.Attends d := ⟨[], .deaf hc h, fun _ => rfl, fun he => absurd he hp⟩

/-- nobody hears a component that is not mounted -/
theorem Core.Attends.quiet {d : Document (Listener H.Handler)} (h : c.Attends d) (hp : c.phase ≠ .mounted) :
    d.Hears c.channel [] := by
  obtain ⟨ears, hl, hidle, -⟩ := h
  exact hidle hp ▸ hl.hears

end

end LiveMarkup
