/-
Components under a diary.

A host that keeps a diary notes when its actions begin and when their hooks run. `World.Goes` says what was noted on the
way from one world to another, and that listeners for guarded channels are where they were, but for those of some channels.
`Core.Holds` says what a component has to show for it: a cleanup for each ear on its channel and for each last hook that
is still to run, in order, and update hooks of actions that have begun.

- `Core.bind_goes`: a component that waits binds itself: it gets ears and begins its actions, up to the first marker that is
  missing;
- `Core.cleanUp_goes`: it takes off its ears and ends its actions;
- `Core.applyEntries_goes`: its actions are told new values.
-/
import LiveMarkup.Proofs.Component.Attending
import LiveMarkup.Proofs.Component.Diary
import LiveMarkup.Proofs.Document.Moored

namespace LiveMarkup

open Markup Marker Forest

variable {H : Host}

/-- where host code keeps its diary, and the channels whose listeners it leaves alone -/
structure Logbook (H : Host) where
  diary : H.Outside → List Remark
  guarded : Nat → Prop

variable {B : Logbook H}

namespace World

/-- how many notes there are: the number of the next one -/
def noted (B : Logbook H) (w : World H) : Nat := (B.diary w.outside).length

/-- host code has noted this, left the listeners of guarded channels alone, and put nothing into a marker -/
structure Noted (B : Logbook H) (notes : List Remark) (w w₁ : World H) : Prop where
  keeps : Document.Keeps B.guarded w.document w₁.document
  fills : w.document.FillsNone w₁.document
  diary : B.diary w₁.outside = B.diary w.outside ++ notes

/-- this has been noted; guarded channels are heard as they were, but for these, and still not on markers -/
structure Goes (B : Logbook H) (K : List Nat) (notes : List Remark) (w w₁ : World H) : Prop where
  keeps : Document.Keeps (fun k => B.guarded k ∧ k ∉ K) w.document w₁.document
  discreet : w.document.Discreet B.guarded → w₁.document.Discreet B.guarded
  diary : B.diary w₁.outside = B.diary w.outside ++ notes

/-- the same, and nothing was put into a marker -/
structure Does (B : Logbook H) (K : List Nat) (notes : List Remark) (w w₁ : World H) : Prop extends Goes B K notes w w₁ where
  fills : w.document.FillsNone w₁.document

/-- a document as documents are, where nobody listens for guarded channels on a marker -/
structure Sober (B : Logbook H) (w : World H) : Prop where
  intact : w.document.Intact
  ticketed : w.document.Ticketed
  discreet : w.document.Discreet B.guarded

section

variable {K K' : List Nat} {notes more : List Remark} {w w₁ w₂ : World H}

theorem Goes.sober (h : w.Goes B K notes w₁) (hw : w.Sober B) : w₁.Sober B :=
  ⟨h.keeps.intact, h.keeps.ticketed hw.ticketed, h.discreet hw.discreet⟩

theorem Goes.noted (h : w.Goes B K notes w₁) : w₁.noted B = w.noted B + notes.length := by
  rw [World.noted, h.diary, List.length_append]
  rfl

theorem Goes.trans (h : w.Goes B K notes w₁) (h' : w₁.Goes B K more w₂) (hd : w.document.Intact) :
    w.Goes B K (notes ++ more) w₂ :=
  ⟨h.keeps.trans h'.keeps hd.valid, fun hq => h'.discreet (h.discreet hq), by rw [h'.diary, h.diary, List.append_assoc]⟩

theorem Goes.mono (h : w.Goes B K notes w₁) (hK : K ⊆ K') : w.Goes B K' notes w₁ :=
  ⟨h.keeps.mono fun _ hk => ⟨hk.1, fun hin => hk.2 (hK hin)⟩, h.discreet, h.diary⟩

theorem Does.trans (h : w.Does B K notes w₁) (h' : w₁.Does B K more w₂) (hd : w.document.Intact) :
    w.Does B K (notes ++ more) w₂ :=
  ⟨h.toGoes.trans h'.toGoes hd, h.fills.trans h'.fills h.keeps.intact.valid h.keeps.fresh⟩

theorem Does.mono (h : w.Does B K notes w₁) (hK : K ⊆ K') : w.Does B K' notes w₁ := ⟨h.toGoes.mono hK, h.fills⟩

/-- all guarded channels were kept -/
theorem Goes.of_keeps (hk : Document.Keeps B.guarded w.document w₁.document)
    (hd : B.diary w₁.outside = B.diary w.outside ++ notes) : w.Goes B [] notes w₁ :=
  ⟨hk.mono fun _ hk => hk.1, fun hq => hk.discreet hq fun _ _ _ hx hg hn => hk.silent hx hn hg, hd⟩

/-- host code keeps them -/
theorem Noted.does (h : w.Noted B notes w₁) : w.Does B [] notes w₁ := ⟨.of_keeps h.keeps h.diary, h.fills⟩

theorem Does.refl (hd : w.document.Intact) : w.Does B K [] w :=
  ⟨⟨.refl hd, id, (List.append_nil _).symm⟩, .refl _⟩

/-- a change of the document alone -/
theorem does_edit {f : Document (Listener H.Handler) → Document (Listener H.Handler)}
    (hk : Document.Keeps B.guarded w.document (f w.document)) (hf : w.document.FillsNone (f w.document)) :
    w.Does B [] [] (w.edit f) := Noted.does ⟨hk, hf, (List.append_nil _).symm⟩

theorem does_detach (hd : w.document.Intact) (x : NodeId) : w.Does B [] [] (w.edit (·.detach x)) :=
  does_edit (Document.keeps_detach hd x) (Document.fillsNone_detach hd x)

end

end World

/-! ## Writing -/

/-- where no marker comes to an element, none is there if none was -/
theorem Kind.Fades.attributeMarkers {k k₁ : Kind} (h : k.Fades k₁) (hk : attributeMarkers k.attributes = []) :
    attributeMarkers k₁.attributes = [] := by
  refine List.filterMap_eq_nil_iff.2 fun a ha => ?_
  rcases h a.1 (List.mem_map_of_mem ha) with hin | hnone
  · obtain ⟨b, hb, hname⟩ := List.mem_map.1 hin
    rw [← hname]
    exact List.filterMap_eq_nil_iff.1 hk b hb
  · exact hnone

section

variable {w : World H} (hd : w.document.Intact)
include hd

/-- what is written into a node other than listeners and markers -/
theorem World.does_write (x : NodeId) (writing : Writing (Listener H.Handler))
    (hl : ∀ n : Node (Listener H.Handler), (writing.apply n).listeners = n.listeners)
    (ht : ∀ n : Node (Listener H.Handler), (writing.apply n).nextTicket = n.nextTicket)
    (hf : ∀ n : Node (Listener H.Handler), n.kind.Fades (writing.apply n).kind) :
    w.Does B [] [] (w.edit (writing.perform x)) :=
  World.does_edit ((Document.retunes_write hd x writing hl ht).keeps_perform hd (List.forall_mem_nil _))
    (Document.fillsNone_perform hd x fun n => (hf n).attributeMarkers)

theorem World.does_removeAttribute (x : NodeId) (name : String) : w.Does B [] [] (w.edit (·.removeAttribute x name)) :=
  World.does_write hd x (.removeAttribute name) (fun _ => rfl) (fun _ => rfl) (Writing.fades_removeAttribute name)

theorem World.does_setAttribute (x : NodeId) {name : String} (hn : ofAttribute? name = none) (value : String) :
    w.Does B [] [] (w.edit (·.setAttribute x name value)) :=
  World.does_write hd x (.setAttribute name value) (fun _ => rfl) (fun _ => rfl) (Writing.fades_setAttribute hn value)

theorem World.does_renameAttribute (x : NodeId) (source : String) {target : String} (hn : ofAttribute? target = none)
    (value : String) : w.Does B [] [] (w.renameAttribute x source target value) := by
  unfold World.renameAttribute
  cases w.backend.renamesInPlace with
  | true =>
    exact World.does_write hd x (.renameAttribute source target value) (fun _ => rfl) (fun _ => rfl)
      (Writing.fades_renameAttribute source hn value)
  | false =>
    have hremove : w.Does B [] [] (w.edit (·.removeAttribute x source)) := World.does_removeAttribute hd x source
    exact hremove.trans (World.does_setAttribute hremove.keeps.intact x hn value) hd

theorem World.does_setData (x : NodeId) (data : String) : w.Does B [] [] (w.edit (·.setData x data)) := by
  refine World.does_write hd x (.setData data) (fun _ => rfl) (fun _ => rfl) fun n => ?_
  obtain ⟨id, kind, listeners, nextTicket⟩ := n
  cases kind <;> exact .refl _

end

/-! ## Markers below a fragment -/

/-- what is found below a node has a parent that is in the tree of the node -/
theorem Document.below_of_firstBelow? {L : Type} {d : Document L} (hv : d.Valid) {root x : NodeId} {test : Node L → Bool}
    (h : d.firstBelow? root test = some x) : ∃ p, d.parent? x = some p ∧ d.contains root p = true := by
  obtain ⟨n, hn, rfl⟩ := Option.map_eq_some_iff.1 h
  have hmem := List.mem_of_find?_eq_some hn
  rw [Document.childForest] at hmem
  cases hf : d.find? root with
  | none =>
    rw [hf] at hmem
    cases hmem
  | some t =>
    obtain ⟨m, cs⟩ := t
    rw [hf] at hmem
    obtain ⟨hroot, hs⟩ := Document.find?_subtree hv hf
    have hin : d.contains root n.id = true := by
      rw [Document.contains, Document.childForest, hf, Bool.or_eq_true]
      exact .inr (List.any_eq_true.2 ⟨n, hmem, Document.isNode_iff.2 rfl⟩)
    have hne : n.id ≠ root := by
      have hnodup := ((subtree_sublist hs.1).map Node.id).nodup hv.nodup
      rw [List.map_cons, List.nodup_cons] at hnodup
      rw [← hroot]
      exact fun he => hnodup.1 (he ▸ List.mem_map_of_mem hmem)
    exact ((Document.contains_iff hv).1 hin).resolve_left hne

section

variable {w : World H} (hd : w.document.Intact) {fragment x : NodeId} {m : Marker}
include hd

theorem World.below_of_marker (h : w.marker fragment m = .ok x) :
    ∃ p, w.document.parent? x = some p ∧ w.document.contains fragment p = true := by
  rw [World.marker] at h
  split at h
  · next y hy =>
    obtain rfl : y = x := Except.ok.inj h
    split at hy
    · rw [World.findAttribute?] at hy
      split at hy
      · exact Document.below_of_firstBelow? hd.valid hy
      · cases hy
    · rw [World.findElement?] at hy
      split at hy
      · exact Document.below_of_firstBelow? hd.valid hy
      · cases hy
  · cases h

/-- the marker of a text, a slot or a child is an element with its tag -/
theorem World.node_of_marker (hm : m.category.inTag = false) (hi : m.index < indexLimit) (h : w.marker fragment m = .ok x) :
    ∃ n, w.document.node? x = some n ∧ n.kind.marker? = some m := by
  rw [World.marker, hm, if_neg Bool.false_ne_true, World.findElement?] at h
  split at h
  · next y hy =>
    obtain rfl : y = x := Except.ok.inj h
    split at hy
    · obtain ⟨n, hn, hname⟩ := Document.node?_of_firstBelow? hd.valid hy
      have ha : n.kind.answers m = true := by rw [Kind.answers, hm, if_neg Bool.false_ne_true]; exact hname
      exact ⟨n, hn, Kind.marker?_of_answers hm hi ha⟩
    · cases hy
  · cases h

/-- below a hollow fragment it waits to be taken out -/
theorem World.pending_of_marker (hf : w.document.Hollow fragment) (hm : m.category.inTag = false) (hi : m.index < indexLimit)
    (h : w.marker fragment m = .ok x) : w.document.Pending x := by
  obtain ⟨p, hp, hin⟩ := World.below_of_marker hd h
  obtain ⟨n, hn, hmarker⟩ := World.node_of_marker hd hm hi h
  refine ⟨hd.valid.below (Document.mem_ids_of_node? hd.valid (by rw [hn]; exact Option.some_ne_none n)), ?_, fun k hk => ?_,
    fun q hq => ?_⟩
  · exact hf.inside hd.valid ((Document.contains_iff hd.valid).2 (.inr ⟨p, hp, hin⟩))
  · obtain rfl := Option.some.inj (hn.symm.trans hk)
    rw [hmarker]
    exact Option.some_ne_none m
  · obtain rfl := Option.some.inj (hp.symm.trans hq)
    exact hf.not_shut hd.valid hin hp

/-- the marker of an attribute, an event or an action below a hollow fragment is on an element that is no marker itself -/
theorem World.unmarked_of_marker (hf : w.document.Hollow fragment) (hm : m.category.inTag = true) (hi : m.index < indexLimit)
    (h : w.marker fragment m = .ok x) : w.document.node? x ≠ none ∧ ¬ w.document.Marked x := by
  obtain ⟨p, hp, hin⟩ := World.below_of_marker hd h
  obtain ⟨n, hn, ha⟩ := World.marker_answers hd hm h
  refine ⟨by rw [hn]; exact Option.some_ne_none n, ?_⟩
  rintro ⟨k, hk, hmark⟩
  obtain rfl := Option.some.inj (hn.symm.trans hk)
  have hnone := (hf x n ((Document.contains_iff hd.valid).2 (.inr ⟨p, hp, hin⟩)) hn (.inl hmark)).2
  obtain ⟨a, hmem, hname⟩ := List.mem_map.1 ((Kind.answers_inTag hm).1 ha)
  have := List.filterMap_eq_nil_iff.1 hnone a hmem
  rw [hname, ofAttribute?_name hm hi] at this
  cases this

end

/-- what holds of the markers that are looked for holds of those that are found -/
theorem World.forall_spots {w : World H} {fragment : NodeId} {category : Category} {P : Nat × NodeId → Prop}
    {indices : List Nat} {spots : List (Nat × NodeId)} (h : w.spots fragment category indices = .ok spots)
    (hP : ∀ i ∈ indices, ∀ x, w.marker fragment ⟨category, i⟩ = .ok x → P (i, x)) : ∀ spot ∈ spots, P spot := by
  induction indices generalizing spots with
  | nil =>
    obtain rfl := Except.ok.inj h
    exact List.forall_mem_nil _
  | cons index indices ih =>
    rw [List.forall_mem_cons] at hP
    rw [World.spots] at h
    cases hmarker : w.marker fragment ⟨category, index⟩ with
    | error fault =>
      rw [hmarker] at h
      cases h
    | ok spot =>
      rw [hmarker] at h
      cases hothers : w.spots fragment category indices with
      | error fault =>
        rw [hothers] at h
        cases h
      | ok others =>
        rw [hothers] at h
        obtain rfl := Except.ok.inj h
        exact List.forall_mem_cons.2 ⟨hP.1 spot hmarker, ih hothers hP.2⟩

/-- the markers of slots and children below a hollow fragment wait to be taken out -/
theorem World.pending_of_spots {w : World H} (hd : w.document.Intact) {fragment : NodeId} (hf : w.document.Hollow fragment)
    {category : Category} (hc : category.inTag = false) {indices : List Nat} (hi : ∀ i ∈ indices, i < indexLimit)
    {spots : List (Nat × NodeId)} (h : w.spots fragment category indices = .ok spots) :
    ∀ spot ∈ spots, w.document.Pending spot.2 :=
  World.forall_spots h fun i hin _ hx => World.pending_of_marker hd hf hc (hi i hin) hx

/-! ## Binding -/

section

variable {w : World H} {fragment : NodeId}

/-- what the marker of a text is in is not shut -/
theorem World.unshut_of_marker (hd : w.document.Intact) (hf : w.document.Hollow fragment) {m : Marker} {spot : NodeId}
    (h : w.marker fragment m = .ok spot) : ∀ p, w.document.parent? spot = some p → ¬ w.document.Shut p := by
  obtain ⟨p, hp, hin⟩ := World.below_of_marker hd h
  exact fun q hq => Option.some.inj (hp.symm.trans hq) ▸ hf.not_shut hd.valid hin hp

theorem bindTexts_does (hd : w.document.Intact) (hf : w.document.Hollow fragment) {cells : List TextCell}
    (hc : ∀ cell ∈ cells, w.document.Hollow cell.node) : w.Does B [] [] (bindTexts fragment cells w).world := by
  induction cells generalizing w with
  | nil => exact .refl hd
  | cons cell cells ih =>
    rw [List.forall_mem_cons] at hc
    rw [bindTexts]
    cases hmarker : w.marker fragment ⟨.text, cell.index⟩ with
    | error fault => exact .refl hd
    | ok spot =>
      have hone : w.Does B [] [] (w.edit (·.replaceWith spot cell.node)) := World.does_edit
        (Document.keeps_replaceWith hd spot cell.node)
        (Document.fillsNone_replaceWith hd (World.unshut_of_marker hd hf hmarker) hc.1)
      exact hone.trans (ih hone.keeps.intact (hone.fills.hollow _ hf) fun cell hcell => hone.fills.hollow _ (hc.2 cell hcell)) hd

theorem bindAttributes_does (fragment : NodeId) (hd : w.document.Intact) {cells : List AttributeCell}
    (hc : ∀ cell ∈ cells, ofAttribute? cell.name = none) :
    w.Does B [] [] (bindAttributes fragment cells w).world ∧
      ∀ cell ∈ (bindAttributes fragment cells w).self, ofAttribute? cell.name = none := by
  induction cells generalizing w with
  | nil => exact ⟨.refl hd, hc⟩
  | cons cell cells ih =>
    have hall := hc
    rw [List.forall_mem_cons] at hc
    rw [bindAttributes]
    cases w.marker fragment ⟨.attribute, cell.index⟩ with
    | error fault => exact ⟨.refl hd, hall⟩
    | ok x =>
      have hone : w.Does B [] [] (w.renameAttribute x (Marker.name ⟨.attribute, cell.index⟩) cell.name cell.value) :=
        World.does_renameAttribute hd x _ hc.1 _
      obtain ⟨hrest, hnames⟩ := ih hone.keeps.intact hc.2
      exact ⟨hone.trans hrest hd, List.forall_mem_cons.2 ⟨hc.1, hnames⟩⟩

/-- one ear more, on an element that is no marker -/
theorem World.does_listen (hd : w.document.Intact) {x : NodeId} (hx : ¬ w.document.Marked x) (channel : Nat)
    (event topic : String) : w.Does B [channel] [] (w.listen x event (.channel channel topic)).1 := by
  have htunes : Document.Retunes [channel] w.document
      ((Writing.listen event (.channel channel topic)).perform x w.document) :=
    Document.retunes_listen hd x event channel topic
  have hkeeps : Document.Keeps (fun k => B.guarded k ∧ k ∉ [channel]) w.document
      (w.listen x event (.channel channel topic)).1.document :=
    htunes.keeps_perform hd fun k hk hg => hg.2 hk
  have hfills : w.document.FillsNone ((Writing.listen event (.channel channel topic)).perform x w.document) :=
    Document.fillsNone_perform hd x fun _ => id
  refine ⟨⟨hkeeps, fun hq y n k hk hn hm => ?_, (List.append_nil _).symm⟩, hfills⟩
  have hnode := ((Document.rewrites_perform hd (.listen event (.channel channel topic)) x).2.node y).symm.trans hn
  obtain ⟨n₀, hn₀, hsame⟩ := Option.map_eq_some_iff.1 hnode
  have hy : y ≠ x := by
    rintro rfl
    rw [if_pos rfl] at hsame
    exact hx ⟨n₀, hn₀, by rw [← hsame] at hm; exact hm⟩
  rw [if_neg hy] at hsame
  exact hsame ▸ hq y n₀ k hk hn₀ (hsame ▸ hm)

/-- an ear for every event placeholder, up to the first marker that is missing -/
theorem attachListeners_does {T : Type} (hd : w.document.Intact) (hf : w.document.Hollow fragment) (channel : Nat)
    {index : Nat} {ps : List (Placeholder (Action H) T)}
    (hi : ∀ e ∈ spotsOf Placeholder.event? index ps, e.1 < indexLimit) :
    let o := attachListeners fragment channel index ps w
    w.Does B [channel] [] o.world ∧ ∃ ears : List Ear, o.self = ears.map Ear.cleanup ∧
      (∀ before, w.document.Attached channel before → o.world.document.Attached channel (before ++ ears)) ∧
      (o.result = .ok () → ears.map (fun ear => (ear.event, ear.topic)) =
        (spotsOf Placeholder.event? index ps).map (·.2)) := by
  intro o
  subst o
  induction ps generalizing index w with
  | nil => exact ⟨.refl hd, [], rfl, fun before hb => by rw [List.append_nil]; exact hb, fun _ => rfl⟩
  | cons p ps ih =>
    rw [spotsOf_cons, List.forall_mem_append] at hi
    cases p with
    | event event topic =>
      have hlt : index < indexLimit := hi.1 _ (List.mem_singleton.2 rfl)
      rw [attachListeners]
      dsimp only
      cases hmarker : w.marker fragment ⟨.event, index⟩ with
      | error fault =>
        exact ⟨.refl hd, [], rfl, fun before hb => by rw [List.append_nil]; exact hb, fun hok => absurd hok error_ne_ok⟩
      | ok x =>
        obtain ⟨hx, hunmarked⟩ := World.unmarked_of_marker hd hf (m := ⟨.event, index⟩) rfl hlt hmarker
        have hremove : w.Does B [] [] (w.edit (·.removeAttribute x (Marker.name ⟨.event, index⟩))) :=
          World.does_removeAttribute hd x _
        have hd₁ := hremove.keeps.intact
        have hsame : ∀ y, (w.edit (·.removeAttribute x (Marker.name ⟨.event, index⟩))).document.node? y ≠ none ↔
            w.document.node? y ≠ none := fun y => by
          show ((Writing.removeAttribute (Marker.name ⟨.event, index⟩)).perform x w.document).node? y ≠ none ↔ _
          rw [(Document.rewrites_perform hd (.removeAttribute (Marker.name ⟨.event, index⟩)) x).2.node]
          simp
        have hlisten : World.Does B [channel] [] (w.edit (·.removeAttribute x (Marker.name ⟨.event, index⟩)))
            (World.listen (w.edit (·.removeAttribute x (Marker.name ⟨.event, index⟩))) x event (.channel channel topic)).1 :=
          World.does_listen hd₁ (fun hm => hunmarked (hremove.fills.marked
            (hd.valid.below (Document.mem_ids_of_node? hd.valid hx)) hm)) channel event topic
        have hboth := (hremove.mono (List.nil_subset _)).trans hlisten hd
        obtain ⟨hrest, ears, hself, hattached, hevents⟩ := ih hboth.keeps.intact (hboth.fills.hollow _ hf) hi.2
        refine ⟨hboth.trans hrest hd, ⟨x, _, event, topic⟩ :: ears, congrArg _ hself, fun before hb => ?_, fun hok => ?_⟩
        · have hkept : (w.edit (·.removeAttribute x (Marker.name ⟨.event, index⟩))).document.Attached channel before :=
            hb.keeps (P := fun _ => True) ((Document.retunes_write hd x (.removeAttribute (Marker.name ⟨.event, index⟩))
              (fun _ => rfl) fun _ => rfl).keeps_perform hd (List.forall_mem_nil _)) trivial
          rw [List.append_cons]
          exact hattached _ (hkept.listen hd₁ ((hsame x).2 hx) event topic)
        · rw [List.map_cons, hevents hok, spotsOf_cons]
          rfl
    | _ => exact ih hd hf hi.2

end

/-! ## Actions -/

def Placeholder.action? {T : Type} : Placeholder (Action H) T → Option (Action H)
  | .action run _ => some run
  | _ => none

/-- an action that notes that it has begun and leaves markers in their places, and whose hooks note that they have run -/
structure Action.Notes (B : Logbook H) (index : Nat) (run : Action H) : Prop where
  stays : ∀ x value (w : World H), w.document.Intact →
    w.document.Moors (fun _ => False) (run x value w).1.document
  begins : ∀ x value (w : World H), w.document.Intact → w.Noted B
    [.began index (run x value w).2.update.isSome (run x value w).2.destroy.isSome] (run x value w).1
  tells : ∀ x value (w : World H), w.document.Intact → ∀ hook, (run x value w).2.update = some hook →
    ∀ v (w' : World H), w'.document.Intact → w'.Noted B [.told (w.noted B)] (hook v w')
  ends : ∀ x value (w : World H), w.document.Intact → ∀ hook, (run x value w).2.destroy = some hook →
    ∀ w' : World H, w'.document.Intact → w'.Noted B [.ended (w.noted B)] (hook w')

/-- a last hook that makes this note -/
def Cleanup.Ends (B : Logbook H) (cleanup : Cleanup H) (note : Remark) : Prop :=
  ∃ x run, cleanup = .hook x run ∧ ∀ w : World H, w.document.Intact → w.Noted B [note] (run w)

/-- a hook by which an action is told values -/
def UpdateHook.Tells (B : Logbook H) (hook : UpdateHook H) (errand : Errand) : Prop :=
  hook.index = errand.index ∧ errand.updates = true ∧
    ∀ v (w : World H), w.document.Intact → w.Noted B [.told errand.number] (hook.run v w)

/-- the actions begin in the order of their placeholders, up to the first marker that is missing -/
theorem runActions_does {T : Type} {w : World H} (hd : w.document.Intact) (fragment : NodeId) (props : Props) {index : Nat}
    {ps : List (Placeholder (Action H) T)} (ha : ∀ e ∈ spotsOf Placeholder.action? index ps, Action.Notes B e.1 e.2) :
    let o := runActions fragment props index ps w
    ∃ errands, w.Does B [] (beginnings errands) o.world ∧ Follow (w.noted B) errands ∧ (∀ e ∈ errands, index ≤ e.index) ∧
      List.Forall₂ (Cleanup.Ends B) o.self.1 (endings errands) ∧ ∀ hook ∈ o.self.2, ∃ errand ∈ errands, hook.Tells B errand := by
  intro o
  subst o
  induction ps generalizing index w with
  | nil => exact ⟨[], .refl hd, ⟨rfl, .nil⟩, List.forall_mem_nil _, .nil, List.forall_mem_nil _⟩
  | cons p ps ih =>
    rw [spotsOf_cons, List.forall_mem_append] at ha
    cases p with
    | action run param =>
      have hrun : Action.Notes B index run := ha.1 _ (List.mem_singleton.2 rfl)
      rw [runActions]
      dsimp only
      cases w.marker fragment ⟨.action, index⟩ with
      | error fault => exact ⟨[], .refl hd, ⟨rfl, .nil⟩, List.forall_mem_nil _, .nil, List.forall_mem_nil _⟩
      | ok x =>
        dsimp only
        have hremove : w.Does B [] [] (w.edit (·.removeAttribute x (Marker.name ⟨.action, index⟩))) :=
          World.does_removeAttribute hd x _
        have hnumber : (w.edit (·.removeAttribute x (Marker.name ⟨.action, index⟩))).noted B = w.noted B := hremove.noted
        have hbegins := hrun.begins x (param.bind props.get?) _ hremove.keeps.intact
        have htells := hrun.tells x (param.bind props.get?) _ hremove.keeps.intact
        have hends := hrun.ends x (param.bind props.get?) _ hremove.keeps.intact
        rw [hnumber] at htells hends
        generalize run x (param.bind props.get?) (w.edit (·.removeAttribute x (Marker.name ⟨.action, index⟩))) = ran
          at hbegins htells hends ⊢
        obtain ⟨w₁, update, destroy⟩ := ran
        have hboth := hremove.trans hbegins.does hd
        obtain ⟨errands, hrest, hfollow, hle, hcleanups, hhooks⟩ := ih hboth.keeps.intact ha.2
        rw [hboth.noted] at hfollow
        refine ⟨⟨w.noted B, index, update.isSome, destroy.isSome⟩ :: errands, hboth.trans hrest hd, ⟨?_, ?_⟩, ?_, ?_, ?_⟩
        · rw [List.map_cons, hfollow.numbers, List.length_cons, List.range'_succ]
          rfl
        · refine List.pairwise_cons.2 ⟨fun i hin => ?_, hfollow.order⟩
          obtain ⟨e, he, rfl⟩ := List.mem_map.1 hin
          exact hle e he
        · exact List.forall_mem_cons.2 ⟨Nat.le_refl _, fun e he => Nat.le_of_succ_le (hle e he)⟩
        · cases destroy with
          | none => exact hcleanups
          | some hook => exact .cons ⟨x, hook, rfl, hends hook rfl⟩ hcleanups
        · refine List.forall_mem_append.2 ⟨fun hook hin => ?_, fun hook hin => ?_⟩
          · cases update with
            | none => cases hin
            | some f =>
              obtain rfl := List.mem_singleton.1 hin
              exact ⟨_, List.mem_cons_self, rfl, rfl, htells f rfl⟩
          · obtain ⟨errand, hmem, htold⟩ := hhooks hook hin
            exact ⟨errand, List.mem_cons_of_mem _ hmem, htold⟩
    | _ =>
      obtain ⟨errands, hdoes, hfollow, hle, hrest⟩ := ih hd ha.2
      exact ⟨errands, hdoes, hfollow, fun e he => Nat.le_of_succ_le (hle e he), hrest⟩

/-! ## What a component holds -/

/-- a template whose actions note what they do -/
structure Template.Noting (B : Logbook H) (t : Template (Action H)) : Prop where
  sound : t.Sound
  notes : ∀ e ∈ spotsOf Placeholder.action? 0 t.placeholders, Action.Notes B e.1 e.2

/-- a component with such a template and a guarded channel, which shows no prop as a marker -/
structure Core.Noting (B : Logbook H) (c : Core H) : Prop where
  template : c.template.Noting B
  guarded : B.guarded c.channel
  named : ∀ cell ∈ c.attributeCells, ofAttribute? cell.name = none

/-- what a component has to show for its ears and for the actions that it has begun -/
structure Core.Holds (B : Logbook H) (ears : List Ear) (errands : List Errand) (c : Core H)
    (d : Document (Listener H.Handler)) : Prop where
  cleanups : ∃ hooks, c.cleanups = ears.map Ear.cleanup ++ hooks ∧ List.Forall₂ (Cleanup.Ends B) hooks (endings errands)
  hooks : ∀ hook ∈ c.updateHooks, ∃ errand ∈ errands, hook.Tells B errand
  attached : d.Attached c.channel ears

/-- the event and the topic of every event placeholder, in order -/
def Template.eventTopics {A : Type} (t : Template A) : List (String × String) :=
  (spotsOf Placeholder.event? 0 t.placeholders).map (·.2)

theorem Template.Sound.index_lt {A : Type} {t : Template A} (h : t.Sound) {m : Marker}
    (hm : m ∈ markersFor 0 t.placeholders) : m.index < indexLimit := index_lt_of_mem (h.markers ▸ hm)

theorem Template.Sound.indices_lt {A : Type} {t : Template A} (h : t.Sound) (category : Category) :
    ∀ i ∈ indicesOf t.placeholders category, i < indexLimit := fun i hi =>
  h.index_lt (m := ⟨category, i⟩) (mem_markersFor_zero.2 (mem_indicesOf.1 hi))

theorem Template.Sound.event_lt {A : Type} {t : Template A} (h : t.Sound) :
    ∀ e ∈ spotsOf Placeholder.event? 0 t.placeholders, e.1 < indexLimit := by
  intro e he
  obtain ⟨p, hp, hevent⟩ := mem_spotsOf_zero.1 he
  refine h.index_lt (m := ⟨.event, e.1⟩) (mem_markersFor_zero.2 ⟨p, hp, ?_⟩)
  cases p <;> first | rfl | cases hevent

section

variable {w : World H} {c : Core H} {ears : List Ear} {errands : List Errand}

theorem Core.Holds.none (hc : c.cleanups = []) (hu : c.updateHooks = []) (ha : w.document.Attached c.channel []) :
    c.Holds B [] [] w.document :=
  ⟨⟨[], hc, .nil⟩, by rw [hu]; exact List.forall_mem_nil _, ha⟩

/-- it still does when guarded channels are kept -/
theorem Core.Holds.keeps {P : Nat → Prop} {d d₁ : Document (Listener H.Handler)} (h : c.Holds B ears errands d)
    (hk : Document.Keeps P d d₁) (hc : P c.channel) : c.Holds B ears errands d₁ :=
  ⟨h.cleanups, h.hooks, h.attached.keeps hk hc⟩

/-- **A component binds itself.** It gets ears and begins its actions, up to the first marker that is missing. -/
theorem Core.bind_goes (hd : w.document.Intact) (hc : c.Noting B) {fragment : NodeId} (hf : w.document.Hollow fragment)
    (ht : ∀ cell ∈ c.textCells, w.document.Hollow cell.node) (hh : c.Holds B [] [] w.document) :
    let o := c.bind fragment w
    ∃ ears errands, w.Does B [c.channel] (beginnings errands) o.world ∧ Follow (w.noted B) errands ∧
      o.self.Holds B ears errands o.world.document ∧ o.self.Noting B ∧
      (o.result = .ok () → ears.map (fun ear => (ear.event, ear.topic)) = c.template.eventTopics) := by
  intro o
  subst o
  have hcleanups : c.cleanups = [] := by
    obtain ⟨hooks, he, hends⟩ := hh.cleanups
    cases hends
    exact he
  have hupdates : c.updateHooks = [] := List.eq_nil_iff_forall_not_mem.2 fun hook hin => by
    obtain ⟨errand, hmem, -⟩ := hh.hooks hook hin
    cases hmem
  have hempty : Follow (w.noted B) [] := ⟨rfl, .nil⟩
  have htexts : w.Does B [] [] (bindTexts fragment c.textCells w).world := bindTexts_does hd hf ht
  have hguarded : B.guarded c.channel ∧ c.channel ∉ [] := ⟨hc.guarded, List.not_mem_nil⟩
  rw [Core.bind]
  dsimp only
  generalize bindTexts fragment c.textCells w = texts at htexts ⊢
  have hd₁ := htexts.keeps.intact
  cases texts.result with
  | error fault =>
    exact ⟨[], [], htexts.mono (List.nil_subset _), hempty, hh.keeps htexts.keeps hguarded, hc, fun hok => absurd hok error_ne_ok⟩
  | ok =>
    dsimp only
    obtain ⟨hattributes, hnamed⟩ := bindAttributes_does (B := B) fragment hd₁ hc.named
    generalize bindAttributes fragment c.attributeCells texts.world = attributes at hattributes hnamed ⊢
    have hboth := htexts.trans hattributes hd
    have hd₂ := hattributes.keeps.intact
    have hkept := hh.attached.keeps hboth.keeps hguarded
    cases attributes.result with
    | error fault =>
      exact ⟨[], [], hboth.mono (List.nil_subset _), hempty, .none hcleanups hupdates hkept, ⟨hc.template, hc.guarded, hnamed⟩,
        fun hok => absurd hok error_ne_ok⟩
    | ok =>
      dsimp only
      obtain ⟨hlisteners, ears, hself, hattached, hevents⟩ :=
        attachListeners_does (B := B) hd₂ (hboth.fills.hollow _ hf) c.channel
          hc.template.sound.event_lt
      have hears := hattached [] hkept
      rw [List.nil_append] at hears
      generalize attachListeners fragment c.channel 0 c.template.placeholders attributes.world = listeners at *
      have hall := (hboth.mono (List.nil_subset _)).trans hlisteners hd
      have hd₃ := hlisteners.keeps.intact
      cases hr : listeners.result with
      | error fault =>
        refine ⟨ears, [], hall, hempty, ⟨⟨[], ?_, .nil⟩, ?_, hears⟩, ⟨hc.template, hc.guarded, hnamed⟩,
          fun hok => absurd hok error_ne_ok⟩
        · show c.cleanups ++ listeners.self = _
          rw [hcleanups, hself, List.nil_append, List.append_nil]
        · show ∀ hook ∈ c.updateHooks, _
          rw [hupdates]
          exact List.forall_mem_nil _
      | ok =>
        dsimp only
        obtain ⟨errands, hactions, hfollow, -, hcleanups', hhooks⟩ :=
          runActions_does (B := B) hd₃ fragment c.props hc.template.notes
        rw [hall.noted] at hfollow
        refine ⟨ears, errands, hall.trans (hactions.mono (List.nil_subset _)) hd, hfollow, ⟨⟨_, ?_, hcleanups'⟩, ?_, ?_⟩,
          ⟨hc.template, hc.guarded, hnamed⟩, fun _ => hevents hr⟩
        · show c.cleanups ++ listeners.self ++ _ = _
          rw [hcleanups, hself, List.nil_append]
        · show ∀ hook ∈ c.updateHooks ++ _, _
          rw [hupdates, List.nil_append]
          exact hhooks
        · exact hears.keeps hactions.keeps hguarded

/-! ## Cleaning up -/

/-- an ear is taken off -/
theorem World.does_unlisten {channel : Nat} {ear : Ear} (hw : w.Sober B) (ha : w.document.Attached channel (ear :: ears)) :
    w.Does B [channel] [] (w.edit (·.unlisten ear.node ear.ticket)) ∧
      (w.edit (·.unlisten ear.node ear.ticket)).document.Attached channel ears := by
  obtain ⟨hless, hr⟩ := ha.unlisten hw.intact hw.ticketed
  have htunes : Document.Retunes [channel] w.document ((Writing.unlisten ear.ticket).perform ear.node w.document) := hr
  have hkeeps : Document.Keeps (fun k => B.guarded k ∧ k ∉ [channel]) w.document
      (w.edit (·.unlisten ear.node ear.ticket)).document := htunes.keeps_perform hw.intact fun k hk hg => hg.2 hk
  have hfills : w.document.FillsNone ((Writing.unlisten ear.ticket).perform ear.node w.document) :=
    Document.fillsNone_perform hw.intact ear.node fun _ => id
  refine ⟨⟨⟨hkeeps, fun hq y n k hk hn hm => ?_, (List.append_nil _).symm⟩, hfills⟩, hless⟩
  have hnode := ((Document.rewrites_perform hw.intact (.unlisten ear.ticket) ear.node).2.node y).symm.trans hn
  obtain ⟨n₀, hn₀, rfl⟩ := Option.map_eq_some_iff.1 hnode
  by_cases hy : y = ear.node
  · rw [if_pos hy] at hm ⊢
    have hnone : n₀.heard k = [] := hq y n₀ k hk hn₀ hm
    show (n₀.listeners.filter _).filter _ = []
    rw [List.filter_comm]
    show (n₀.heard k).filter _ = []
    rw [hnone, List.filter_nil]
  · rw [if_neg hy] at hm ⊢
    exact hq y n₀ k hk hn₀ hm

/-- **A component cleans up.** It takes off its ears and ends its actions, in the order of their placeholders. -/
theorem Core.cleanUp_goes (hw : w.Sober B) (hc : B.guarded c.channel) (h : c.Holds B ears errands w.document) :
    w.Does B [c.channel] (endings errands) (c.cleanUp w) ∧ (c.cleanUp w).document.Attached c.channel [] := by
  obtain ⟨hooks, hcleanups, hends⟩ := h.cleanups
  have ha := h.attached
  rw [Core.cleanUp, hcleanups, List.foldl_append]
  clear hcleanups h
  have hears : ∀ {w : World H}, w.Sober B → w.document.Attached c.channel ears →
      w.Does B [c.channel] [] ((ears.map Ear.cleanup).foldl Cleanup.run w) ∧
        ((ears.map Ear.cleanup).foldl Cleanup.run w).document.Attached c.channel [] := by
    clear ha hw
    induction ears with
    | nil => exact fun hw ha => ⟨.refl hw.intact, ha⟩
    | cons ear ears ih =>
      intro w hw ha
      obtain ⟨hone, hless⟩ := World.does_unlisten hw ha
      obtain ⟨hrest, hnone⟩ := ih (hone.sober hw) hless
      exact ⟨hone.trans hrest hw.intact, hnone⟩
  obtain ⟨hoff, hnone⟩ := hears hw ha
  have hd₁ := hoff.keeps.intact
  generalize (ears.map Ear.cleanup).foldl Cleanup.run w = w₁ at hoff hnone hd₁
  have hhooks : w₁.Does B [] (endings errands) (hooks.foldl Cleanup.run w₁) := by
    clear hoff hnone
    generalize endings errands = notes at hends ⊢
    induction hends generalizing w₁ with
    | nil => exact .refl hd₁
    | @cons cleanup note hooks notes hone _ ih =>
      obtain ⟨x, run, rfl, hrun⟩ := hone
      exact (hrun w₁ hd₁).does.trans (ih (run w₁) (hrun w₁ hd₁).keeps.intact) hd₁
  exact ⟨hoff.trans (hhooks.mono (List.nil_subset _)) hw.intact, hnone.keeps hhooks.keeps ⟨hc, List.not_mem_nil⟩⟩

theorem Core.detachRoots_does (hd : w.document.Intact) (c : Core H) : w.Does B [] [] (c.detachRoots w) := by
  unfold Core.detachRoots
  generalize c.roots = roots
  induction roots generalizing w with
  | nil => exact .refl hd
  | cons root roots ih =>
    have hone : w.Does B [] [] (w.edit (·.detach root)) := World.does_detach hd root
    exact hone.trans (ih hone.keeps.intact) hd

/-! ## New values -/

theorem showTexts_does (hd : w.document.Intact) (cells : List TextCell) (prop text : String) :
    w.Does B [] [] (showTexts cells prop text w) := by
  unfold showTexts
  generalize cells.filter (·.prop == prop) = cells
  induction cells generalizing w with
  | nil => exact .refl hd
  | cons cell cells ih =>
    have hone : w.Does B [] [] (w.edit (·.setData cell.node text)) := World.does_setData hd cell.node text
    exact hone.trans (ih hone.keeps.intact) hd

theorem showAttributes_does (hd : w.document.Intact) (prop text : String) {cells : List AttributeCell}
    (hc : ∀ cell ∈ cells, ofAttribute? cell.name = none) : w.Does B [] [] (showAttributes prop text cells w).2 ∧
      ∀ cell ∈ (showAttributes prop text cells w).1, ofAttribute? cell.name = none := by
  induction cells generalizing w with
  | nil => exact ⟨.refl hd, hc⟩
  | cons cell cells ih =>
    rw [List.forall_mem_cons] at hc
    rw [showAttributes]
    split
    · cases cell.element with
      | none =>
        obtain ⟨hrest, hnames⟩ := ih hd hc.2
        exact ⟨hrest, List.forall_mem_cons.2 ⟨hc.1, hnames⟩⟩
      | some x =>
        have hone : w.Does B [] [] (w.edit (·.setAttribute x cell.name text)) := World.does_setAttribute hd x hc.1 text
        obtain ⟨hrest, hnames⟩ := ih hone.keeps.intact hc.2
        exact ⟨hone.trans hrest hd, List.forall_mem_cons.2 ⟨hc.1, hnames⟩⟩
    · obtain ⟨hrest, hnames⟩ := ih hd hc.2
      exact ⟨hrest, List.forall_mem_cons.2 ⟨hc.1, hnames⟩⟩

/-- all that was noted is that these actions were told values -/
def ToldTo (errands : List Errand) (notes : List Remark) : Prop :=
  ∀ note ∈ notes, ∃ errand ∈ errands, errand.updates = true ∧ note = .told errand.number

/-- hooks of actions that have begun are told a value -/
theorem tellHooks_does (hd : w.document.Intact) (value : Value) {hooks : List (UpdateHook H)}
    (hh : ∀ hook ∈ hooks, ∃ errand ∈ errands, hook.Tells B errand) :
    ∃ notes, ToldTo errands notes ∧ w.Does B [] notes (hooks.foldl (fun w hook => hook.run value w) w) := by
  induction hooks generalizing w with
  | nil => exact ⟨[], List.forall_mem_nil _, .refl hd⟩
  | cons hook hooks ih =>
    rw [List.forall_mem_cons] at hh
    obtain ⟨⟨errand, hmem, -, hupdates, hrun⟩, hrest⟩ := hh
    have hone := hrun value w hd
    obtain ⟨notes, htold, hdoes⟩ := ih hone.keeps.intact hrest
    exact ⟨.told errand.number :: notes, List.forall_mem_cons.2 ⟨⟨errand, hmem, hupdates, rfl⟩, htold⟩,
      hone.does.trans hdoes hd⟩

theorem Core.applyEntry_goes (hd : w.document.Intact) (hc : c.Noting B) (h : c.Holds B ears errands w.document) (prop : String)
    (value : Value) : ∃ notes, ToldTo errands notes ∧ w.Does B [] notes (c.applyEntry w prop value).2 ∧
      (c.applyEntry w prop value).1.Noting B ∧
      (c.applyEntry w prop value).1.Holds B ears errands (c.applyEntry w prop value).2.document := by
  have htexts : w.Does B [] [] (showTexts c.textCells prop value.toText w) := showTexts_does hd _ _ _
  obtain ⟨hattributes, hnames⟩ := showAttributes_does (B := B) htexts.keeps.intact prop value.toText hc.named
  have htells : ∀ hook ∈ c.updateHooks.filter (c.hears prop), ∃ errand ∈ errands, hook.Tells B errand := fun hook hin =>
    h.hooks hook (List.mem_of_mem_filter hin)
  obtain ⟨notes, htold, hhooks⟩ := tellHooks_does hattributes.keeps.intact value htells
  have hdoes := (htexts.trans hattributes hd).trans hhooks hd
  have hheld := h.keeps hdoes.keeps ⟨hc.guarded, List.not_mem_nil⟩
  exact ⟨notes, htold, hdoes, ⟨hc.template, hc.guarded, hnames⟩, ⟨hheld.cleanups, hheld.hooks, hheld.attached⟩⟩

/-- **A component is told new values.** It passes them to hooks of actions that have begun. -/
theorem Core.applyEntries_goes (hd : w.document.Intact) (hc : c.Noting B) (h : c.Holds B ears errands w.document)
    (changed : Props) : ∃ notes, ToldTo errands notes ∧ w.Does B [] notes (c.applyEntries w changed).2 ∧
      (c.applyEntries w changed).1.Noting B ∧
      (c.applyEntries w changed).1.Holds B ears errands (c.applyEntries w changed).2.document := by
  unfold Core.applyEntries
  generalize changed.entries = entries
  induction entries generalizing c w with
  | nil => exact ⟨[], List.forall_mem_nil _, .refl hd, hc, h⟩
  | cons e entries ih =>
    obtain ⟨notes, htold, hone, hc₁, h₁⟩ := Core.applyEntry_goes hd hc h e.1 e.2
    obtain ⟨more, htold', hrest, hlast⟩ := ih hone.keeps.intact hc₁ h₁
    exact ⟨notes ++ more, List.forall_mem_append.2 ⟨htold, htold'⟩, hone.trans hrest hd, hlast⟩

/-! ## Creating -/

theorem World.does_addText (hd : w.document.Intact) (data : String) :
    w.Does B [] [] (w.addText data).1 ∧ (w.addText data).1.document.Vacant (.text "") (w.addText data).2 := by
  obtain ⟨hfills, hnew⟩ := Document.fillsNone_add hd data
  exact ⟨World.Noted.does ⟨Document.keeps_add hd (.text data), hfills, (List.append_nil _).symm⟩, hnew⟩

theorem textCellsFor_does {T : Type} (hd : w.document.Intact) (props : Props) (index : Nat)
    (ps : List (Placeholder (Action H) T)) : w.Does B [] [] (textCellsFor props index ps w).2 ∧
      ∀ cell ∈ (textCellsFor props index ps w).1, (textCellsFor props index ps w).2.document.Vacant (.text "") cell.node := by
  induction ps generalizing index w with
  | nil => exact ⟨.refl hd, List.forall_mem_nil _⟩
  | cons p ps ih =>
    cases p with
    | text prop =>
      obtain ⟨hone, hnew⟩ := World.does_addText (B := B) hd (props.text prop)
      obtain ⟨hrest, hcells⟩ := ih hone.keeps.intact (index + 1)
      exact ⟨hone.trans hrest hd, List.forall_mem_cons.2 ⟨hnew.fills hrest.fills hrest.keeps.fresh, hcells⟩⟩
    | _ => exact ih hd (index + 1)

/-- a component makes its copy and its texts, with nothing in the markers -/
theorem Core.prepare_does (hd : w.document.Intact) (hs : c.template.Sound) : w.Does B [] [] (c.prepare w).2.2 ∧
    (c.prepare w).2.2.document.Vacant .fragment (c.prepare w).2.1 ∧
    (∀ cell ∈ (c.prepare w).1.textCells, (c.prepare w).2.2.document.Vacant (.text "") cell.node) ∧
    ∀ cell ∈ (c.prepare w).1.attributeCells, ofAttribute? cell.name = none := by
  obtain ⟨hfills, hnew⟩ := Document.fillsNone_addFragment hd hs.clean
  have hfragment : w.Does B [] [] (w.addFragment c.template.skeleton).1 :=
    World.Noted.does ⟨Document.keeps_addFragment hd _, hfills, (List.append_nil _).symm⟩
  obtain ⟨htexts, hcells⟩ := textCellsFor_does (B := B) hfragment.keeps.intact c.props 0 c.template.placeholders
  exact ⟨hfragment.trans htexts hd, hnew.fills htexts.fills htexts.keeps.fresh, hcells,
    fun cell hcell => (hs.named _ _ (attribute_mem_of_cell hcell)).2.2⟩

end

end LiveMarkup
