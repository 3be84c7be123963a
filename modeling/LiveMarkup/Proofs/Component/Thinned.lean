/-
Updates that leave out what a component has already.

An entry has no effect if the component has its value: the texts that it is given to read it, the attributes bear it, and
each child has had it handed on. So an update by some entries comes to the same as one by those of them that are news.

- `Thinned`: the same entries but for some that are known;
- `Core.Hushed.applyEntries_thinned`: what they come to for one component;
- `Component.Handed.update_thinned`: and for all that are nested in it.
-/
import LiveMarkup.Proofs.Component.Shown

namespace LiveMarkup

open Document

variable {H : Host}

/-! ## Entries that are left out -/

/-- the same entries but for some that `known` has already -/
inductive Thinned (known : String → Option Value) : Entries Value → Entries Value → Prop
  | nil : Thinned known [] []
  | keep (e : String × Value) {es es' : Entries Value} (h : Thinned known es es') : Thinned known (e :: es) (e :: es')
  | drop (e : String × Value) {es es' : Entries Value} (he : known e.1 = some e.2) (h : Thinned known es es') :
    Thinned known (e :: es) es'

section

variable {known known' : String → Option Value} {es es' fs fs' : Entries Value}

theorem Thinned.congr (h : Thinned known es es') (hk : ∀ e ∈ es, known' e.1 = known e.1) : Thinned known' es es' := by
  induction h with
  | nil => exact .nil
  | keep e _ ih => exact .keep e (ih fun e he => hk e (List.mem_cons_of_mem _ he))
  | drop e he _ ih => exact .drop e ((hk e List.mem_cons_self).trans he) (ih fun e he => hk e (List.mem_cons_of_mem _ he))

theorem Thinned.append (h : Thinned known es es') (h' : Thinned known fs fs') : Thinned known (es ++ fs) (es' ++ fs') := by
  induction h with
  | nil => exact h'
  | keep e _ ih => exact .keep e ih
  | drop e he _ ih => exact .drop e he ih

theorem Thinned.refl (es : Entries Value) : Thinned known es es := by
  induction es with
  | nil => exact .nil
  | cons e es ih => exact .keep e ih

/-- everything is left out -/
theorem thinned_nil (h : ∀ e ∈ es, known e.1 = some e.2) : Thinned known es [] := by
  induction es with
  | nil => exact .nil
  | cons e es ih =>
    rw [List.forall_mem_cons] at h
    exact .drop e h.1 (ih h.2)

theorem thinned_filter {keep : String × Value → Bool} (h : ∀ e ∈ es, keep e = false → known e.1 = some e.2) :
    Thinned known es (es.filter keep) := by
  induction es with
  | nil => exact .nil
  | cons e es ih =>
    rw [List.forall_mem_cons] at h
    cases hkeep : keep e with
    | true =>
      rw [List.filter_cons_of_pos hkeep]
      exact .keep e (ih h.2)
    | false =>
      rw [List.filter_cons_of_neg (by rw [hkeep]; exact Bool.false_ne_true)]
      exact .drop e (h.1 hkeep) (ih h.2)

end

namespace Props

theorem entries_extend {es : Entries Value} {p : Props} (h : (p.entries ++ es).names.Nodup) :
    (p.extend es).entries = p.entries ++ es := by
  induction es generalizing p with
  | nil => exact (List.append_nil _).symm
  | cons e es ih =>
    have hnew : e.1 ∉ p.entries.names := by
      rw [Entries.names, List.map_append, List.nodup_append'] at h
      exact fun hin => h.2.2 hin (List.mem_map_of_mem List.mem_cons_self)
    have hset : ∀ {qs : Entries Value}, e.1 ∉ qs.names → qs.set e.1 e.2 = qs ++ [e] := by
      intro qs hq
      induction qs with
      | nil => rfl
      | cons q qs ihq =>
        rw [Entries.names, List.map_cons, List.mem_cons, not_or] at hq
        rw [Entries.set, if_neg (Ne.symm hq.1), ihq hq.2]
        rfl
    have hentries : (p.insert e.1 e.2).entries = p.entries ++ [e] := hset hnew
    have := ih (p := p.insert e.1 e.2) (by rw [hentries, List.append_assoc]; exact h)
    rw [hentries, List.append_assoc] at this
    exact this

/-- a list of entries with distinct names is the table that it makes -/
theorem entries_ofList {es : Entries Value} (h : es.names.Nodup) : (ofList es).entries = es :=
  entries_extend (p := ∅) h

end Props

section

variable {bindings : List Binding} {known known' : String → Option Value} {p p' : Props}

/-- what is forwarded to a child, entry by entry -/
theorem entries_forwarded (hn : (bindings.map Binding.child).Nodup) (p : Props) : (forwarded bindings p).entries =
    p.entries.flatMap fun e => (bindings.filter (·.outer == e.1)).map fun b => (b.child, e.2) := by
  refine Props.entries_ofList ?_
  rw [Entries.names, List.map_flatMap, List.nodup_flatMap]
  refine ⟨fun e _ => ?_, ?_⟩
  · rw [List.map_map]
    exact (List.filter_sublist.map Binding.child).nodup hn
  · have hnames : p.entries.Pairwise fun e e' => e.1 ≠ e'.1 := List.pairwise_map.1 p.nodup
    refine hnames.imp fun {e e'} hne x hx hx' => ?_
    obtain ⟨y, hy, rfl⟩ := List.mem_map.1 hx
    obtain ⟨b, hb, rfl⟩ := List.mem_map.1 hy
    obtain ⟨y', hy', hsame⟩ := List.mem_map.1 hx'
    obtain ⟨b', hb', rfl⟩ := List.mem_map.1 hy'
    rw [List.mem_filter] at hb hb'
    have hsame : b'.child = b.child := hsame
    obtain rfl := List.inj_on_of_nodup_map hn hb'.1 hb.1 hsame
    exact hne ((eq_of_beq hb.2).symm.trans (eq_of_beq hb'.2))

/-- what is forwarded of thinned entries is thinned, if the child has what its bindings say -/
theorem thinned_forwarded (hn : (bindings.map Binding.child).Nodup) (hk : ∀ b ∈ bindings, known' b.child = known b.outer)
    (h : Thinned known p.entries p'.entries) :
    Thinned known' (forwarded bindings p).entries (forwarded bindings p').entries := by
  rw [entries_forwarded hn, entries_forwarded hn]
  generalize p.entries = es, p'.entries = es' at h
  induction h with
  | nil => exact .nil
  | keep e _ ih => exact (Thinned.refl _).append ih
  | drop e he _ ih =>
    refine (thinned_nil fun x hx => ?_).append ih
    obtain ⟨b, hb, rfl⟩ := List.mem_map.1 hx
    rw [List.mem_filter] at hb
    rw [hk b hb.1, eq_of_beq hb.2]
    exact he

end

/-! ## What is there to agree on -/

/-- somebody's texts and attributes are in a document, each once, and the condition on them holds -/
structure Document.Displays {L : Type} (T : List NodeId) (S : List (NodeId × String)) (P : Document L → Prop)
    (d : Document L) : Prop where
  intact : d.Intact
  texts : T.Nodup
  spots : S.Nodup
  known : d.Known T S
  shown : P d

section

variable {L : Type} {T T' T₂ T₂' : List NodeId} {S S' S₂ S₂' : List (NodeId × String)} {P Q P₂ Q₂ : Document L → Prop}
  {d d₁ : Document L}

theorem Document.Turn.displays (h : Turn T S T' S' P Q d d₁) (hS : S'.Nodup) (hs : Displays T S P d) :
    Displays T' S' Q d₁ :=
  ⟨h.writes.intact, (h.known hs.texts hs.known).2, hS, (h.known hs.texts hs.known).1,
    h.keeps hs.texts hS hs.known hs.shown⟩

theorem Document.Displays.left (h : Displays (T ++ T₂) (S ++ S₂) (fun d => P d ∧ P₂ d) d) : Displays T S P d :=
  ⟨h.intact, (List.nodup_append'.1 h.texts).1, (List.nodup_append'.1 h.spots).1, (Known.append.1 h.known).1, h.shown.1⟩

theorem Document.Displays.right (h : Displays (T ++ T₂) (S ++ S₂) (fun d => P d ∧ P₂ d) d) : Displays T₂ S₂ P₂ d :=
  ⟨h.intact, (List.nodup_append'.1 h.texts).2.1, (List.nodup_append'.1 h.spots).2.1, (Known.append.1 h.known).2, h.shown.2⟩

/-- after somebody's turn the others have what they had -/
theorem Document.Displays.others (h : Displays (T ++ T₂) (S ++ S₂) (fun d => P d ∧ P₂ d) d)
    (ht : Turn T S T' S' P Q d d₁) (hS : S' = S) (hP : Stable T₂ S₂ P₂) : Displays T₂ S₂ P₂ d₁ := by
  obtain ⟨-, hT₂, hT⟩ := List.nodup_append'.1 h.texts
  obtain ⟨-, hS₂, hspots⟩ := List.nodup_append'.1 h.spots
  have hk := (Known.append.1 h.known).2
  exact ⟨ht.writes.intact, hT₂, hS₂, hk.mono ht.writes.fresh, ht.spared hP hT (hS ▸ hspots) hk h.shown.2⟩

end

section

variable {c : Core H} {w w' : World H}

/-! ## One component -/

theorem showTexts_document (cells : List TextCell) (prop text : String) (hw : w'.document = w.document) :
    (showTexts cells prop text w').document = (showTexts cells prop text w).document := by
  unfold showTexts
  generalize cells.filter (·.prop == prop) = cells
  induction cells generalizing w w' with
  | nil => exact hw
  | cons cell cells ih => exact ih (congrArg (·.setData cell.node text) hw)

theorem showAttributes_document (cells : List AttributeCell) (prop text : String) (hw : w'.document = w.document) :
    (showAttributes prop text cells w').1 = (showAttributes prop text cells w).1 ∧
      (showAttributes prop text cells w').2.document = (showAttributes prop text cells w).2.document := by
  induction cells generalizing w w' with
  | nil => exact ⟨rfl, hw⟩
  | cons cell cells ih =>
    by_cases hp : cell.prop = prop
    · have hone : (w'.writeCell cell text).document = (w.writeCell cell text).document := by
        rw [World.writeCell, World.writeCell]
        cases cell.element with
        | none => exact hw
        | some element => exact congrArg (·.setAttribute element cell.name text) hw
      rw [showAttributes_of_prop hp, showAttributes_of_prop hp]
      obtain ⟨hcells, hdocument⟩ := ih hone
      exact ⟨congrArg ({ cell with value := text } :: ·) hcells, hdocument⟩
    · rw [showAttributes_of_other hp, showAttributes_of_other hp]
      obtain ⟨hcells, hdocument⟩ := ih hw
      exact ⟨congrArg (cell :: ·) hcells, hdocument⟩

/-- an entry comes to the same in the same document -/
theorem Core.Hushed.applyEntry_document (h : c.Hushed) (prop : String) (value : Value) (hw : w'.document = w.document) :
    (c.applyEntry w' prop value).1 = (c.applyEntry w prop value).1 ∧
      (c.applyEntry w' prop value).2.document = (c.applyEntry w prop value).2.document := by
  obtain ⟨hcells, hdocument⟩ := showAttributes_document c.attributeCells prop value.toText
    (showTexts_document c.textCells prop value.toText hw)
  rw [applyEntry, applyEntry]
  dsimp only
  rw [hcells, (h.runHooks (c.hears prop) value _).document, (h.runHooks (c.hears prop) value _).document]
  exact ⟨rfl, hdocument⟩

/-- texts that are given what they read -/
theorem showTexts_of_shown {f : String → String} {cells : List TextCell} (hd : w.document.Intact)
    (hs : ∀ cell ∈ cells, cell.Shown f w.document) (prop : String) :
    (showTexts cells prop (f prop) w).document = w.document := by
  unfold showTexts
  have hread : ∀ cell ∈ cells.filter (·.prop == prop), w.document.Reads cell.node (f prop) := by
    intro cell hcell
    obtain ⟨hin, hprop⟩ := List.mem_filter.1 hcell
    exact eq_of_beq hprop ▸ hs cell hin
  generalize cells.filter (·.prop == prop) = cells at hread
  induction cells generalizing w with
  | nil => rfl
  | cons cell cells ih =>
    rw [List.forall_mem_cons] at hread
    have hone : (w.edit (·.setData cell.node (f prop))).document = w.document := setData_of_reads hd.valid hread.1
    rw [List.foldl_cons, ih (by rw [hone]; exact hd) (by rw [hone]; exact hs) (by rw [hone]; exact hread.2), hone]

/-- attributes that are given what they are -/
theorem showAttributes_of_shown {f : String → String} {cells : List AttributeCell} (hd : w.document.Intact)
    (hs : ∀ cell ∈ cells, cell.Shown f w.document) (prop : String) :
    (showAttributes prop (f prop) cells w).1 = cells ∧
      (showAttributes prop (f prop) cells w).2.document = w.document := by
  induction cells generalizing w with
  | nil => exact ⟨rfl, rfl⟩
  | cons cell cells ih =>
    rw [List.forall_mem_cons] at hs
    by_cases hp : cell.prop = prop
    · subst hp
      have hvalue : ({ cell with value := f cell.prop } : AttributeCell) = cell := by rw [← hs.1.value]
      have hone : (w.writeCell cell (f cell.prop)).document = w.document := by
        rw [World.writeCell]
        cases he : cell.element with
        | none => rfl
        | some element =>
          refine setAttribute_of_bears hd.valid ?_
          rw [← hs.1.value]
          exact hs.1.bears element he
      obtain ⟨hcells, hdocument⟩ := ih (w := w.writeCell cell (f cell.prop)) (by rw [hone]; exact hd)
        (by rw [hone]; exact hs.2)
      rw [showAttributes_of_prop rfl, hvalue]
      exact ⟨congrArg (cell :: ·) hcells, hdocument.trans hone⟩
    · rw [showAttributes_of_other hp]
      obtain ⟨hcells, hdocument⟩ := ih hd hs.2
      exact ⟨congrArg (cell :: ·) hcells, hdocument⟩

/-- a component that is given what it has already -/
theorem Core.Hushed.applyEntry_of_known (h : c.Hushed) (hd : w.document.Intact) (hs : c.Shown w.document) {prop : String}
    {value : Value} (hk : c.props.get? prop = some value) :
    (c.applyEntry w prop value).1 = c ∧ (c.applyEntry w prop value).2.document = w.document := by
  have htext : value.toText = c.props.text prop := by
    rw [Props.text, hk]
    rfl
  have htexts := showTexts_of_shown hd hs.texts prop
  obtain ⟨hcells, hattributes⟩ := showAttributes_of_shown (w := showTexts c.textCells prop (c.props.text prop) w)
    (by rw [htexts]; exact hd) (by rw [htexts]; exact hs.attributes) prop
  have hprops : c.props.insert prop value = c.props := by
    have hentries : Entries.set prop value c.props.entries = c.props.entries := Entries.set_of_get? hk
    unfold Props.insert
    congr 1
  rw [applyEntry, htext]
  dsimp only
  rw [hcells, hprops, (h.runHooks (c.hears prop) value _).document, hattributes, htexts]
  exact ⟨rfl, rfl⟩

theorem Core.SameFooting.attributes {c c' : Core H} (h : c.SameFooting c') : c'.attributes = c.attributes := by
  have hcells : ∀ cells : List AttributeCell, cells.filterMap AttributeCell.attribute? =
      (cells.map AttributeCell.binding).filterMap fun b => b.2.2.2.map (·, b.2.2.1) := fun cells => by
    rw [List.filterMap_map]
    rfl
  rw [Core.attributes, Core.attributes, hcells, hcells, h.attributeCells]

/-- thinned entries come to the same -/
theorem Core.Hushed.applyEntries_thinned (h : c.Hushed) (hs : Displays c.texts c.attributes c.Shown w.document)
    (hw : w'.document = w.document) {changed changed' : Props}
    (ht : Thinned c.props.get? changed.entries changed'.entries) :
    (c.applyEntries w' changed').1 = (c.applyEntries w changed).1 ∧
      (c.applyEntries w' changed').2.document = (c.applyEntries w changed).2.document := by
  have hnames : changed.entries.names.Nodup := changed.nodup
  unfold Core.applyEntries
  generalize changed.entries = es, changed'.entries = es' at ht hnames
  induction es generalizing c w w' es' with
  | nil =>
    cases ht
    exact ⟨rfl, hw⟩
  | cons e es ih =>
    rw [Entries.names, List.map_cons, List.nodup_cons] at hnames
    have hnew : ∀ x ∈ es, x.1 ≠ e.1 := fun x hx hsame => hnames.1 (hsame ▸ List.mem_map_of_mem hx)
    have hnext : (c.applyEntry w e.1 e.2).1.Hushed := ⟨h.cleanups, h.updateHooks⟩
    have hturn := h.turn_applyEntry hs.intact e.1 e.2
    have hdisplays := hturn.displays (((c.applyEntries_footing w ⟨[e], List.nodup_singleton _⟩).attributes).symm ▸ hs.spots) hs
    have hrest : ∀ {es'}, Thinned c.props.get? es es' → Thinned (c.applyEntry w e.1 e.2).1.props.get? es es' :=
      fun ht => ht.congr fun x hx => by
        show (c.props.insert e.1 e.2).get? x.1 = _
        rw [Props.get?_insert, if_neg (hnew x hx)]
    cases ht with
    | keep _ ht =>
      obtain ⟨hcore, hdocument⟩ := h.applyEntry_document e.1 e.2 hw
      have hsplit : c.applyEntry w' e.1 e.2 = ((c.applyEntry w e.1 e.2).1, (c.applyEntry w' e.1 e.2).2) :=
        Prod.ext hcore rfl
      rw [List.foldl_cons, List.foldl_cons]
      dsimp only
      rw [hsplit]
      exact ih hnext hdisplays hdocument _ (hrest ht) hnames.2
    | drop _ he ht =>
      obtain ⟨hcore, hdocument⟩ := h.applyEntry_of_known hs.intact hs.shown he
      have hsplit : c.applyEntry w e.1 e.2 = (c, (c.applyEntry w e.1 e.2).2) := Prod.ext hcore rfl
      rw [List.foldl_cons]
      dsimp only
      rw [hsplit]
      exact ih h (by rw [hdocument]; exact hs) (hw.trans hdocument.symm) _ ht hnames.2

/-! ## What is nested -/

mutual
/-- an update leaves a component the attributes that it has bound -/
theorem Component.Like.attributes : {c c' : Component H} → c.Like footing c' → c'.attributes = c.attributes
  | .mk _ _ _, .mk _ _ _, ⟨h, hs, hc⟩ => by
    rw [Component.attributes, Component.attributes, Core.SameFooting.attributes h, likeAll.attributesIn hs,
      likeAll.attributesIn hc]
theorem likeAll.attributesIn : {row row' : List (Nested H)} → likeAll footing row row' →
    attributesIn row' = attributesIn row
  | [], [], _ => rfl
  | .mk _ _ _ :: _, .mk _ _ _ :: _, ⟨_, h, hr⟩ => by
    rw [LiveMarkup.attributesIn, LiveMarkup.attributesIn, Block.Like.attributes h, likeAll.attributesIn hr]
theorem Block.Like.attributes : {b b' : Block H} → b.Like footing b' → b'.attributes = b.attributes
  | .text _, .text _, _ => rfl
  | .foreign _, .foreign _, _ => rfl
  | .component _, .component _, h => Component.Like.attributes h
end

/-- every child has what is handed on to it, at every depth -/
inductive Component.Handed : Component H → Prop
  | mk {c : Component H} (once : c.BindsOnce) (follows : c.Follows [])
    (placed : ∀ n ∈ c.children, ∃ u bindings child, c.core.template.placeholders[n.index]? = some (.child u bindings) ∧
      n.block = .component child)
    (kids : ∀ n ∈ c.children, ∀ child, n.block = .component child → Handed child) : Handed c

variable [ForeignBlocks H]

/-- what is given to a block of a row, if it is given anything -/
def Nested.given (deliver : Nat → Option Props) (n : Nested H) (w : World H) : Outcome H (Block H) :=
  match deliver n.index with
  | none => .ok n.block w
  | some changed => n.block.update changed w

/-- a row whose blocks accept what they are given, block by block -/
theorem updateRow_of_accepts {deliver : Nat → Option Props} {n : Nested H} {row : List (Nested H)} {w : World H}
    (h : (n.given deliver w).result = .ok ()) : updateRow deliver (n :: row) w =
      (updateRow deliver row (n.given deliver w).world).map (.mk n.index n.atRoot (n.given deliver w).self :: ·) := by
  obtain ⟨index, atRoot, block⟩ := n
  rw [updateRow_cons]
  unfold Nested.given at h ⊢
  dsimp only [Nested.index, Nested.block, Nested.atRoot] at h ⊢
  cases hd : deliver index with
  | none => rfl
  | some changed =>
    rw [hd] at h
    dsimp only at h ⊢
    rw [h]

/-- an update by nothing -/
theorem Component.update_of_isEmpty {c : Component H} (hp : c.core.phase ≠ .destroyed) {changed : Props}
    (he : changed.isEmpty = true) (w : World H) : c.update changed w = .ok c w := by
  obtain ⟨core, slots, children⟩ := c
  have hp : core.phase ≠ .destroyed := hp
  have hentries : changed.entries = [] := List.isEmpty_iff.1 he
  have hnone : ∀ index, forwardedTo core.template.placeholders changed index = none := by
    intro index
    unfold forwardedTo
    split
    · rw [forwarded, hentries]
      rfl
    · rfl
  have happly : core.applyEntries w changed = (core, w) := by
    rw [Core.applyEntries, hentries]
    rfl
  rw [Component.update_mk, if_neg hp, happly]
  dsimp only
  rw [updateRow_none hnone]
  rfl

/-- what is handed on to a child, if it is anything, is what is forwarded to it -/
theorem given_forwardedTo {placeholders : List (Placeholder (Action H) (Template (Action H)))} {n : Nested H}
    {t : Template (Action H)} {bindings : List Binding} (hp : placeholders[n.index]? = some (.child t bindings))
    {child : Component H} (hn : n.block = .component child) (ha : child.core.phase ≠ .destroyed) (changed : Props)
    (w : World H) : n.given (forwardedTo placeholders changed) w =
      (child.update (forwarded bindings changed) w).map .component := by
  rw [Nested.given, forwardedTo, hp, hn]
  dsimp only
  split
  · next heq =>
    split at heq
    · next he =>
      rw [Component.update_of_isEmpty ha he]
      rfl
    · cases heq
  · next heq =>
    split at heq
    · cases heq
    · obtain rfl := Option.some.inj heq
      rfl

section

variable {guest : H.Foreign → Prop} (hf : ForeignBlocks.Obliging guest)
include hf

/-- rows come to the same if each of their blocks does -/
theorem updateRow_agrees {deliver deliver' : Nat → Option Props} {row : List (Nested H)}
    (hok : ∀ n ∈ row, ∀ (deliver : Nat → Option Props) (w : World H), (n.given deliver w).result = .ok ())
    (hmild : ∀ n ∈ row, n.block.Mild guest)
    (h : ∀ n ∈ row, ∀ {w w' : World H}, Displays n.block.texts n.block.attributes n.block.Shown w.document →
      w'.document = w.document → (n.given deliver' w').self = (n.given deliver w).self ∧
        (n.given deliver' w').world.document = (n.given deliver w).world.document)
    {w w' : World H} (hs : Displays (textsIn row) (attributesIn row) (shownAll row) w.document)
    (hw : w'.document = w.document) : (updateRow deliver' row w').self = (updateRow deliver row w).self ∧
      (updateRow deliver' row w').world.document = (updateRow deliver row w).world.document := by
  induction row generalizing w w' with
  | nil => exact ⟨rfl, hw⟩
  | cons n row ih =>
    rw [List.forall_mem_cons] at hok hmild h
    have hs : Displays (n.block.texts ++ textsIn row) (n.block.attributes ++ attributesIn row)
        (fun d => n.block.Shown d ∧ shownAll row d) w.document := by
      cases n
      exact hs
    obtain ⟨hself, hdocument⟩ := h.1 hs.left hw
    have hturn : n.block.Turns (n.given deliver w).self w (n.given deliver w).world := by
      unfold Nested.given
      cases deliver n.index with
      | none => exact Turn.refl hs.intact _ _ _
      | some changed => exact hmild.1.turn_update hf changed hs.intact
    have hattributes : (n.given deliver w).self.attributes = n.block.attributes := by
      unfold Nested.given
      cases deliver n.index with
      | none => rfl
      | some changed => exact Block.Like.attributes (Block.update_footing changed n.block w)
    obtain ⟨hrow, hrest⟩ := ih hok.2 hmild.2 h.2
      (hs.others hturn hattributes (stable_shownAll row)) hdocument
    rw [updateRow_of_accepts (hok.1 deliver' w'), updateRow_of_accepts (hok.1 deliver w), hself]
    exact ⟨congrArg (Nested.mk n.index n.atRoot (n.given deliver w).self :: ·) hrow, hrest⟩

/-- **Updates by thinned entries come to the same.** What is left out is what the component has and shows already, and
what its children have been handed. -/
theorem Component.Handed.update_thinned {c : Component H} (h : c.Handed) (hm : (Block.component c).Mild guest)
    (ha : c.Alive) {w w' : World H} (hs : Displays c.texts c.attributes c.Shown w.document)
    (hw : w'.document = w.document) {changed changed' : Props}
    (ht : Thinned c.props.get? changed.entries changed'.entries) :
    (c.update changed' w').self = (c.update changed w).self ∧
      (c.update changed' w').world.document = (c.update changed w).world.document := by
  induction h generalizing w w' changed changed' with
  | @mk c once follows placed _ ih =>
    obtain ⟨core, slots, children⟩ := c
    obtain ⟨hquiet, -, hchildren⟩ := Component.mild_mk.1 hm
    have hown : Displays core.texts core.attributes core.Shown w.document := Displays.left hs
    obtain ⟨hcore, hdocument⟩ := hquiet.applyEntries_thinned hown hw ht
    have hkids : Displays (textsIn children) (attributesIn children) (shownAll children)
        (core.applyEntries w changed).2.document :=
      (Displays.others (T := core.texts) (S := core.attributes) hs (hquiet.turn_applyEntries hs.intact changed)
        (core.applyEntries_footing w changed).attributes
        (Stable.and (stable_shownAll slots) (stable_shownAll children))).right
    have halive : ∀ n ∈ children, ∀ child, n.block = .component child → child.Alive := by
      intro n hn child hblock
      have hin := eachOf_iff.1 ha.2.2 n hn
      rw [hblock] at hin
      exact hin
    have hok : ∀ n ∈ children, ∀ (deliver : Nat → Option Props) (u : World H), (n.given deliver u).result = .ok () := by
      intro n hn deliver u
      obtain ⟨-, -, child, -, hblock⟩ := placed n hn
      have hguests := (hchildren n hn).guests
      unfold Nested.given
      cases deliver n.index with
      | none => rfl
      | some given =>
        rw [hblock] at hguests ⊢
        exact (halive n hn child hblock).update hf.willing hguests given u
    have hblocks : ∀ n ∈ children, ∀ {u u' : World H},
        Displays n.block.texts n.block.attributes n.block.Shown u.document → u'.document = u.document →
          (n.given (forwardedTo core.template.placeholders changed') u').self =
              (n.given (forwardedTo core.template.placeholders changed) u).self ∧
            (n.given (forwardedTo core.template.placeholders changed') u').world.document =
              (n.given (forwardedTo core.template.placeholders changed) u).world.document := by
      intro n hn u u' hd hu
      obtain ⟨t, bindings, child, hp, hblock⟩ := placed n hn
      have hp : core.template.placeholders[n.index]? = some (.child t bindings) := hp
      have hchild := halive n hn child hblock
      have hphase : child.core.phase ≠ .destroyed := by
        cases child
        exact hchild.1
      have hmild := hchildren n hn
      rw [hblock] at hmild hd
      have hin : Nested.mk n.index n.atRoot (.component child) ∈ children := by
        cases n
        exact hblock ▸ hn
      have hthin : Thinned child.props.get? (forwarded bindings changed).entries (forwarded bindings changed').entries :=
        thinned_forwarded (once t bindings (List.mem_of_getElem? hp))
          (fun b hb => follows n.index n.atRoot child hin t bindings hp b hb List.not_mem_nil) ht
      obtain ⟨hself, hdoc⟩ := ih n hn child hblock hmild hchild hd hu hthin
      rw [given_forwardedTo hp hblock hphase, given_forwardedTo hp hblock hphase]
      exact ⟨congrArg Block.component hself, hdoc⟩
    obtain ⟨hrow, hrest⟩ := updateRow_agrees hf hok hchildren hblocks hkids hdocument
    rw [Component.update_mk, Component.update_mk, if_neg ha.1, if_neg ha.1]
    dsimp only
    rw [hcore]
    exact ⟨congrArg (Component.mk (core.applyEntries w changed).1 slots) hrow, hrest⟩

end

end

end LiveMarkup
