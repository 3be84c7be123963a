/-
What a component shows.

The text nodes of a component read its props, and the attributes that it has bound bear them. An update writes into these
and into nothing else, and afterwards they show the new props; so does everything that is nested in the component. Two
cells may stand for one attribute of one element, which then shows one of them; all this holds where no attribute is
there twice (`Component.attributes`).

- `Core.Hushed.turn_applyEntries`: the component itself;
- `ForeignBlocks.Obliging`: blocks of the host that mind their own texts;
- `Block.Mild.turn_update`, `Component.turn_tick`: with what is nested in it.
-/
import Mathlib.Data.List.Dedup
import LiveMarkup.Proofs.Component.Calm
import LiveMarkup.Proofs.Component.Lifecycle
import LiveMarkup.Proofs.Document.Writes

namespace LiveMarkup

open Document

variable {H : Host}

/-! ## What a component has -/

/-- the attribute of an element that a cell stands for -/
def AttributeCell.attribute? (cell : AttributeCell) : Option (NodeId × String) := cell.element.map (·, cell.name)

def Core.texts (c : Core H) : List NodeId := c.textCells.map (·.node)

def Core.attributes (c : Core H) : List (NodeId × String) := c.attributeCells.filterMap AttributeCell.attribute?

mutual
/-- the text nodes of a component and of all that is nested in it, with whatever blocks of the host hold -/
def Component.texts [ForeignBlocks H] : Component H → List NodeId
  | .mk core slots children => core.texts ++ (textsIn slots ++ textsIn children)
def textsIn [ForeignBlocks H] : List (Nested H) → List NodeId
  | [] => []
  | .mk _ _ block :: row => block.texts ++ textsIn row
def Block.texts [ForeignBlocks H] : Block H → List NodeId
  | .text t => t.node.toList
  | .foreign f => (ForeignBlocks.handles f).dedup
  | .component c => c.texts
end

mutual
/-- the attributes that are bound by a component and by all that are nested in it -/
def Component.attributes : Component H → List (NodeId × String)
  | .mk core slots children => core.attributes ++ (attributesIn slots ++ attributesIn children)
def attributesIn : List (Nested H) → List (NodeId × String)
  | [] => []
  | .mk _ _ block :: row => block.attributes ++ attributesIn row
def Block.attributes : Block H → List (NodeId × String)
  | .text _ => []
  | .foreign _ => []
  | .component c => c.attributes
end

/-! ## What it shows -/

section

variable {L : Type}

/-- a text node reads what its prop says -/
def TextCell.Shown (f : String → String) (d : Document L) (cell : TextCell) : Prop := d.Reads cell.node (f cell.prop)

/-- an attribute has what its prop says, and its element bears that -/
structure AttributeCell.Shown (f : String → String) (d : Document L) (cell : AttributeCell) : Prop where
  value : cell.value = f cell.prop
  free : Marker.Free cell.name
  bears : ∀ e ∈ cell.element, d.Bears e cell.name cell.value

structure Core.Shown (d : Document L) (c : Core H) : Prop where
  texts : ∀ cell ∈ c.textCells, cell.Shown c.props.text d
  attributes : ∀ cell ∈ c.attributeCells, cell.Shown c.props.text d

mutual
/-- a component and all that are nested in it show their props -/
def Component.Shown : Component H → Document L → Prop
  | .mk core slots children, d => core.Shown d ∧ shownAll slots d ∧ shownAll children d
def shownAll : List (Nested H) → Document L → Prop
  | [], _ => True
  | .mk _ _ block :: row, d => block.Shown d ∧ shownAll row d
def Block.Shown : Block H → Document L → Prop
  | .text _, _ => True
  | .foreign _, _ => True
  | .component c, d => c.Shown d
end

theorem AttributeCell.mem_attributes {cell : AttributeCell} {cells : List AttributeCell} (h : cell ∈ cells) {e : NodeId}
    (he : e ∈ cell.element) : (e, cell.name) ∈ cells.filterMap AttributeCell.attribute? :=
  List.mem_filterMap.2 ⟨cell, h, by rw [attribute?, Option.mem_def.1 he]; rfl⟩

/-- texts that are not written into read what they read -/
theorem stable_texts (f : String → String) (cells : List TextCell) (S : List (NodeId × String)) :
    Stable (cells.map (·.node)) S fun d : Document L => ∀ cell ∈ cells, cell.Shown f d :=
  fun _ _ _ _ hw hT _ hk h cell hc => hw.reads cell.node (hk.texts _ (List.mem_map_of_mem hc)) (hT (List.mem_map_of_mem hc)) _
    (h cell hc)

/-- attributes that are not written into are borne as they were -/
theorem stable_attributes (f : String → String) (cells : List AttributeCell) (T : List NodeId) :
    Stable T (cells.filterMap AttributeCell.attribute?) fun d : Document L => ∀ cell ∈ cells, cell.Shown f d :=
  fun _ _ _ _ hw _ hS hk h cell hc =>
    ⟨(h cell hc).value, (h cell hc).free, fun e he => by
      have hs := AttributeCell.mem_attributes hc he
      exact hw.bears e (hk.spots _ hs) cell.name (h cell hc).free (hS hs) _ ((h cell hc).bears e he)⟩

theorem Core.stable_shown (c : Core H) : Stable c.texts c.attributes (c.Shown (L := L)) :=
  fun _ _ _ _ hw hT hS hk h => ⟨stable_texts c.props.text c.textCells c.attributes hw hT hS hk h.texts,
    stable_attributes c.props.text c.attributeCells c.texts hw hT hS hk h.attributes⟩

variable [ForeignBlocks H]

mutual
theorem Component.stable_shown : (c : Component H) → Stable c.texts c.attributes (c.Shown (L := L))
  | .mk core slots children =>
    Stable.and (Core.stable_shown core) (Stable.and (stable_shownAll slots) (stable_shownAll children))
theorem stable_shownAll : (row : List (Nested H)) → Stable (textsIn row) (attributesIn row) (shownAll (L := L) row)
  | [] => fun _ _ _ _ _ _ _ _ _ => trivial
  | .mk _ _ block :: row => Stable.and (Block.stable_shown block) (stable_shownAll row)
theorem Block.stable_shown : (b : Block H) → Stable b.texts b.attributes (b.Shown (L := L))
  | .text _ => fun _ _ _ _ _ _ _ _ _ => trivial
  | .foreign _ => fun _ _ _ _ _ _ _ _ _ => trivial
  | .component c => c.stable_shown
end

end

/-! ## One entry -/

section

variable {w : World H} (hd : w.document.Intact) (f : String → String) (prop text : String)
include hd

theorem turn_showTexts (cells : List TextCell) :
    Turn (cells.map (·.node)) [] (cells.map (·.node)) [] (fun d => ∀ cell ∈ cells, cell.Shown f d)
      (fun d => ∀ cell ∈ cells, cell.Shown (fun n => if n = prop then text else f n) d) w.document
      (showTexts cells prop text w).document := by
  induction cells generalizing w with
  | nil => exact (Turn.refl hd [] [] fun _ => True).imp (fun _ _ => trivial) fun _ _ => List.forall_mem_nil _
  | cons cell cells ih =>
    -- the cell alone, and then the others
    have hone : ∃ u : World H, showTexts (cell :: cells) prop text w = showTexts cells prop text u ∧
        Turn [cell.node] [] [cell.node] [] (cell.Shown f) (cell.Shown fun n => if n = prop then text else f n)
          w.document u.document := by
      by_cases hp : cell.prop = prop
      · refine ⟨w.edit (·.setData cell.node text), ?_, ?_⟩
        · rw [showTexts, List.filter_cons_of_pos (by simpa using hp)]
          rfl
        · have hw := writes_setData hd cell.node text
          refine ⟨hw, .refl _, fun _ hx => .inl hx, fun hT hk => ⟨hk.mono hw.fresh, hT⟩, fun _ _ _ hs => ?_⟩
          rw [TextCell.Shown, if_pos hp]
          exact reads_setData hd hs text
      · refine ⟨w, ?_, ?_⟩
        · rw [showTexts, List.filter_cons_of_neg (by simpa using hp)]
          rfl
        · refine (Turn.refl hd [cell.node] [] (cell.Shown f)).imp (fun _ h => h) fun _ h => ?_
          rw [TextCell.Shown, if_neg hp]
          exact h
    obtain ⟨u, he, hturn⟩ := hone
    rw [he]
    have hstable : ∀ f, Stable [cell.node] [] (cell.Shown (L := Listener H.Handler) f) := fun f _ _ _ _ hw hT _ hk h =>
      hw.reads cell.node (hk.texts _ (List.mem_singleton.2 rfl)) (hT (List.mem_singleton.2 rfl)) _ h
    exact (hturn.beside (ih hturn.writes.intact) (stable_texts f cells []) (hstable _)).imp
      (fun _ h => List.forall_mem_cons.1 h) fun _ h => List.forall_mem_cons.2 h

theorem turn_showAttributes (cells : List AttributeCell) :
    Turn [] (cells.filterMap AttributeCell.attribute?) []
      ((showAttributes prop text cells w).1.filterMap AttributeCell.attribute?) (fun d => ∀ cell ∈ cells, cell.Shown f d)
      (fun d => ∀ cell ∈ (showAttributes prop text cells w).1,
        cell.Shown (fun n => if n = prop then text else f n) d) w.document (showAttributes prop text cells w).2.document := by
  induction cells generalizing w with
  | nil => exact (Turn.refl hd [] [] fun _ => True).imp (fun _ _ => trivial) fun _ _ => List.forall_mem_nil _
  | cons cell cells ih =>
    -- the cell alone, and then the others
    have hone : ∃ (cell' : AttributeCell) (u : World H), cell'.attribute? = cell.attribute? ∧
        showAttributes prop text (cell :: cells) w =
          (cell' :: (showAttributes prop text cells u).1, (showAttributes prop text cells u).2) ∧
        Turn [] cell.attribute?.toList [] cell.attribute?.toList (cell.Shown f)
          (cell'.Shown fun n => if n = prop then text else f n) w.document u.document := by
      by_cases hp : cell.prop = prop
      · refine ⟨{ cell with value := text }, w.writeCell cell text, rfl, showAttributes_of_prop hp cells w, ?_⟩
        · rw [World.writeCell]
          cases he : cell.element with
          | none =>
            refine (Turn.refl hd _ _ (cell.Shown f)).imp (fun _ h => h) fun _ h => ⟨(if_pos hp).symm, h.free, ?_⟩
            intro e hin
            have hin : (none : Option NodeId) = some e := hin
            cases hin
          | some e =>
            have hsame : cell.attribute?.toList = [(e, cell.name)] := by
              rw [AttributeCell.attribute?, he]
              rfl
            rw [hsame]
            have hw := writes_setAttribute hd e cell.name text
            refine ⟨hw, .refl _, fun _ hx => .inl hx, fun hT hk => ⟨hk.mono hw.fresh, hT⟩,
              fun _ _ _ hs => ⟨(if_pos hp).symm, hs.free, ?_⟩⟩
            intro e' hin
            obtain rfl : e = e' := Option.some.inj hin
            exact bears_setAttribute hd (hs.bears e he).tag? cell.name text
      · refine ⟨cell, w, rfl, showAttributes_of_other hp cells w,
          (Turn.refl hd _ _ (cell.Shown f)).imp (fun _ h => h) fun _ h => ⟨?_, h.free, h.bears⟩⟩
        rw [if_neg hp]
        exact h.value
    obtain ⟨cell', u, hsame, he, hturn⟩ := hone
    have hlist : ∀ (cell : AttributeCell) (cells : List AttributeCell), (cell :: cells).filterMap AttributeCell.attribute? =
        cell.attribute?.toList ++ cells.filterMap AttributeCell.attribute? := by
      intro cell cells
      rw [List.filterMap_cons]
      cases cell.attribute? <;> rfl
    have hstable : Stable [] cell.attribute?.toList
        (cell'.Shown (L := Listener H.Handler) fun n => if n = prop then text else f n) := by
      intro d d₁ T₁ S₁ hw hT hS hk h
      have hone := stable_attributes (L := Listener H.Handler) (fun n => if n = prop then text else f n) [cell'] []
      rw [hlist, List.filterMap_nil, List.append_nil, hsame] at hone
      exact hone hw hT hS hk (List.forall_mem_singleton.2 h) cell' (List.mem_singleton.2 rfl)
    rw [he]
    dsimp only
    rw [hlist, hlist, hsame]
    exact (hturn.beside (ih hturn.writes.intact) (stable_attributes f cells []) hstable).imp
      (fun _ h => List.forall_mem_cons.1 h) fun _ h => List.forall_mem_cons.2 h

end

namespace Core

/-- the turn of a component itself, with what it shows before and after -/
def Turns (c c' : Core H) (w w' : World H) : Prop :=
  Turn c.texts c.attributes c'.texts c'.attributes (c.Shown (L := Listener H.Handler)) c'.Shown w.document
    w'.document

variable {c : Core H} {w : World H}

theorem Hushed.runHooks (h : c.Hushed) (keep : UpdateHook H → Bool) (value : Value) (w : World H) :
    w.Alike ((c.updateHooks.filter keep).foldl (fun w hook => hook.run value w) w) := by
  have hall : ∀ hook ∈ c.updateHooks.filter keep, hook.Quiet := fun hook hin =>
    h.updateHooks hook (List.mem_of_mem_filter hin)
  generalize c.updateHooks.filter keep = hooks at hall
  induction hooks generalizing w with
  | nil => exact .refl w
  | cons hook hooks ih =>
    rw [List.forall_mem_cons] at hall
    exact (hall.1 value w).trans (ih _ hall.2)

theorem Hushed.turn_applyEntry (h : c.Hushed) (hd : w.document.Intact) (prop : String) (value : Value) :
    c.Turns (c.applyEntry w prop value).1 w (c.applyEntry w prop value).2 := by
  have htexts := turn_showTexts hd c.props.text prop value.toText c.textCells
  have hattributes := turn_showAttributes htexts.writes.intact c.props.text prop value.toText c.attributeCells
  have hhooks := (h.runHooks (c.hears prop) value
    (showAttributes prop value.toText c.attributeCells (showTexts c.textCells prop value.toText w)).2).document
  have hboth := htexts.beside hattributes (stable_attributes c.props.text c.attributeCells [])
    (stable_texts _ c.textCells [])
  rw [List.append_nil, List.nil_append, List.nil_append] at hboth
  have hprops : (fun n => if n = prop then value.toText else c.props.text n) = (c.props.insert prop value).text :=
    funext fun n => (c.props.text_insert prop value n).symm
  rw [hprops] at hboth
  unfold Turns
  rw [applyEntry]
  dsimp only
  rw [hhooks]
  exact hboth.imp (fun _ h => ⟨h.texts, h.attributes⟩) fun _ h => ⟨h.1, h.2⟩

theorem Hushed.turn_applyEntries (h : c.Hushed) (hd : w.document.Intact) (changed : Props) :
    c.Turns (c.applyEntries w changed).1 w (c.applyEntries w changed).2 := by
  unfold Core.applyEntries
  generalize changed.entries = entries
  induction entries generalizing c w with
  | nil => exact Turn.refl hd _ _ _
  | cons e entries ih =>
    have hone := h.turn_applyEntry hd e.1 e.2
    have hnext : (c.applyEntry w e.1 e.2).1.Hushed := ⟨h.cleanups, h.updateHooks⟩
    exact hone.trans (ih hnext hone.writes.intact)

end Core

/-! ## What is nested -/

variable [ForeignBlocks H]

/-- the turn of a component with all that is nested in it -/
def Component.Turns (c c' : Component H) (w w' : World H) : Prop :=
  Turn c.texts c.attributes c'.texts c'.attributes (c.Shown (L := Listener H.Handler)) c'.Shown w.document
    w'.document

def turnsAll (row row' : List (Nested H)) (w w' : World H) : Prop :=
  Turn (textsIn row) (attributesIn row) (textsIn row') (attributesIn row')
    (shownAll (L := Listener H.Handler) row) (shownAll row') w.document w'.document

def Block.Turns (b b' : Block H) (w w' : World H) : Prop :=
  Turn b.texts b.attributes b'.texts b'.attributes (b.Shown (L := Listener H.Handler)) b'.Shown w.document
    w'.document

section

variable {w w₁ w₂ w₃ : World H}

/-- a component, and then the contents of its slots and its children -/
theorem Core.Turns.nest {core core' : Core H} {slots slots' children children' : List (Nested H)}
    (h : core.Turns core' w w₁) (hs : turnsAll slots slots' w₁ w₂) (hc : turnsAll children children' w₂ w₃) :
    (Component.mk core slots children).Turns (.mk core' slots' children') w w₃ :=
  h.beside (hs.beside hc (stable_shownAll children) (stable_shownAll slots'))
    (Stable.and (stable_shownAll slots) (stable_shownAll children)) (Core.stable_shown core')

/-- a block, and then the others -/
theorem Block.Turns.cons {b b' : Block H} {row row' : List (Nested H)} (index : Nat) (atRoot atRoot' : Bool)
    (h : b.Turns b' w w₁) (hr : turnsAll row row' w₁ w₂) :
    turnsAll (.mk index atRoot b :: row) (.mk index atRoot' b' :: row') w w₂ :=
  h.beside hr (stable_shownAll row) (Block.stable_shown b')

theorem turnsAll.refl (hd : w.document.Intact) (row : List (Nested H)) : turnsAll row row w w := Turn.refl hd _ _ _

theorem TextBlock.turn_update (t : TextBlock) (hd : w.document.Intact) (changed : Props) :
    (Block.text t).Turns (.text (t.update changed w).1) w (t.update changed w).2 := by
  have hquiet : (Block.text t : Block H).Turns (.text t) w w := Turn.refl hd _ _ _
  unfold TextBlock.update
  cases t.prop.bind changed.get? with
  | none => exact hquiet
  | some value =>
    show Turn t.node.toList [] t.node.toList [] _ _ _ _
    cases hn : t.node with
    | none => exact Turn.refl hd _ _ _
    | some node =>
      have hw := writes_setData hd node value.toText
      exact ⟨hw, .refl _, fun _ hx => .inl hx, fun hT hk => ⟨hk.mono hw.fresh, hT⟩, fun _ _ _ _ => trivial⟩

/-- a row is updated block by block -/
theorem turn_updateRow {row : List (Nested H)} (h : ∀ n ∈ row, ∀ (changed : Props) (w : World H), w.document.Intact →
      n.block.Turns (n.block.update changed w).self w (n.block.update changed w).world) (deliver : Nat → Option Props)
    (hd : w.document.Intact) : turnsAll row (updateRow deliver row w).self w (updateRow deliver row w).world := by
  induction row generalizing w with
  | nil => exact turnsAll.refl hd []
  | cons n row ih =>
    obtain ⟨index, atRoot, block⟩ := n
    rw [List.forall_mem_cons] at h
    rw [updateRow_cons]
    cases deliver index with
    | none => exact Block.Turns.cons index atRoot atRoot (Turn.refl hd _ _ _) (ih h.2 hd)
    | some changed =>
      have hb := h.1 changed w hd
      dsimp only
      cases hr : (block.update changed w).result with
      | error fault => exact Block.Turns.cons index atRoot atRoot hb (turnsAll.refl hb.writes.intact row)
      | ok => exact Block.Turns.cons index atRoot atRoot hb (ih h.2 hb.writes.intact)

/-- a row makes a transition block by block -/
theorem turn_transitionAll {t : Transition} {isLocal : Bool} {row : List (Nested H)} (h : ∀ n ∈ row, ∀ {w : World H},
      w.document.Intact → n.block.Turns (n.block.transition t isLocal w).1 w (n.block.transition t isLocal w).2)
    (hd : w.document.Intact) : turnsAll row (transitionAll t isLocal row w).1 w (transitionAll t isLocal row w).2 := by
  induction row generalizing w with
  | nil => exact turnsAll.refl hd []
  | cons n row ih =>
    obtain ⟨index, atRoot, block⟩ := n
    rw [List.forall_mem_cons] at h
    have hb : block.Turns (block.transition t isLocal w).1 w (block.transition t isLocal w).2 := h.1 hd
    exact hb.cons index atRoot atRoot (ih h.2 hb.writes.intact)

/-- such a block of the host is one after a call as well; the call has written into no text but those that the block held,
and into no attribute, and what the block has come to hold is new -/
structure ForeignBlocks.Abides (guest : H.Foreign → Prop) (f f' : H.Foreign) (w w' : World H) : Prop where
  guest : guest f'
  turns : w.document.Intact → (Block.foreign f).Turns (.foreign f') w w'

/-- such blocks of the host abide whatever is done with them; they are created, and take what they are given, without
fail -/
structure ForeignBlocks.Obliging (guest : H.Foreign → Prop) : Prop where
  willing : Willing guest
  create : ∀ f, guest f → ∀ w, Abides guest f (create f w).self w (create f w).world
  mount : ∀ f, guest f → ∀ target anchor w, Abides guest f (mount target anchor f w).self w (mount target anchor f w).world
  update : ∀ f, guest f → ∀ changed w, Abides guest f (update changed f w).self w (update changed f w).world
  transition : ∀ f, guest f → ∀ t isLocal w, Abides guest f (transition t isLocal f w).1 w (transition t isLocal f w).2
  destroy : ∀ f, guest f → ∀ detaching w, Abides guest f (destroy detaching f w).self w (destroy detaching f w).world

omit [ForeignBlocks H] in
/-- blocks of the host stay such ones -/
def staying (guest : H.Foreign → Prop) : Likeness H := ⟨fun _ _ => True, fun _ _ => True, fun f f' => guest f → guest f'⟩

theorem ForeignBlocks.Obliging.lasting {guest : H.Foreign → Prop} (hf : Obliging guest) : (staying guest).Lasting where
  core_refl _ := trivial
  core_trans _ _ _ _ _ := trivial
  text_refl _ := trivial
  text_trans _ _ _ _ _ := trivial
  foreign_refl _ h := h
  foreign_trans _ _ _ h h' hg := h' (h hg)
  prepare _ _ := trivial
  phase _ _ := trivial
  text_create _ _ := trivial
  foreign_create f w hg := (hf.create f hg w).guest
  cleared _ := trivial
  text_destroy _ _ _ := trivial
  foreign_destroy detaching f w hg := (hf.destroy f hg detaching w).guest
  bind _ _ _ := trivial
  place _ _ _ := trivial
  foreign_mount target anchor f w hg := (hf.mount f hg target anchor w).guest
  foreign_transition t isLocal f w hg := (hf.transition f hg t isLocal w).guest
  apply _ _ _ := trivial
  context _ _ := trivial
  text_update _ _ _ := trivial
  foreign_update changed f w hg := (hf.update f hg changed w).guest

omit [ForeignBlocks H] in
/-- a component that is like one with such blocks of the host has such blocks, if those stay such ones -/
theorem Component.Like.stays {guest : H.Foreign → Prop} {c c' : Component H} (h : c.Like (staying guest) c')
    (hg : c.Guests guest) : c'.Guests guest :=
  Component.Like.guests (fun _ _ h => h) h hg

/-- its blocks of the host are such ones, and what actions have left behind leaves the document alone -/
structure Block.Mild (guest : H.Foreign → Prop) (b : Block H) : Prop where
  guests : b.Guests guest
  hushed : b.Each Core.Hushed fun _ => True

omit [ForeignBlocks H] in
theorem Component.mild_mk {guest : H.Foreign → Prop} {core : Core H} {slots children : List (Nested H)} :
    (Block.component (.mk core slots children)).Mild guest ↔
      core.Hushed ∧ (∀ n ∈ slots, n.block.Mild guest) ∧ ∀ n ∈ children, n.block.Mild guest := by
  have hrow : ∀ row : List (Nested H), (∀ n ∈ row, n.block.Mild guest) ↔
      guestsOf guest row ∧ eachOf Core.Hushed (fun _ => True) row := fun row => by
    rw [guestsOf_iff, eachOf_iff, ← forall₂_and]
    exact forall₂_congr fun n _ => ⟨fun h => ⟨h.guests, h.hushed⟩, fun h => ⟨h.1, h.2⟩⟩
  rw [hrow, hrow]
  constructor
  · rintro ⟨⟨hgs, hgc⟩, hown, hs, hc⟩
    exact ⟨hown, ⟨hgs, hs⟩, hgc, hc⟩
  · rintro ⟨hown, ⟨hgs, hs⟩, hgc, hc⟩
    exact ⟨⟨hgs, hgc⟩, hown, hs, hc⟩

section

variable {guest : H.Foreign → Prop} (hf : ForeignBlocks.Obliging guest)
include hf

/-- an update, whatever it results in -/
theorem Block.Mild.turn_update {b : Block H} (h : b.Mild guest) (changed : Props) (hd : w.document.Intact) :
    b.Turns (b.update changed w).self w (b.update changed w).world := by
  revert changed w
  refine Block.guests_induct (P := fun b => ∀ {w : World H} (changed : Props), w.document.Intact →
    b.Turns (b.update changed w).self w (b.update changed w).world) (fun t _ w changed hd => t.turn_update hd changed)
    (fun f hg w changed hd => (hf.update f hg changed w).turns hd)
    (fun core slots children hq _ ihc w changed hd => ?_) h.guests h.hushed
  let c := Component.mk core slots children
  show c.Turns (c.update changed w).self w (c.update changed w).world
  rw [Component.update_mk]
  split
  · exact Turn.refl hd _ _ _
  · have hown := hq.turn_applyEntries hd changed
    exact hown.nest (turnsAll.refl hown.writes.intact slots)
      (turn_updateRow (fun n hn changed w => ihc n hn changed) _ hown.writes.intact)

theorem Component.turn_tick {c : Component H} (h : (Block.component c).Mild guest) (incoming : Props)
    (context : Option Props) (hd : w.document.Intact) :
    c.Turns (c.tick incoming context w).self w (c.tick incoming context w).world := by
  obtain ⟨core, slots, children⟩ := c
  obtain ⟨hq, hslots, hchildren⟩ := Component.mild_mk.1 h
  by_cases hp : core.phase = .destroyed
  · rw [Component.tick_mk, if_pos hp]
    exact Turn.refl hd _ _ _
  · have hown : core.Turns (core.taking incoming context w).1 w (core.taking incoming context w).2 :=
      (hq.turn_applyEntries hd (core.props.changes incoming)).imp (fun _ h => h) fun _ h => ⟨h.texts, h.attributes⟩
    have hcontents := turn_updateRow (w := (core.taking incoming context w).2)
      (fun n hn changed w => (hslots n hn).turn_update hf changed) (core.dirty context).offer hown.writes.intact
    rw [Component.tick_eq hp]
    dsimp only
    cases (updateRow (core.dirty context).offer slots (core.taking incoming context w).2).result with
    | error fault => exact hown.nest hcontents (turnsAll.refl hcontents.writes.intact children)
    | ok =>
      exact hown.nest hcontents (turn_updateRow (fun n hn changed w => (hchildren n hn).turn_update hf changed) _
        hcontents.writes.intact)

theorem Block.Mild.turn_transition {b : Block H} (h : b.Mild guest) (t : Transition) (isLocal : Bool)
    (hd : w.document.Intact) : b.Turns (b.transition t isLocal w).1 w (b.transition t isLocal w).2 := by
  revert w
  refine Block.guests_induct (P := fun b => ∀ {w : World H}, w.document.Intact →
    b.Turns (b.transition t isLocal w).1 w (b.transition t isLocal w).2) (fun x _ w hd => Turn.refl hd _ _ _)
    (fun f hg w hd => (hf.transition f hg t isLocal w).turns hd)
    (fun core slots children _ ihs ihc w hd => ?_) h.guests h.hushed
  have hslots := turn_transitionAll ihs hd
  exact Core.Turns.nest (Turn.refl hd _ _ _) hslots (turn_transitionAll ihc hslots.writes.intact)

end

end

end LiveMarkup
