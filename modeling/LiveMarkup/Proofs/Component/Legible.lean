/-
Texts in slots, and what they show.

A text block has at most one node in the document, and what the block has as its data is what the node reads. Everything
else that a component does with texts, it does with texts of its own; a block of the host may write into nodes that it
holds, and other host code into none that was there before. A line is a text node with what is said of it; `Rewords` says
that whoever has some lines has others after a turn, that no other text has been written into, and that what is said of
the new lines is as right as it was of the old ones.

- `Rewords.beside`, `Rewords.trans`: one after another;
- `Block.Silent.create`, `Block.Silent.mountCreated`, `Block.Silent.update`, `Block.Silent.destroy`: whatever is done with
  a block, at any depth;
- `Component.writes_call`: a call that does not fail to mount.
-/
import Mathlib.Data.List.Dedup
import LiveMarkup.Proofs.Component.Appear
import LiveMarkup.Proofs.Component.Told

namespace LiveMarkup

/-- a text node, and what it is said to read if anything is said of it -/
abbrev Line := NodeId × Option String

def nodesOf (lines : List Line) : List NodeId := lines.map (·.1)

@[simp] theorem nodesOf_append (ls ms : List Line) : nodesOf (ls ++ ms) = nodesOf ls ++ nodesOf ms := List.map_append

namespace Document

variable {L : Type} {d d₁ d₂ : Document L} {ls ls' ls'' ms ms' : List Line}

/-! ## Lines -/

/-- the lines are of different nodes, all of them made, and what is said of them is right -/
structure Attests (d : Document L) (lines : List Line) : Prop where
  nodup : (nodesOf lines).Nodup
  known : ∀ x ∈ nodesOf lines, x < d.fresh
  reads : ∀ x data, (x, some data) ∈ lines → d.Reads x data

/-- who had the first lines has the second ones now: no other text has been written into, new lines are of new nodes, and
what is said of the lines is as right as before -/
structure Rewords (lines lines' : List Line) (d d₁ : Document L) : Prop where
  intact : d₁.Intact
  fresh : d.fresh ≤ d₁.fresh
  reads : ∀ x < d.fresh, x ∉ nodesOf lines → ∀ data, d.Reads x data → d₁.Reads x data
  nodes : ∀ x ∈ nodesOf lines', x ∈ nodesOf lines ∨ d.fresh ≤ x
  right : d.Attests lines → d₁.Attests lines'

theorem mem_nodesOf {line : Line} (h : line ∈ ls) : line.1 ∈ nodesOf ls := List.mem_map_of_mem h

theorem attests_nil : d.Attests [] := ⟨List.nodup_nil, List.forall_mem_nil _, fun _ _ h => absurd h List.not_mem_nil⟩

theorem attests_append : d.Attests (ls ++ ms) ↔
    d.Attests ls ∧ d.Attests ms ∧ List.Disjoint (nodesOf ls) (nodesOf ms) := by
  constructor
  · rintro ⟨hn, hk, hr⟩
    rw [nodesOf_append] at hn hk
    rw [List.forall_mem_append] at hk
    obtain ⟨hl, hm, hapart⟩ := List.nodup_append'.1 hn
    exact ⟨⟨hl, hk.1, fun x data h => hr x data (List.mem_append_left _ h)⟩,
      ⟨hm, hk.2, fun x data h => hr x data (List.mem_append_right _ h)⟩, hapart⟩
  · rintro ⟨hl, hm, hapart⟩
    refine ⟨?_, ?_, fun x data h => (List.mem_append.1 h).elim (hl.reads x data) (hm.reads x data)⟩
    · rw [nodesOf_append]
      exact List.nodup_append'.2 ⟨hl.nodup, hm.nodup, hapart⟩
    · rw [nodesOf_append]
      exact List.forall_mem_append.2 ⟨hl.known, hm.known⟩

theorem Attests.sublist (h : d.Attests ls) (hsub : ls'.Sublist ls) : d.Attests ls' :=
  ⟨(hsub.map _).nodup h.nodup, fun x hx => h.known x ((hsub.map _).subset hx),
    fun x data hx => h.reads x data (hsub.subset hx)⟩

/-- some lines are let go of -/
theorem Rewords.sublist (hd : d.Intact) (hsub : ls'.Sublist ls) : Rewords ls ls' d d :=
  ⟨hd, Nat.le_refl _, fun _ _ _ _ h => h, fun _ hx => .inl ((hsub.map _).subset hx), fun h => h.sublist hsub⟩

theorem Rewords.refl (hd : d.Intact) (ls : List Line) : Rewords ls ls d d := .sublist hd (.refl ls)

theorem Writes.rewords {S : List (NodeId × String)} (h : Writes [] S d d₁) : Rewords [] [] d d₁ :=
  ⟨h.intact, h.fresh, fun x hx _ => h.reads x hx List.not_mem_nil, List.forall_mem_nil _, fun _ => attests_nil⟩

/-- what is right of lines that are left alone stays right -/
theorem Rewords.spares (h : Rewords ls ls' d d₁) (hm : d.Attests ms) (hapart : List.Disjoint (nodesOf ls) (nodesOf ms)) :
    d₁.Attests ms :=
  ⟨hm.nodup, fun x hx => Nat.lt_of_lt_of_le (hm.known x hx) h.fresh, fun x data hx =>
    h.reads x (hm.known x (mem_nodesOf hx)) (fun hin => hapart hin (mem_nodesOf hx)) data (hm.reads x data hx)⟩

/-- one after another, each with lines of its own -/
theorem Rewords.beside (h : Rewords ls ls' d d₁) (h' : Rewords ms ms' d₁ d₂) : Rewords (ls ++ ms) (ls' ++ ms') d d₂ where
  intact := h'.intact
  fresh := Nat.le_trans h.fresh h'.fresh
  reads x hx hnot data hr := by
    rw [nodesOf_append, List.mem_append, not_or] at hnot
    exact h'.reads x (Nat.lt_of_lt_of_le hx h.fresh) hnot.2 data (h.reads x hx hnot.1 data hr)
  nodes x hx := by
    rw [nodesOf_append, List.mem_append] at hx ⊢
    rcases hx with hx | hx
    · exact (h.nodes x hx).imp_left .inl
    · exact (h'.nodes x hx).imp .inr (Nat.le_trans h.fresh)
  right hall := by
    obtain ⟨hl, hm, hapart⟩ := attests_append.1 hall
    have hl' := h.right hl
    have hm₁ := h.spares hm hapart
    -- what the first has by now was its own, or is newer than what the second had
    have hfirst : List.Disjoint (nodesOf ls') (nodesOf ms) := fun x hx hx' =>
      (h.nodes x hx).elim (fun hold => hapart hold hx') fun hnew => Nat.not_lt.2 hnew (hm.known x hx')
    refine attests_append.2 ⟨h'.spares hl' hfirst.symm, h'.right hm₁, fun x hx hx' => ?_⟩
    exact (h'.nodes x hx').elim (fun hold => hfirst hx hold) fun hnew => Nat.not_lt.2 hnew (hl'.known x hx)

/-- two turns of the same -/
theorem Rewords.trans (h : Rewords ls ls' d d₁) (h' : Rewords ls' ls'' d₁ d₂) : Rewords ls ls'' d d₂ where
  intact := h'.intact
  fresh := Nat.le_trans h.fresh h'.fresh
  reads x hx hnot data hr := h'.reads x (Nat.lt_of_lt_of_le hx h.fresh)
    (fun hin => (h.nodes x hin).elim hnot fun hnew => Nat.not_lt.2 hnew hx) data (h.reads x hx hnot data hr)
  nodes x hx := (h'.nodes x hx).elim (h.nodes x) fun hnew => .inr (Nat.le_trans h.fresh hnew)
  right hl := h'.right (h.right hl)

/-- somebody who has no lines has a turn -/
theorem Rewords.frame (h : Rewords [] [] d d₁) (ls : List Line) : Rewords ls ls d d₁ :=
  h.beside (.refl h.intact ls)

theorem Attests.perm (h : d.Attests ls) (hp : ls.Perm ls') : d.Attests ls' :=
  ⟨(hp.map _).nodup_iff.1 h.nodup, fun x hx => h.known x ((hp.map _).mem_iff.2 hx),
    fun x data hx => h.reads x data (hp.mem_iff.2 hx)⟩

/-- the same if the turns are taken the other way round -/
theorem Rewords.after (h : Rewords ls ls' d₁ d₂) (h' : Rewords ms ms' d d₁) : Rewords (ls ++ ms) (ls' ++ ms') d d₂ := by
  have hboth := h'.beside h
  refine ⟨hboth.intact, hboth.fresh, fun x hx hnot => hboth.reads x hx fun hin => hnot ?_, fun x hx => ?_,
    fun hall => (hboth.right (hall.perm List.perm_append_comm)).perm List.perm_append_comm⟩
  · exact (List.perm_append_comm.map _).mem_iff.1 hin
  · exact (hboth.nodes x ((List.perm_append_comm.map _).mem_iff.1 hx)).imp_left
      fun hin => (List.perm_append_comm.map _).mem_iff.1 hin

/-- a new node of which nothing is said -/
theorem rewords_add_none (hd : d.Intact) (kind : Kind) : Rewords [] [(d.fresh, none)] d (d.add kind).1 where
  intact := hd.add _
  fresh := Nat.le_succ _
  reads x hx _ data hr := (writes_add hd _).reads x hx List.not_mem_nil data hr
  nodes x hx := .inr (Nat.le_of_eq (List.mem_singleton.1 hx).symm)
  right _ := by
    refine ⟨List.nodup_singleton _, fun x hx => ?_, fun x s hx => ?_⟩
    · rw [List.mem_singleton.1 hx]
      exact Nat.lt_succ_self _
    · cases List.mem_singleton.1 hx

/-- a new text -/
theorem rewords_add (hd : d.Intact) (data : String) :
    Rewords [] [(d.fresh, some data)] d (d.add (.text data)).1 := by
  have hbare := rewords_add_none hd (.text data)
  refine ⟨hbare.intact, hbare.fresh, hbare.reads, hbare.nodes, fun h =>
    ⟨(hbare.right h).nodup, (hbare.right h).known, fun x s hx => ?_⟩⟩
  obtain ⟨rfl, he⟩ := Prod.mk.inj (List.mem_singleton.1 hx)
  obtain rfl := Option.some.inj he
  exact reads_add hd.valid s

/-- a text of which nothing is said is written into -/
theorem rewords_setData_none (hd : d.Intact) {x : NodeId} (hx : (x, none) ∈ ls) (data : String) :
    Rewords ls ls d (d.setData x data) := by
  have hw := writes_setData hd x data
  have hother : ∀ y, y ∉ nodesOf ls → y ∉ [x] := fun y hy hin => hy (List.mem_singleton.1 hin ▸ mem_nodesOf hx)
  refine ⟨hw.intact, hw.fresh, fun y hy hnot => hw.reads y hy (hother y hnot), fun y hy => .inl hy, fun h =>
    ⟨h.nodup, fun y hy => Nat.lt_of_lt_of_le (h.known y hy) hw.fresh, fun y s hy => ?_⟩⟩
  refine hw.reads y (h.known y (mem_nodesOf hy)) (fun hin => ?_) s (h.reads y s hy)
  obtain rfl := List.mem_singleton.1 hin
  cases List.inj_on_of_nodup_map h.nodup hx hy rfl

/-- a text is written into, and what was said of it is said anew -/
theorem rewords_setData (hd : d.Intact) (x : NodeId) (old data : String) :
    Rewords [(x, some old)] [(x, some data)] d (d.setData x data) := by
  have hw := writes_setData hd x data
  refine ⟨hw.intact, hw.fresh, fun y hy hnot => hw.reads y hy hnot, fun y hy => .inl hy, fun h =>
    ⟨h.nodup, fun y hy => Nat.lt_of_lt_of_le (h.known y hy) hw.fresh, fun y s hy => ?_⟩⟩
  obtain ⟨rfl, he⟩ := Prod.mk.inj (List.mem_singleton.1 hy)
  obtain rfl := Option.some.inj he
  exact reads_setData hd (h.reads y old (List.mem_singleton.2 rfl)) s

end Document

open Document

variable {H : Host}

/-! ## Host code that writes into no text -/

/-- such code writes into no text that was there before -/
def Silent (run : World H → World H) : Prop :=
  ∀ w, w.document.Intact → Rewords [] [] w.document (run w).document

structure Handle.Silent (h : Handle H) : Prop where
  update : ∀ run ∈ h.update, ∀ value, LiveMarkup.Silent (run value)
  destroy : ∀ run ∈ h.destroy, LiveMarkup.Silent run

/-- the action writes into no text, now and later -/
def Action.Silent (run : Action H) : Prop :=
  ∀ id value, LiveMarkup.Silent (fun w => (run id value w).1) ∧ ∀ w, (run id value w).2.Silent

def Template.Silent (t : Template (Action H)) : Prop :=
  ∀ run param, .action run param ∈ t.placeholders → Action.Silent run

/-- no action of a component writes into texts, and nothing that its actions have left behind does -/
structure Core.Silent (c : Core H) : Prop where
  actions : c.template.Silent
  cleanups : ∀ node run, .hook node run ∈ c.cleanups → LiveMarkup.Silent run
  updateHooks : ∀ hook ∈ c.updateHooks, ∀ value, LiveMarkup.Silent (hook.run value)

def Block.Silent (b : Block H) : Prop := b.Each Core.Silent fun _ => True

theorem Core.SameFooting.silent {c c' : Core H} (h : c.SameFooting c') (hc : c.Silent) : c'.Silent :=
  ⟨h.template ▸ hc.actions, h.cleanups ▸ hc.cleanups, h.updateHooks ▸ hc.updateHooks⟩

theorem Component.silent_mk {core : Core H} {slots children : List (Nested H)} :
    (Block.component (.mk core slots children)).Silent ↔
      core.Silent ∧ (∀ n ∈ slots, n.block.Silent) ∧ ∀ n ∈ children, n.block.Silent := by
  show core.Silent ∧ eachOf _ _ slots ∧ eachOf _ _ children ↔ _
  rw [eachOf_iff, eachOf_iff]
  rfl

/-! ## The lines of a component -/

/-- the text nodes of a component itself; what they read is no concern here -/
def Core.lines (c : Core H) : List Line := c.texts.map (·, none)

variable [ForeignBlocks H]

mutual
/-- the lines of a component and of all that is nested in it: what its texts say, and what a block of the host holds -/
def Component.lines : Component H → List Line
  | .mk core slots children => core.lines ++ (linesIn slots ++ linesIn children)
def linesIn : List (Nested H) → List Line
  | [] => []
  | .mk _ _ block :: row => block.lines ++ linesIn row
def Block.lines : Block H → List Line
  | .text t => t.node.toList.map (·, some t.data)
  | .foreign f => (ForeignBlocks.handles f).dedup.map (·, none)
  | .component c => c.lines
end

/-- a turn of a block after which nothing in it writes into texts of others -/
structure Block.Writes (b b' : Block H) (w w' : World H) : Prop where
  rewords : Rewords b.lines b'.lines w.document w'.document
  silent : b'.Silent

structure WritesAll (row row' : List (Nested H)) (w w' : World H) : Prop where
  rewords : Rewords (linesIn row) (linesIn row') w.document w'.document
  silent : ∀ n ∈ row', n.block.Silent

/-- blocks of the host write into no texts but those that they hold, and what they come to hold is new -/
structure ForeignBlocks.Careful (H : Host) [ForeignBlocks H] : Prop where
  create : ∀ (f : H.Foreign) (w : World H), w.document.Intact →
    (Block.foreign f).Writes (.foreign (create f w).self) w (create f w).world
  mount : ∀ (f : H.Foreign) (target : NodeId) (anchor : Option NodeId) (w : World H), w.document.Intact →
    (Block.foreign f).Writes (.foreign (mount target anchor f w).self) w (mount target anchor f w).world
  update : ∀ (f : H.Foreign) (changed : Props) (w : World H), w.document.Intact →
    (Block.foreign f).Writes (.foreign (update changed f w).self) w (update changed f w).world
  transition : ∀ (f : H.Foreign) (t : Transition) (isLocal : Bool) (w : World H), w.document.Intact →
    (Block.foreign f).Writes (.foreign (transition t isLocal f w).1) w (transition t isLocal f w).2
  destroy : ∀ (f : H.Foreign) (detaching : Bool) (w : World H), w.document.Intact →
    (Block.foreign f).Writes (.foreign (destroy detaching f w).self) w (destroy detaching f w).world

section

variable {w w₁ w₂ w₃ : World H} {row row' : List (Nested H)}

theorem WritesAll.refl (hd : w.document.Intact) (h : ∀ n ∈ row, n.block.Silent) : WritesAll row row w w :=
  ⟨.refl hd _, h⟩

theorem Block.Writes.refl (hd : w.document.Intact) {b : Block H} (h : b.Silent) : b.Writes b w w := ⟨.refl hd _, h⟩

/-- a block, and then the others -/
theorem Block.Writes.cons {b b' : Block H} (index : Nat) (atRoot atRoot' : Bool) (h : b.Writes b' w w₁)
    (hr : WritesAll row row' w₁ w₂) : WritesAll (.mk index atRoot b :: row) (.mk index atRoot' b' :: row') w w₂ :=
  ⟨h.rewords.beside hr.rewords, List.forall_mem_cons.2 ⟨h.silent, hr.silent⟩⟩

/-- nothing is written before a turn -/
theorem WritesAll.ahead (hw : Rewords [] [] w.document w₁.document) (h : WritesAll row row' w₁ w₂) :
    WritesAll row row' w w₂ := ⟨(hw.frame _).trans h.rewords, h.silent⟩

/-- a component itself, and then the contents of its slots and its children -/
theorem Block.Writes.nest {core core' : Core H} {slots slots' children children' : List (Nested H)}
    (h : Rewords core.lines core'.lines w.document w₁.document) (hcore : core'.Silent)
    (hs : WritesAll slots slots' w₁ w₂) (hc : WritesAll children children' w₂ w₃) :
    (Block.component (.mk core slots children)).Writes (.component (.mk core' slots' children')) w w₃ :=
  ⟨h.beside (hs.rewords.beside hc.rewords), Component.silent_mk.2 ⟨hcore, hs.silent, hc.silent⟩⟩

end

/-! ## Updating -/

section

variable {w : World H} {row : List (Nested H)}

omit [ForeignBlocks H] in
theorem rewords_showTexts {ls : List Line} (cells : List TextCell) (h : ∀ cell ∈ cells, (cell.node, none) ∈ ls)
    (hd : w.document.Intact) (prop text : String) :
    Rewords ls ls w.document (showTexts cells prop text w).document := by
  unfold showTexts
  have hcells : ∀ cell ∈ cells.filter (·.prop == prop), (cell.node, none) ∈ ls := fun cell hcell =>
    h cell (List.mem_of_mem_filter hcell)
  generalize cells.filter (·.prop == prop) = cells at hcells
  induction cells generalizing w with
  | nil => exact .refl hd ls
  | cons cell cells ih =>
    rw [List.forall_mem_cons] at hcells
    have hone := rewords_setData_none hd hcells.1 text
    exact hone.trans (ih (w := w.edit (·.setData cell.node text)) hone.intact hcells.2)

omit [ForeignBlocks H] in
/-- attributes are no texts -/
theorem rewords_showAttributes (cells : List AttributeCell) (hd : w.document.Intact) (prop text : String) :
    Rewords [] [] w.document (showAttributes prop text cells w).2.document := by
  induction cells generalizing w with
  | nil => exact .refl hd []
  | cons cell cells ih =>
    by_cases hp : cell.prop = prop
    · rw [showAttributes_of_prop hp]
      have hone : Rewords [] [] w.document (w.writeCell cell text).document := by
        rw [World.writeCell]
        cases cell.element with
        | none => exact .refl hd []
        | some element => exact (writes_setAttribute hd element cell.name text).rewords
      exact hone.trans (ih hone.intact)
    · rw [showAttributes_of_other hp]
      exact ih hd

omit [ForeignBlocks H] in
theorem Core.Silent.rewords_hooks {c : Core H} (h : c.Silent) (keep : UpdateHook H → Bool) (value : Value)
    (hd : w.document.Intact) :
    Rewords [] [] w.document ((c.updateHooks.filter keep).foldl (fun w hook => hook.run value w) w).document := by
  have hall : ∀ hook ∈ c.updateHooks.filter keep, LiveMarkup.Silent (hook.run value) := fun hook hin =>
    h.updateHooks hook (List.mem_of_mem_filter hin) value
  generalize c.updateHooks.filter keep = hooks at hall
  induction hooks generalizing w with
  | nil => exact .refl hd []
  | cons hook hooks ih =>
    rw [List.forall_mem_cons] at hall
    have hone := hall.1 w hd
    exact hone.trans (ih hone.intact hall.2)

omit [ForeignBlocks H] in
theorem Core.Silent.rewords_applyEntry {c : Core H} (h : c.Silent) (prop : String) (value : Value)
    (hd : w.document.Intact) : Rewords c.lines c.lines w.document (c.applyEntry w prop value).2.document := by
  have htexts := rewords_showTexts c.textCells (show ∀ cell ∈ c.textCells, (cell.node, none) ∈ c.lines from fun cell hcell =>
    List.mem_map_of_mem (f := fun x : NodeId => ((x, none) : Line)) (List.mem_map_of_mem hcell)) hd prop value.toText
  have hattributes := rewords_showAttributes c.attributeCells htexts.intact prop value.toText
  have hhooks := h.rewords_hooks (c.hears prop) value hattributes.intact
  exact htexts.trans ((hattributes.trans hhooks).frame c.lines)

omit [ForeignBlocks H] in
theorem Core.Silent.rewords_applyEntries {c : Core H} (h : c.Silent) (changed : Props) (hd : w.document.Intact) :
    Rewords c.lines (c.applyEntries w changed).1.lines w.document (c.applyEntries w changed).2.document := by
  have hlines : (c.applyEntries w changed).1.lines = c.lines := by
    rw [lines, lines, texts, texts, (c.applyEntries_footing w changed).textCells]
  rw [hlines]
  clear hlines
  unfold Core.applyEntries
  generalize changed.entries = entries
  induction entries generalizing c w with
  | nil => exact .refl hd c.lines
  | cons e entries ih =>
    have hone := h.rewords_applyEntry e.1 e.2 hd
    have hnext : (c.applyEntry w e.1 e.2).1.Silent := ⟨h.actions, h.cleanups, h.updateHooks⟩
    exact hone.trans (ih hnext hone.intact)

theorem TextBlock.rewords_update (t : TextBlock) (changed : Props) (hd : w.document.Intact) :
    (Block.text t).Writes (.text (t.update changed w).1) w (t.update changed w).2 := by
  refine ⟨?_, trivial⟩
  unfold TextBlock.update
  cases t.prop.bind changed.get? with
  | none => exact .refl hd _
  | some value =>
    obtain ⟨prop, data, node⟩ := t
    cases node with
    | none => exact .refl hd _
    | some node => exact rewords_setData hd node data value.toText

/-- a row is updated block by block -/
theorem updateRow_writes (hr : ∀ n ∈ row, n.block.Silent)
    (h : ∀ n ∈ row, ∀ (changed : Props) (w : World H), w.document.Intact →
      n.block.Writes (n.block.update changed w).self w (n.block.update changed w).world)
    (deliver : Nat → Option Props) (hd : w.document.Intact) :
    WritesAll row (updateRow deliver row w).self w (updateRow deliver row w).world := by
  induction row generalizing w with
  | nil => exact .refl hd hr
  | cons n row ih =>
    obtain ⟨index, atRoot, block⟩ := n
    rw [List.forall_mem_cons] at h hr
    rw [updateRow_cons]
    cases deliver index with
    | none => exact (Block.Writes.refl hd hr.1).cons index atRoot atRoot (ih hr.2 h.2 hd)
    | some changed =>
      have hb := h.1 changed w hd
      dsimp only
      cases (block.update changed w).result with
      | error fault => exact hb.cons index atRoot atRoot (.refl hb.rewords.intact hr.2)
      | ok => exact hb.cons index atRoot atRoot (ih hr.2 h.2 hb.rewords.intact)

omit [ForeignBlocks H] in
/-- what holds of texts and of blocks of the host, and of a component if it holds of all that is nested in it, holds of all
blocks; of a component it may be asked that it and all that is nested in it write into no texts of others -/
theorem Block.Silent.induct {P : Block H → Prop} (text : ∀ t, P (.text t)) (foreign : ∀ f, P (.foreign f))
    (component : ∀ core slots children, (Block.component (.mk core slots children)).Silent →
      (∀ n ∈ slots, P n.block) → (∀ n ∈ children, P n.block) → P (.component (.mk core slots children)))
    {b : Block H} (h : b.Silent) : P b := by
  have hblock : ∀ b : Block H, (∀ c, b = .component c → (Block.component c).Silent → P (.component c)) → b.Silent →
      P b := by
    intro b ih h
    cases b with
    | text t => exact text t
    | foreign f => exact foreign f
    | component c => exact ih c rfl h
  have hcomponent : ∀ c : Component H, (Block.component c).Silent → P (.component c) := by
    intro c
    induction c using Component.induct with
    | mk core slots children ihs ihc =>
      intro h
      obtain ⟨-, hs, hc⟩ := Component.silent_mk.1 h
      exact component core slots children h (fun n hn => hblock _ (ihs n hn) (hs n hn))
        fun n hn => hblock _ (ihc n hn) (hc n hn)
  exact hblock b (fun c _ => hcomponent c) h

theorem Block.Silent.update (hf : ForeignBlocks.Careful H) {b : Block H} (h : b.Silent) (changed : Props)
    (hd : w.document.Intact) : b.Writes (b.update changed w).self w (b.update changed w).world := by
  revert changed w
  refine h.induct (P := fun b => ∀ {w : World H} (changed : Props), w.document.Intact →
      b.Writes (b.update changed w).self w (b.update changed w).world)
    (fun t _ changed hd => t.rewords_update changed hd) (fun f w changed hd => hf.update f changed w hd)
    fun core slots children hq _ ihc w changed hd => ?_
  obtain ⟨hcore, hs, hc⟩ := Component.silent_mk.1 hq
  show (Block.component (.mk core slots children)).Writes
    (.component ((Component.mk core slots children).update changed w).self) w
    ((Component.mk core slots children).update changed w).world
  rw [Component.update_mk]
  split
  · exact .refl hd hq
  · have hown := hcore.rewords_applyEntries changed hd
    exact .nest hown ((core.applyEntries_footing w changed).silent hcore) (.refl hown.intact hs)
      (updateRow_writes hc (fun n hn changed w => ihc n hn changed) _ hown.intact)

theorem Component.writes_tick (hf : ForeignBlocks.Careful H) {c : Component H} (h : (Block.component c).Silent)
    (incoming : Props) (context : Option Props) (hd : w.document.Intact) :
    (Block.component c).Writes (.component (c.tick incoming context w).self) w (c.tick incoming context w).world := by
  obtain ⟨core, slots, children⟩ := c
  obtain ⟨hcore, hs, hc⟩ := Component.silent_mk.1 h
  by_cases hp : core.phase = .destroyed
  · rw [tick_mk, if_pos hp]
    exact .refl hd h
  · have hown : Rewords core.lines (core.taking incoming context w).1.lines w.document
        (core.taking incoming context w).2.document := hcore.rewords_applyEntries (core.props.changes incoming) hd
    have hsilent : (core.taking incoming context w).1.Silent :=
      have hfooting := (core.applyEntries_footing w (core.props.changes incoming)).silent hcore
      ⟨hfooting.actions, hfooting.cleanups, hfooting.updateHooks⟩
    have hcontents := updateRow_writes (w := (core.taking incoming context w).2) hs
      (fun n hn changed w => (hs n hn).update hf changed) (core.dirty context).offer hown.intact
    rw [tick_eq hp]
    dsimp only
    cases (updateRow (core.dirty context).offer slots (core.taking incoming context w).2).result with
    | error fault => exact .nest hown hsilent hcontents (.refl hcontents.rewords.intact hc)
    | ok =>
      exact .nest hown hsilent hcontents
        (updateRow_writes hc (fun n hn changed w => (hc n hn).update hf changed) _ hcontents.rewords.intact)

theorem transitionAll_writes (hr : ∀ n ∈ row, n.block.Silent) (t : Transition) (isLocal : Bool)
    (h : ∀ n ∈ row, ∀ w : World H, w.document.Intact →
      n.block.Writes (n.block.transition t isLocal w).1 w (n.block.transition t isLocal w).2) (hd : w.document.Intact) :
    WritesAll row (transitionAll t isLocal row w).1 w (transitionAll t isLocal row w).2 := by
  induction row generalizing w with
  | nil => exact .refl hd hr
  | cons n row ih =>
    obtain ⟨index, atRoot, block⟩ := n
    rw [List.forall_mem_cons] at h hr
    have hb := h.1 w hd
    exact hb.cons index atRoot atRoot (ih hr.2 h.2 hb.rewords.intact)

theorem Block.Silent.transition (hf : ForeignBlocks.Careful H) {b : Block H} (h : b.Silent) (t : Transition)
    (isLocal : Bool) (hd : w.document.Intact) :
    b.Writes (b.transition t isLocal w).1 w (b.transition t isLocal w).2 := by
  revert w
  refine h.induct (P := fun b => ∀ {w : World H}, w.document.Intact →
      b.Writes (b.transition t isLocal w).1 w (b.transition t isLocal w).2) (fun x w hd => .refl hd trivial)
    (fun f w hd => hf.transition f t isLocal w hd) fun core slots children hq ihs ihc w hd => ?_
  obtain ⟨hcore, hs, hc⟩ := Component.silent_mk.1 hq
  have hcontents := transitionAll_writes hs t isLocal (fun n hn w => ihs n hn) hd
  exact .nest (.refl hd _) hcore hcontents
    (transitionAll_writes hc t isLocal (fun n hn w => ihc n hn) hcontents.rewords.intact)

end

/-! ## Creating -/

section

variable {w : World H} {row : List (Nested H)}

omit [ForeignBlocks H] in
theorem rewords_textCellsFor {T : Type} (props : Props) (ps : List (Placeholder (Action H) T)) (index : Nat)
    (hd : w.document.Intact) : Rewords [] ((textCellsFor props index ps w).1.map fun cell => (cell.node, none)) w.document
      (textCellsFor props index ps w).2.document := by
  induction ps generalizing index w with
  | nil => exact .refl hd []
  | cons p ps ih =>
    cases p with
    | text prop =>
      have hone := rewords_add_none hd (.text (props.text prop))
      exact hone.beside (ih (w := (w.addText (props.text prop)).1) (index + 1) hone.intact)
    | _ => exact ih (index + 1) hd

omit [ForeignBlocks H] in
/-- a component gets a copy of its skeleton and new texts in the place of those it may have had -/
theorem Core.rewords_prepare (c : Core H) (hd : w.document.Intact) :
    Rewords c.lines (c.prepare w).1.lines w.document (c.prepare w).2.2.document := by
  have hfragment := writes_addFragment hd c.template.skeleton
  have htexts := rewords_textCellsFor (w := (w.addFragment c.template.skeleton).1) c.props c.template.placeholders 0
    hfragment.intact
  have hlines : (c.prepare w).1.lines =
      (textCellsFor c.props 0 c.template.placeholders (w.addFragment c.template.skeleton).1).1.map
        fun cell => (cell.node, none) := List.map_map
  rw [hlines]
  exact (Rewords.sublist hd (List.nil_sublist _)).trans (hfragment.rewords.trans htexts)

theorem createAll_writes (hr : ∀ n ∈ row, n.block.Silent)
    (h : ∀ n ∈ row, ∀ w : World H, w.document.Intact →
      n.block.Writes (n.block.create w).self w (n.block.create w).world) (hd : w.document.Intact) :
    WritesAll row (createAll row w).self w (createAll row w).world := by
  induction row generalizing w with
  | nil => exact .refl hd hr
  | cons n row ih =>
    obtain ⟨index, atRoot, block⟩ := n
    rw [List.forall_mem_cons] at h hr
    have hb := h.1 w hd
    rw [createAll]
    split
    · exact hb.cons index atRoot atRoot (.refl hb.rewords.intact hr.2)
    · exact hb.cons index atRoot atRoot (ih hr.2 h.2 hb.rewords.intact)

theorem TextBlock.rewords_create (t : TextBlock) (hd : w.document.Intact) :
    (Block.text t).Writes (.text (t.create w).1) w (t.create w).2 := by
  obtain ⟨prop, data, node⟩ := t
  cases node with
  | some node => exact .refl hd trivial
  | none => exact ⟨rewords_add hd data, trivial⟩

theorem Block.Silent.create (hf : ForeignBlocks.Careful H) {b : Block H} (h : b.Silent) (hd : w.document.Intact) :
    b.Writes (b.create w).self w (b.create w).world := by
  revert w
  refine h.induct (P := fun b => ∀ {w : World H}, w.document.Intact → b.Writes (b.create w).self w (b.create w).world)
    (fun t w hd => t.rewords_create hd) (fun f w hd => hf.create f w hd) fun core slots children hq ihs ihc w hd => ?_
  obtain ⟨hcore, hs, hc⟩ := Component.silent_mk.1 hq
  show (Block.component (.mk core slots children)).Writes
    (.component ((Component.mk core slots children).create w).self) w ((Component.mk core slots children).create w).world
  by_cases hp : core.phase.Active
  · have hsame : ((Component.mk core slots children).create w).self = .mk core slots children ∧
        ((Component.mk core slots children).create w).world = w := by
      rw [Component.create]
      cases hphase : core.phase with
      | created | mounted => exact ⟨rfl, rfl⟩
      | unmounted | destroyed => rw [hphase] at hp; exact hp.elim
    rw [hsame.1, hsame.2]
    exact .refl hd hq
  · have hown := core.rewords_prepare hd
    have hsilent : ∀ phase, Core.Silent { (core.prepare w).1 with phase } := fun _ =>
      ⟨hcore.actions, hcore.cleanups, hcore.updateHooks⟩
    have hkids := createAll_writes hc (fun n hn w => ihc n hn) hown.intact
    -- the contents of the slots come first in the component, and last in time
    have hall : ∀ phase slots' (w₃ : World H),
        WritesAll slots slots' (createAll children (core.prepare w).2.2).world w₃ →
        (Block.component (.mk core slots children)).Writes (.component (.mk { (core.prepare w).1 with phase } slots'
          (createAll children (core.prepare w).2.2).self)) w w₃ := fun phase slots' w₃ hcontents =>
      ⟨hown.beside (hcontents.rewords.after hkids.rewords),
        Component.silent_mk.2 ⟨hsilent phase, hcontents.silent, hkids.silent⟩⟩
    have hcontents := createAll_writes hs (fun n hn w => ihs n hn) hkids.rewords.intact
    rw [Component.create_eq hp]
    dsimp only
    cases (createAll children (core.prepare w).2.2).result with
    | error fault => exact hall (core.prepare w).1.phase _ _ (.refl hkids.rewords.intact hs)
    | ok =>
      dsimp only
      cases (createAll slots (createAll children (core.prepare w).2.2).world).result with
      | error fault => exact hall (core.prepare w).1.phase _ _ hcontents
      | ok => exact hall _ _ _ hcontents

end

/-! ## Mounting -/

section

variable {w : World H} {fragment : NodeId} {row : List (Nested H)}

omit [ForeignBlocks H] in
variable (fragment) in
theorem rewords_bindAttributes (cells : List AttributeCell) (hd : w.document.Intact) :
    Rewords [] [] w.document (bindAttributes fragment cells w).world.document := by
  induction cells generalizing w with
  | nil => exact .refl hd []
  | cons cell cells ih =>
    rw [bindAttributes]
    cases w.marker fragment ⟨.attribute, cell.index⟩ with
    | error fault => exact .refl hd []
    | ok x =>
      have hone : Rewords [] [] w.document
          (w.renameAttribute x (Marker.name ⟨.attribute, cell.index⟩) cell.name cell.value).document := by
        unfold World.renameAttribute World.edit
        cases w.backend.renamesInPlace with
        | true => exact (writes_renameAttribute hd x (m := ⟨.attribute, cell.index⟩) rfl cell.name cell.value).rewords
        | false =>
          have hremove := Document.writes_removeAttribute hd x (m := ⟨.attribute, cell.index⟩) rfl
          exact hremove.rewords.trans (writes_setAttribute hremove.intact x cell.name cell.value).rewords
      exact hone.trans (ih hone.intact)

omit [ForeignBlocks H] in
variable (fragment) in
/-- silent actions write into no text when they run, and neither does what they leave behind -/
theorem rewords_runActions {T : Type} (props : Props) {ps : List (Placeholder (Action H) T)}
    (hq : ∀ run param, .action run param ∈ ps → Action.Silent run) (index : Nat) (hd : w.document.Intact) :
    Rewords [] [] w.document (runActions fragment props index ps w).world.document ∧
      (∀ node run, .hook node run ∈ (runActions fragment props index ps w).self.1 → LiveMarkup.Silent run) ∧
      ∀ hook ∈ (runActions fragment props index ps w).self.2, ∀ value, LiveMarkup.Silent (hook.run value) := by
  have hnone : ∀ node run, Cleanup.hook (H := H) node run ∈ [] → LiveMarkup.Silent run := fun _ _ h =>
    absurd h List.not_mem_nil
  induction ps generalizing index w with
  | nil => exact ⟨.refl hd [], hnone, List.forall_mem_nil _⟩
  | cons p ps ih =>
    have hps : ∀ run param, .action run param ∈ ps → Action.Silent run := fun run param h =>
      hq run param (List.mem_cons_of_mem _ h)
    cases p with
    | action run param =>
      rw [runActions]
      dsimp only
      cases w.marker fragment ⟨.action, index⟩ with
      | error fault => exact ⟨.refl hd [], hnone, List.forall_mem_nil _⟩
      | ok x =>
        have hremove := (World.writes_removeAttribute hd x (m := ⟨.action, index⟩) rfl).rewords
        obtain ⟨hrun, hhandle⟩ := hq run param List.mem_cons_self x (param.bind props.get?)
        have hran := hremove.trans (hrun _ hremove.intact)
        have hleft := hhandle (w.edit (·.removeAttribute x (Marker.name ⟨.action, index⟩)))
        obtain ⟨hrest, hcleanups, hhooks⟩ := ih hps (index + 1) hran.intact
        refine ⟨hran.trans hrest, fun node run' hin => ?_, List.forall_mem_append.2 ⟨fun hook hin => ?_, hhooks⟩⟩
        · rcases List.mem_append.1 hin with hin | hin
          · obtain ⟨destroy, hdestroy, he⟩ := Option.map_eq_some_iff.1 (Option.mem_toList.1 hin)
            obtain ⟨rfl, rfl⟩ := Cleanup.hook.inj he
            exact hleft.destroy destroy hdestroy
          · exact hcleanups node run' hin
        · obtain ⟨update, hupdate, rfl⟩ := Option.map_eq_some_iff.1 (Option.mem_toList.1 hin)
          exact hleft.update update hupdate
    | _ => exact ih hps (index + 1) hd

omit [ForeignBlocks H] in
theorem attachListeners_listeners {T : Type} (channel index : Nat) (ps : List (Placeholder (Action H) T)) (w : World H)
    {node : NodeId} {run : World H → World H} :
    Cleanup.hook node run ∉ (attachListeners fragment channel index ps w).self := by
  induction ps generalizing index w with
  | nil => exact List.not_mem_nil
  | cons p ps ih =>
    cases p with
    | event event topic =>
      rw [attachListeners]
      dsimp only
      cases w.marker fragment ⟨.event, index⟩ with
      | error fault => exact List.not_mem_nil
      | ok x =>
        intro hin
        rcases List.mem_cons.1 hin with hin | hin
        · cases hin
        · exact ih _ _ hin
    | _ => exact ih _ w

omit [ForeignBlocks H] in
/-- a component binds its own placeholders, and writes into no text -/
theorem Core.Silent.rewords_bind {c : Core H} (h : c.Silent) (hd : w.document.Intact)
    (hok : (c.bind fragment w).result = .ok ()) :
    Rewords [] [] w.document (c.bind fragment w).world.document ∧ (c.bind fragment w).self.Silent ∧
      (c.bind fragment w).self.lines = c.lines := by
  have htexts := (writes_bindTexts fragment c.textCells hd).rewords
  have hattributes := rewords_bindAttributes fragment c.attributeCells htexts.intact
  obtain ⟨hlisteners, -⟩ := attachListeners_spared fragment c.channel 0 c.template.placeholders hattributes.intact
  obtain ⟨hactions, hcleanups, hhooks⟩ := rewords_runActions fragment c.props h.actions 0 hlisteners.intact
  rw [Core.bind] at hok ⊢
  dsimp only at hok ⊢
  cases htr : (bindTexts fragment c.textCells w).result with
  | error fault =>
    rw [htr] at hok
    cases hok
  | ok =>
    rw [htr] at hok
    dsimp only at hok ⊢
    cases har : (bindAttributes fragment c.attributeCells (bindTexts fragment c.textCells w).world).result with
    | error fault =>
      rw [har] at hok
      cases hok
    | ok =>
      rw [har] at hok
      dsimp only at hok ⊢
      cases hlr : (attachListeners fragment c.channel 0 c.template.placeholders
          (bindAttributes fragment c.attributeCells (bindTexts fragment c.textCells w).world).world).result with
      | error fault =>
        rw [hlr] at hok
        cases hok
      | ok =>
        refine ⟨htexts.trans (hattributes.trans (hlisteners.rewords.trans hactions)), ⟨h.actions, fun node run hin => ?_,
          List.forall_mem_append.2 ⟨h.updateHooks, hhooks⟩⟩, rfl⟩
        rcases List.mem_append.1 hin with hin | hin
        · rcases List.mem_append.1 hin with hin | hin
          · exact h.cleanups node run hin
          · exact absurd hin (attachListeners_listeners _ _ _ _)
        · exact hcleanups node run hin

theorem TextBlock.rewords_mount (t : TextBlock) (target : NodeId) (anchor : Option NodeId) (hd : w.document.Intact) :
    (Block.text t).Writes (.text (t.mount target anchor w).1) w (t.mount target anchor w).2 := by
  have hcreate := t.rewords_create hd
  rw [mount]
  dsimp only
  refine ⟨hcreate.rewords.trans (Rewords.frame ?_ _), trivial⟩
  cases (t.create w).1.node with
  | none => exact .refl hcreate.rewords.intact []
  | some node => exact (writes_insertBefore hcreate.rewords.intact target node anchor).rewords

/-- a row is mounted block by block -/
theorem mountRow_writes (hr : ∀ n ∈ row, n.block.Silent)
    (h : ∀ n ∈ row, ∀ (target : NodeId) (anchor : Option NodeId) (w : World H), w.document.Intact →
      (n.block.mountCreated target anchor w).result = .ok () →
      n.block.Writes (n.block.mountCreated target anchor w).self w (n.block.mountCreated target anchor w).world)
    {held later : List NodeId} {spots : List (Nat × NodeId)} (hd : w.document.Intact)
    (hok : (mountRow fragment held later row spots w).result = .ok ()) :
    WritesAll row (mountRow fragment held later row spots w).self w (mountRow fragment held later row spots w).world := by
  induction row generalizing held spots w with
  | nil =>
    have hall := (World.writes_discardAll hd (held ++ later) spots).rewords
    exact (WritesAll.refl hall.intact hr).ahead hall
  | cons n row ih =>
    obtain ⟨index, atRoot, block⟩ := n
    rw [List.forall_mem_cons] at h hr
    have hempty := (World.writes_discardAll hd (held ++ (spots.dropWhile (·.1 ≠ index)).map (·.2) ++ later)
      (spots.takeWhile (·.1 ≠ index))).rewords
    rw [mountRow] at hok ⊢
    dsimp only at hok ⊢
    generalize w.discardAll (held ++ (spots.dropWhile (·.1 ≠ index)).map (·.2) ++ later)
      (spots.takeWhile (·.1 ≠ index)) = w₁ at hempty hok ⊢
    have hleft : block.Writes block w₁ w₁ := .refl hempty.intact hr.1
    cases hs : spots.dropWhile (·.1 ≠ index) with
    | nil =>
      rw [hs] at hok
      exact (hleft.cons index atRoot atRoot (ih hr.2 h.2 hempty.intact hok)).ahead hempty
    | cons spot after =>
      obtain ⟨place, spot⟩ := spot
      rw [hs] at hok
      dsimp only at hok ⊢
      cases hparent : w₁.document.parent? spot with
      | none =>
        rw [hparent] at hok
        have hgone := (World.writes_discard hempty.intact (held ++ (after.map (·.2) ++ later)) spot).rewords
        exact (hleft.cons index atRoot atRoot ((ih hr.2 h.2 hgone.intact hok).ahead hgone)).ahead hempty
      | some parent =>
        rw [hparent] at hok
        dsimp only at hok ⊢
        cases hresult : (block.mountCreated parent (some spot) w₁).result with
        | error fault =>
          rw [hresult] at hok
          cases hok
        | ok =>
          rw [hresult] at hok
          have hblock := h.1 parent (some spot) w₁ hempty.intact hresult
          have hgone := (World.writes_discard hblock.rewords.intact
            (held ++ (block.mountCreated parent (some spot) w₁).self.handles ++ (after.map (·.2) ++ later)) spot).rewords
          exact (hblock.cons index atRoot (parent == fragment) ((ih hr.2 h.2 hgone.intact hok).ahead hgone)).ahead hempty

/-- a block is put into a target, if that succeeds -/
theorem Block.Silent.mountCreated (hf : ForeignBlocks.Careful H) {b : Block H} (h : b.Silent) (target : NodeId)
    (anchor : Option NodeId) (hd : w.document.Intact) (hok : (b.mountCreated target anchor w).result = .ok ()) :
    b.Writes (b.mountCreated target anchor w).self w (b.mountCreated target anchor w).world := by
  revert target anchor w
  refine h.induct (P := fun b => ∀ {w : World H} (target : NodeId) (anchor : Option NodeId), w.document.Intact →
      (b.mountCreated target anchor w).result = .ok () →
      b.Writes (b.mountCreated target anchor w).self w (b.mountCreated target anchor w).world)
    (fun t w target anchor hd _ => t.rewords_mount target anchor hd)
    (fun f w target anchor hd _ => hf.mount f target anchor w hd)
    fun core slots children hq ihs ihc w target anchor hd hok => ?_
  obtain ⟨hcore, hs, hc⟩ := Component.silent_mk.1 hq
  change ((Component.mk core slots children).mountCreated target anchor w).result = .ok () at hok
  show (Block.component (.mk core slots children)).Writes
    (.component ((Component.mk core slots children).mountCreated target anchor w).self) w
    ((Component.mk core slots children).mountCreated target anchor w).world
  rw [Component.mountCreated] at hok ⊢
  cases hp : core.phase with
  | mounted | unmounted | destroyed =>
    rw [hp] at hok
    cases hok
  | created fragment =>
    rw [hp] at hok
    dsimp only at hok ⊢
    cases hbind : (core.bind fragment w).result with
    | error fault =>
      rw [hbind] at hok
      cases hok
    | ok =>
      rw [hbind] at hok
      dsimp only at hok ⊢
      obtain ⟨hown, hsilent, hlines⟩ := hcore.rewords_bind hd hbind
      cases hslots : (core.bind fragment w).world.spots fragment .slot (indicesOf core.template.placeholders .slot) with
      | error fault =>
        rw [hslots] at hok
        cases hok
      | ok slotSpots =>
        cases hchildren : (core.bind fragment w).world.spots fragment .child
            (indicesOf core.template.placeholders .child) with
        | error fault =>
          rw [hslots, hchildren] at hok
          cases hok
        | ok childSpots =>
          rw [hslots, hchildren] at hok
          dsimp only at hok ⊢
          generalize ((core.bind fragment w).world.document.children fragment).filter
            (!((slotSpots ++ childSpots).map (·.2)).contains ·) = roots at hok ⊢
          generalize hheld : Core.handles { (core.bind fragment w).self with roots } = held at hok ⊢
          cases hcontents : (mountRow fragment held (childSpots.map (·.2)) slots slotSpots
              (core.bind fragment w).world).result with
          | error fault =>
            rw [hcontents] at hok
            cases hok
          | ok =>
            rw [hcontents] at hok
            dsimp only at hok ⊢
            have hrow := mountRow_writes hs (fun n hn t a w => ihs n hn t a) hown.intact hcontents
            generalize mountRow fragment held (childSpots.map (·.2)) slots slotSpots (core.bind fragment w).world =
              contents at hrow hok ⊢
            cases hkids : (mountRow fragment (held ++ handlesOf contents.self) [] children childSpots
                contents.world).result with
            | error fault =>
              rw [hkids] at hok
              cases hok
            | ok =>
              have hkidsRow := mountRow_writes hc (fun n hn t a w => ihc n hn t a) hrow.rewords.intact hkids
              have hfirst : Rewords core.lines
                  (Core.lines { (core.bind fragment w).self with roots, phase := .mounted }) w.document
                  (core.bind fragment w).world.document := by
                rw [show Core.lines { (core.bind fragment w).self with roots, phase := .mounted } = core.lines from hlines]
                exact hown.frame core.lines
              have hall := Block.Writes.nest hfirst ⟨hsilent.actions, hsilent.cleanups, hsilent.updateHooks⟩ hrow hkidsRow
              have hlast := (writes_insertBefore hkidsRow.rewords.intact target fragment anchor).rewords
              exact ⟨hall.rewords.trans (hlast.frame _), hall.silent⟩

end

/-! ## Destroying -/

section

variable {w : World H} {row : List (Nested H)}

omit [ForeignBlocks H] in
theorem Core.Silent.rewords_cleanUp {c : Core H} (h : c.Silent) (hd : w.document.Intact) :
    Rewords [] [] w.document (c.cleanUp w).document := by
  unfold cleanUp
  have hsilent := h.cleanups
  generalize c.cleanups = cleanups at hsilent
  induction cleanups generalizing w with
  | nil => exact .refl hd []
  | cons cleanup cleanups ih =>
    have hone : Rewords [] [] w.document (cleanup.run w).document := by
      cases cleanup with
      | listener node ticket => exact (writes_listeners hd node (.unlisten ticket) fun _ => rfl).rewords
      | hook node run => exact hsilent node run List.mem_cons_self w hd
    exact hone.trans (ih hone.intact fun node run hin => hsilent node run (List.mem_cons_of_mem _ hin))

theorem destroyAll_writes (hr : ∀ n ∈ row, n.block.Silent)
    (h : ∀ n ∈ row, ∀ (d : Bool) (w : World H), w.document.Intact →
      n.block.Writes (n.block.destroy d w).self w (n.block.destroy d w).world) (detaching : Bool)
    (hd : w.document.Intact) :
    WritesAll row (destroyAll detaching row w).self w (destroyAll detaching row w).world := by
  induction row generalizing w with
  | nil => exact .refl hd hr
  | cons n row ih =>
    obtain ⟨index, atRoot, block⟩ := n
    rw [List.forall_mem_cons] at h hr
    have hb := h.1 (detaching && atRoot) w hd
    exact hb.cons index atRoot atRoot (ih hr.2 h.2 hb.rewords.intact)

theorem Block.Silent.destroy (hf : ForeignBlocks.Careful H) {b : Block H} (h : b.Silent) (detaching : Bool)
    (hd : w.document.Intact) : b.Writes (b.destroy detaching w).self w (b.destroy detaching w).world := by
  revert detaching w
  refine h.induct (P := fun b => ∀ {w : World H} (detaching : Bool), w.document.Intact →
      b.Writes (b.destroy detaching w).self w (b.destroy detaching w).world) (fun t w detaching hd => ?_)
    (fun f w detaching hd => hf.destroy f detaching w hd) fun core slots children hq ihs ihc w detaching hd => ?_
  · obtain ⟨prop, data, node⟩ := t
    refine ⟨?_, trivial⟩
    cases node with
    | none => exact .refl hd []
    | some node =>
      have hgone : Rewords [] [] w.document ((TextBlock.mk prop data (some node)).destroy detaching w).2.document := by
        cases detaching with
        | false => exact .refl hd []
        | true => exact (writes_detach hd node).rewords
      exact (Rewords.sublist hd (List.nil_sublist _)).trans hgone
  · obtain ⟨hcore, hs, hc⟩ := Component.silent_mk.1 hq
    have hrows : ∀ u : World H, Rewords [] [] w.document u.document →
        (Block.component (.mk core slots children)).Writes
          (.component (.mk core.cleared (destroyAll detaching slots (core.cleanUp u)).self
            (destroyAll detaching children (destroyAll detaching slots (core.cleanUp u)).world).self)) w
          (destroyAll detaching children (destroyAll detaching slots (core.cleanUp u)).world).world := by
      intro u hu
      have hclean := hu.trans (hcore.rewords_cleanUp hu.intact)
      have hcontents := destroyAll_writes hs (fun n hn d w => ihs n hn d) detaching hclean.intact
      have hnone : ∀ node run, Cleanup.hook (H := H) node run ∈ [] → LiveMarkup.Silent run := fun _ _ h =>
        absurd h List.not_mem_nil
      exact .nest ((Rewords.sublist hd (List.nil_sublist _)).trans hclean)
        ⟨hcore.actions, hnone, List.forall_mem_nil _⟩ hcontents
        (destroyAll_writes hc (fun n hn d w => ihc n hn d) detaching hcontents.rewords.intact)
    have hroots : ∀ b : Bool, Rewords [] [] w.document (if b = true then core.detachRoots w else w).document := by
      intro b
      split
      · exact (core.writes_detachRoots hd).rewords
      · exact .refl hd []
    show (Block.component (.mk core slots children)).Writes
      (.component ((Component.mk core slots children).destroy detaching w).self) w
      ((Component.mk core slots children).destroy detaching w).world
    rw [Component.destroy]
    cases core.phase with
    | unmounted => exact .refl hd hq
    | destroyed => exact .refl hd hq
    | created fragment => exact hrows _ (hroots _)
    | mounted => exact hrows _ (hroots _)

end

/-! ## Calls -/

/-- a call writes into no texts but those of the component, if it is not a mount that fails -/
theorem Component.writes_call (hf : ForeignBlocks.Careful H) {c : Component H} (h : (Block.component c).Silent)
    {call : Call NodeId} {w : World H} (hs : c.Smooth w call) (hd : w.document.Intact) :
    (Block.component c).Writes (.component (c.call w call).self) w (c.call w call).world := by
  cases call with
  | create => exact h.create hf hd
  | update changed => exact h.update hf changed hd
  | set incoming => exact writes_tick hf h incoming none hd
  | tick incoming context => exact writes_tick hf h incoming context hd
  | transition t isLocal => exact h.transition hf t isLocal hd
  | destroy detaching => exact h.destroy hf detaching hd
  | mount target anchor =>
    have hs : (c.mount target anchor w).result = .ok () := hs
    by_cases hp : c.core.phase.Active
    · cases hphase : c.core.phase with
      | unmounted | destroyed => rw [hphase] at hp; exact hp.elim
      | mounted =>
        rw [mount, hphase] at hs
        cases hs
      | created fragment =>
        rw [call, callIn, mount, hphase]
        rw [mount, hphase] at hs
        exact h.mountCreated hf target anchor hd hs
    · have hcreate : (Block.component c).Writes (.component (c.create w).self) w (c.create w).world := h.create hf hd
      cases hr : (c.create w).result with
      | error fault =>
        rw [mount_of_error hp target anchor hr, hr] at hs
        cases hs
      | ok =>
        rw [mount_of_ok hp target anchor hr] at hs
        rw [call, callIn, mount_of_ok hp target anchor hr]
        have hmount : (Block.component (c.create w).self).Writes _ (c.create w).world _ :=
          hcreate.silent.mountCreated hf target anchor hcreate.rewords.intact hs
        exact ⟨hcreate.rewords.trans hmount.rewords, hmount.silent⟩

end LiveMarkup
