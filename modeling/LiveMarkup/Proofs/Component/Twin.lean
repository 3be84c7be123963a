/-
One component in two worlds.

The same calls are made on a component in two worlds whose documents have a part in common (`Chart`). What the component
holds in one world has its counterpart in the other (`Component.Twin`), and so has what the calls come to: each advances the
chart, results in the same, and leaves twins behind. In the first world nothing is changed but what is the component's own.

Actions and what they leave behind change only what the host adds to the world. In two worlds an action may still leave
different things behind, since it may look at that; an action is steady if whether it leaves something to run does not
depend on it. Only mounting runs actions.

- `Component.Twin.create`, `Component.Twin.update`, `Component.Twin.tick`, `Component.Twin.destroy`: one call on both.
-/
import LiveMarkup.Component.Call
import LiveMarkup.Proofs.Document.Chart
import LiveMarkup.Proofs.Component.Orderly
import LiveMarkup.Proofs.Event.Quiet

namespace LiveMarkup

variable {H : Host}

/-! ## Actions that leave documents and components alone -/

structure Handle.Discreet (h : Handle H) : Prop where
  update : ∀ run ∈ h.update, ∀ value, ∀ w : World H, w.Aside (run value w)
  destroy : ∀ run ∈ h.destroy, ∀ w : World H, w.Aside (run w)

/-- the action changes only what the host adds, now and later -/
def Action.Discreet (run : Action H) : Prop :=
  ∀ id value, ∀ w : World H, w.Aside (run id value w).1 ∧ (run id value w).2.Discreet

/-- whether the action leaves something to run depends on its parameter alone -/
def Action.Steady (run : Action H) : Prop :=
  ∀ id id' value, ∀ w w' : World H, ((run id' value w').2.update.isSome = (run id value w).2.update.isSome) ∧
    (run id' value w').2.destroy.isSome = (run id value w).2.destroy.isSome

def Template.Discreet (t : Template (Action H)) : Prop :=
  ∀ run param, .action run param ∈ t.placeholders → Action.Discreet run

def Template.Steady (t : Template (Action H)) : Prop :=
  ∀ run param, .action run param ∈ t.placeholders → Action.Steady run

/-! ## Two worlds -/

/-- searches find the same names below all nodes -/
def Backend.Even (b : Backend) : Prop := ∀ x y name, b.finds x name = b.finds y name

/-- two worlds whose documents have the chart in common, and which are searched in the same way -/
structure World.Related (χ : Chart) (w w' : World H) : Prop where
  document : χ.Relates w.document w'.document
  backend : w'.backend = w.backend
  even : w.backend.Even

/-- the documents of two worlds have gone on, and the chart has followed -/
structure World.Moves (χ χ₁ : Chart) (w w' w₁ w₁' : World H) : Prop where
  document : χ.Advance χ₁ w.document w'.document w₁.document w₁'.document
  backend : w₁.backend = w.backend
  backend' : w₁'.backend = w'.backend

/-- the same, and the channels are what they were -/
structure World.Follows (χ χ₁ : Chart) (w w' w₁ w₁' : World H) : Prop extends World.Moves χ χ₁ w w' w₁ w₁' where
  channels : w₁.channels = w.channels
  channels' : w₁'.channels = w'.channels

section

variable {χ χ₁ χ₂ : Chart} {w w' w₁ w₁' w₂ w₂' : World H}

theorem World.Moves.trans (h : Moves χ χ₁ w w' w₁ w₁') (h' : Moves χ₁ χ₂ w₁ w₁' w₂ w₂') : Moves χ χ₂ w w' w₂ w₂' :=
  ⟨h.document.trans h'.document, h'.backend.trans h.backend, h'.backend'.trans h.backend'⟩

theorem World.Moves.related (h : Moves χ χ₁ w w' w₁ w₁') (hr : Related χ w w') : Related χ₁ w₁ w₁' where
  document := h.document.relates
  backend := by rw [h.backend', h.backend, hr.backend]
  even := h.backend ▸ hr.even

namespace World.Follows

theorem refl (h : Related χ w w') : Follows χ χ w w' w w' := ⟨⟨.refl h.document, rfl, rfl⟩, rfl, rfl⟩

theorem trans (h : Follows χ χ₁ w w' w₁ w₁') (h' : Follows χ₁ χ₂ w₁ w₁' w₂ w₂') : Follows χ χ₂ w w' w₂ w₂' :=
  ⟨h.toMoves.trans h'.toMoves, h'.channels.trans h.channels, h'.channels'.trans h.channels'⟩

theorem related (h : Follows χ χ₁ w w' w₁ w₁') (hr : Related χ w w') : Related χ₁ w₁ w₁' := h.toMoves.related hr

/-- changes of both documents -/
theorem edit {f f' : Document (Listener H.Handler) → Document (Listener H.Handler)}
    (h : χ.Advance χ₁ w.document w'.document (f w.document) (f' w'.document)) :
    Follows χ χ₁ w w' (w.edit f) (w'.edit f') := ⟨⟨h, rfl, rfl⟩, rfl, rfl⟩

/-- changes of what the host adds -/
theorem aside (h : Related χ w w') (hw : w.Aside w₁) (hw' : w'.Aside w₁') : Follows χ χ w w' w₁ w₁' := by
  refine ⟨⟨?_, hw.backend, hw'.backend⟩, hw.channels, hw'.channels⟩
  rw [hw.document, hw'.document]
  exact .refl h.document

/-- names stay the same in what is the same world -/
theorem fixed (h : Follows χ χ₁ w w' w₁ w₁') (hw : w' = w) (hf : χ.Fixed) : χ₁.Fixed :=
  (h.document.fixed (congrArg (·.document.fresh) hw) hf).2

end World.Follows

end

/-! ## Nodes and their counterparts -/

/-- a node of the owner and its name in the other document -/
def Chart.Names (χ : Chart) (x x' : NodeId) : Prop := χ.own x ∧ x' = χ.rename x

section

variable {χ χ₁ : Chart} {m : NodeId}

theorem Chart.Names.mono {x x' : NodeId} (h : χ.Names x x') (he : χ.Extends χ₁ m) (hm : ∀ x, χ.own x → χ.mem x) :
    χ₁.Names x x' := ⟨he.own x h.1, h.2.trans (he.rename x (hm x h.1)).symm⟩

theorem Chart.Names.eq_of_fixed {x x' : NodeId} (h : χ.Names x x') (hm : ∀ x, χ.own x → χ.mem x) (hf : χ.Fixed) :
    x' = x := h.2.trans (hf x (hm x h.1))

theorem Chart.eq_of_fixed {l l' : List NodeId} (h : List.Forall₂ χ.Names l l') (hm : ∀ x, χ.own x → χ.mem x)
    (hf : χ.Fixed) : l' = l := by
  induction h with
  | nil => rfl
  | cons hx _ ih => rw [hx.eq_of_fixed hm hf, ih]

/-- counterparts are told apart as the nodes are -/
theorem Chart.contains_of_names {l l' : List NodeId} (h : List.Forall₂ χ.Names l l')
    (hi : Function.Injective χ.rename) (x : NodeId) : l'.contains (χ.rename x) = l.contains x := by
  induction h with
  | nil => rfl
  | @cons a b l l' hab _ ih =>
    rw [List.contains_cons, List.contains_cons, ih, hab.2]
    congr 1
    rw [Bool.eq_iff_iff, beq_iff_eq, beq_iff_eq]
    exact hi.eq_iff

end

/-- two cells that show a prop in counterparts -/
structure TextCell.Twin (χ : Chart) (a a' : TextCell) : Prop where
  index : a'.index = a.index
  prop : a'.prop = a.prop
  node : χ.Names a.node a'.node

structure AttributeCell.Twin (χ : Chart) (a a' : AttributeCell) : Prop where
  index : a'.index = a.index
  prop : a'.prop = a.prop
  name : a'.name = a.name
  value : a'.value = a.value
  element : Option.Rel χ.Names a.element a'.element

def Cleanup.Twin (χ : Chart) : Cleanup H → Cleanup H → Prop
  | .listener node ticket, .listener node' ticket' => χ.Names node node' ∧ ticket' = ticket
  | .hook node run, .hook node' run' =>
    χ.Names node node' ∧ (∀ w : World H, w.Aside (run w)) ∧ ∀ w : World H, w.Aside (run' w)
  | _, _ => False

structure UpdateHook.Twin (χ : Chart) (a a' : UpdateHook H) : Prop where
  index : a'.index = a.index
  node : χ.Names a.node a'.node
  aside : ∀ value, ∀ w : World H, w.Aside (a.run value w)
  aside' : ∀ value, ∀ w : World H, w.Aside (a'.run value w)

/-- the same phase, with counterparts of the fragment -/
def Phase.Twin (χ : Chart) : Phase → Phase → Prop
  | .created fragment, .created fragment' => χ.Names fragment fragment'
  | .unmounted, .unmounted | .mounted, .mounted | .destroyed, .destroyed => True
  | _, _ => False

theorem Phase.Twin.active {χ : Chart} {p p' : Phase} (h : p.Twin χ p') : p'.Active ↔ p.Active := by
  cases p <;> cases p' <;> first | exact h.elim | exact Iff.rfl

theorem Phase.Twin.destroyed {χ : Chart} {p p' : Phase} (h : p.Twin χ p') : p' = .destroyed ↔ p = .destroyed := by
  cases p <;> cases p' <;> first | exact h.elim | exact iff_of_true rfl rfl | exact iff_of_false nofun nofun

/-- two components with the same values, and with counterparts of nodes -/
structure Core.Twin (χ : Chart) (c c' : Core H) : Prop where
  template : c'.template = c.template
  discreet : c.template.Discreet
  phase : c.phase.Twin χ c'.phase
  props : c'.props = c.props
  slotContext : c'.slotContext = c.slotContext
  roots : List.Forall₂ χ.Names c.roots c'.roots
  textCells : List.Forall₂ (TextCell.Twin χ) c.textCells c'.textCells
  attributeCells : List.Forall₂ (AttributeCell.Twin χ) c.attributeCells c'.attributeCells
  cleanups : List.Forall₂ (Cleanup.Twin χ) c.cleanups c'.cleanups
  updateHooks : List.Forall₂ (UpdateHook.Twin χ) c.updateHooks c'.updateHooks
  channel : c'.channel = c.channel

structure TextBlock.Twin (χ : Chart) (t t' : TextBlock) : Prop where
  prop : t'.prop = t.prop
  data : t'.data = t.data
  node : Option.Rel χ.Names t.node t'.node

mutual
/-- two components built of texts and components in the same way, with the same values, and with counterparts of nodes -/
def Component.Twin (χ : Chart) : Component H → Component H → Prop
  | .mk core slots children, .mk core' slots' children' =>
    core.Twin χ core' ∧ twinAll χ slots slots' ∧ twinAll χ children children'
def twinAll (χ : Chart) : List (Nested H) → List (Nested H) → Prop
  | [], [] => True
  | .mk index atRoot block :: row, .mk index' atRoot' block' :: row' =>
    index' = index ∧ atRoot' = atRoot ∧ block.Twin χ block' ∧ twinAll χ row row'
  | _, _ => False
def Block.Twin (χ : Chart) : Block H → Block H → Prop
  | .text t, .text t' => t.Twin χ t'
  | .component c, .component c' => c.Twin χ c'
  | _, _ => False
end

/-! ## Twins in a chart that has followed -/

section

variable {χ χ₁ : Chart} {m : NodeId} (he : χ.Extends χ₁ m) (hm : ∀ x, χ.own x → χ.mem x)
include he hm

theorem Chart.rel_mono {o o' : Option NodeId} (h : Option.Rel χ.Names o o') : Option.Rel χ₁.Names o o' := by
  cases h with
  | none => exact .none
  | some hx => exact .some (hx.mono he hm)

theorem Chart.names_mono {l l' : List NodeId} (h : List.Forall₂ χ.Names l l') : List.Forall₂ χ₁.Names l l' :=
  h.imp fun _ _ hx => hx.mono he hm

theorem Core.Twin.mono {c c' : Core H} (h : c.Twin χ c') : c.Twin χ₁ c' where
  template := h.template
  discreet := h.discreet
  phase := by
    have hp := h.phase
    generalize c.phase = p, c'.phase = p' at hp
    cases p <;> cases p' <;> try exact hp
    exact Chart.Names.mono hp he hm
  props := h.props
  slotContext := h.slotContext
  roots := Chart.names_mono he hm h.roots
  textCells := h.textCells.imp fun _ _ ha => ⟨ha.index, ha.prop, ha.node.mono he hm⟩
  attributeCells := h.attributeCells.imp fun _ _ ha =>
    ⟨ha.index, ha.prop, ha.name, ha.value, Chart.rel_mono he hm ha.element⟩
  cleanups := h.cleanups.imp fun a a' ha => by
    cases a <;> cases a' <;> first | exact ha | exact ha.elim | exact ha.imp_left (·.mono he hm)
  updateHooks := h.updateHooks.imp fun _ _ ha => ⟨ha.index, ha.node.mono he hm, ha.aside, ha.aside'⟩
  channel := h.channel

theorem TextBlock.Twin.mono {t t' : TextBlock} (h : t.Twin χ t') : t.Twin χ₁ t' :=
  ⟨h.prop, h.data, Chart.rel_mono he hm h.node⟩

end

section

variable {χ χ₁ : Chart} {m : NodeId}

mutual
theorem Component.Twin.mono (he : χ.Extends χ₁ m) (hm : ∀ x, χ.own x → χ.mem x) :
    (c c' : Component H) → c.Twin χ c' → c.Twin χ₁ c'
  | .mk _ slots children, .mk _ slots' children', h =>
    ⟨h.1.mono he hm, twinAll.mono he hm slots slots' h.2.1, twinAll.mono he hm children children' h.2.2⟩
theorem twinAll.mono (he : χ.Extends χ₁ m) (hm : ∀ x, χ.own x → χ.mem x) :
    (row row' : List (Nested H)) → twinAll χ row row' → twinAll χ₁ row row'
  | [], [], _ => trivial
  | .mk _ _ block :: row, .mk _ _ block' :: row', h =>
    ⟨h.1, h.2.1, Block.Twin.mono he hm block block' h.2.2.1, twinAll.mono he hm row row' h.2.2.2⟩
theorem Block.Twin.mono (he : χ.Extends χ₁ m) (hm : ∀ x, χ.own x → χ.mem x) :
    (b b' : Block H) → b.Twin χ b' → b.Twin χ₁ b'
  | .text _, .text _, h => TextBlock.Twin.mono he hm h
  | .component c, .component c', h => Component.Twin.mono he hm c c' h
end

end

/-- two calls have come to the same: the chart has followed, and `R` holds of what they have left -/
def Outcome.Along {α : Type} (χ : Chart) (R : Chart → α → α → Prop) (w w' : World H) (o o' : Outcome H α) : Prop :=
  ∃ χ₁, World.Follows χ χ₁ w w' o.world o'.world ∧ R χ₁ o.self o'.self ∧ o'.result = o.result

/-! ## Creating -/

section

variable {χ : Chart} {w w' : World H}

/-- new texts are counterparts -/
theorem World.Related.addText (hr : World.Related χ w w') (data : String) : ∃ χ₁,
    World.Follows χ χ₁ w w' (w.addText data).1 (w'.addText data).1 ∧
      χ₁.Names (w.addText data).2 (w'.addText data).2 := by
  obtain ⟨χ₁, hadd, hown, hname⟩ := hr.document.add (.text data)
  exact ⟨χ₁, ⟨⟨hadd, rfl, rfl⟩, rfl, rfl⟩, hown, hname.symm⟩

theorem TextBlock.Twin.create {t t' : TextBlock} (h : t.Twin χ t') (hr : World.Related χ w w') : ∃ χ₁,
    World.Follows χ χ₁ w w' (t.create w).2 (t'.create w').2 ∧ (t.create w).1.Twin χ₁ (t'.create w').1 := by
  obtain ⟨prop, data, node⟩ := t
  obtain ⟨prop', data', node'⟩ := t'
  obtain ⟨rfl, rfl, hn⟩ := h
  cases hn with
  | some hx => exact ⟨χ, .refl hr, rfl, rfl, .some hx⟩
  | none =>
    obtain ⟨χ₁, hf, hname⟩ := hr.addText data'
    exact ⟨χ₁, hf, rfl, rfl, .some hname⟩

theorem textCellsFor_twin {T : Type} (props : Props) (index : Nat) (ps : List (Placeholder (Action H) T))
    (hr : World.Related χ w w') : ∃ χ₁,
      World.Follows χ χ₁ w w' (textCellsFor props index ps w).2 (textCellsFor props index ps w').2 ∧
        List.Forall₂ (TextCell.Twin χ₁) (textCellsFor props index ps w).1 (textCellsFor props index ps w').1 := by
  induction ps generalizing index w w' χ with
  | nil => exact ⟨χ, .refl hr, .nil⟩
  | cons p ps ih =>
    cases p with
    | text prop =>
      obtain ⟨χ₁, hf, hname⟩ := hr.addText (props.text prop)
      obtain ⟨χ₂, hf', hcells⟩ := ih (index + 1) (hf.related hr)
      exact ⟨χ₂, hf.trans hf', .cons ⟨rfl, rfl, hname.mono hf'.document.extend hf.document.relates.own_mem⟩ hcells⟩
    | _ => exact ih (index + 1) hr

theorem attributeCellsFor_twin {T : Type} (χ : Chart) (props : Props) (index : Nat)
    (ps : List (Placeholder (Action H) T)) : List.Forall₂ (AttributeCell.Twin χ) (attributeCellsFor props index ps)
      (attributeCellsFor props index ps) := by
  induction ps generalizing index with
  | nil => exact .nil
  | cons p ps ih =>
    cases p with
    | «attribute» prop name => exact .cons ⟨rfl, rfl, rfl, rfl, .none⟩ (ih (index + 1))
    | _ => exact ih (index + 1)

theorem Core.Twin.prepare {c c' : Core H} (h : c.Twin χ c') (hr : World.Related χ w w') : ∃ χ₁,
    World.Follows χ χ₁ w w' (c.prepare w).2.2 (c'.prepare w').2.2 ∧ (c.prepare w).1.Twin χ₁ (c'.prepare w').1 ∧
      χ₁.Names (c.prepare w).2.1 (c'.prepare w').2.1 := by
  obtain ⟨χ₁, hadd, hown, hname⟩ := hr.document.addFragment c.template.skeleton
  have hf : World.Follows χ χ₁ w w' (w.addFragment c.template.skeleton).1 (w'.addFragment c.template.skeleton).1 :=
    ⟨⟨hadd, rfl, rfl⟩, rfl, rfl⟩
  obtain ⟨χ₂, hf', hcells⟩ := textCellsFor_twin c.props 0 c.template.placeholders (hf.related hr)
  have hall := hf.trans hf'
  have h' := h.mono hall.document.extend hr.document.own_mem
  have hnames : χ₁.Names w.document.fresh w'.document.fresh := ⟨hown, hname.symm⟩
  unfold Core.prepare
  rw [h.template, h.props]
  refine ⟨χ₂, hall, ?_, hnames.mono hf'.document.extend hf.document.relates.own_mem⟩
  exact { h' with
    template := rfl
    props := rfl
    textCells := hcells
    attributeCells := attributeCellsFor_twin χ₂ _ _ _ }

variable [ForeignBlocks H]

mutual
/-- **Creating.** -/
theorem Component.Twin.create : (c c' : Component H) → (χ : Chart) → (w w' : World H) → c.Twin χ c' →
    World.Related χ w w' → (c.create w).Along χ Component.Twin w w' (c'.create w')
  | .mk core slots children, .mk core' slots' children', χ, w, w', h, hr => by
    obtain ⟨hcore, hslots, hchildren⟩ := h
    have hphase := hcore.phase
    by_cases ha : core.phase.Active
    · rw [Component.create, Component.create]
      generalize core.phase = p, core'.phase = p' at ha hphase
      cases p <;> cases p' <;> first | exact ha.elim | exact hphase.elim | skip
      all_goals exact ⟨χ, .refl hr, ⟨hcore, hslots, hchildren⟩, rfl⟩
    · rw [Component.create_eq ha, Component.create_eq fun ha' => ha (hphase.active.1 ha')]
      obtain ⟨χ₁, hf, hcore₁, hname⟩ := hcore.prepare hr
      have hm := hr.document.own_mem
      obtain ⟨χ₂, hf', hkids, hres⟩ := createAll_twin children children' χ₁ _ _
        (twinAll.mono hf.document.extend hm _ _ hchildren) (hf.related hr)
      have hfirst := hf.trans hf'
      have hm₁ := hf.document.relates.own_mem
      have hcore₂ := hcore₁.mono hf'.document.extend hm₁
      have hslots₂ := twinAll.mono hfirst.document.extend hm _ _ hslots
      dsimp only
      rw [hres]
      cases (createAll children (core.prepare w).2.2).result with
      | error fault => exact ⟨χ₂, hfirst, ⟨hcore₂, hslots₂, hkids⟩, rfl⟩
      | ok _ =>
        obtain ⟨χ₃, hf'', hcontents, hres'⟩ := createAll_twin slots slots' χ₂ _ _ hslots₂ (hfirst.related hr)
        have hm₂ := hf'.document.relates.own_mem
        have hcore₃ := hcore₂.mono hf''.document.extend hm₂
        have hkids₃ := twinAll.mono hf''.document.extend hm₂ _ _ hkids
        dsimp only
        rw [hres']
        cases (createAll slots (createAll children (core.prepare w).2.2).world).result with
        | error fault => exact ⟨χ₃, hfirst.trans hf'', ⟨hcore₃, hcontents, hkids₃⟩, rfl⟩
        | ok _ =>
          refine ⟨χ₃, hfirst.trans hf'', ⟨?_, hcontents, hkids₃⟩, rfl⟩
          exact { hcore₃ with phase := hname.mono (hf'.trans hf'').document.extend hm₁ }
theorem createAll_twin : (row row' : List (Nested H)) → (χ : Chart) → (w w' : World H) → twinAll χ row row' →
    World.Related χ w w' → (createAll row w).Along χ twinAll w w' (createAll row' w')
  | [], [], χ, w, w', _, hr => ⟨χ, .refl hr, trivial, rfl⟩
  | .mk index atRoot block :: row, .mk index' atRoot' block' :: row', χ, w, w', h, hr => by
    obtain ⟨rfl, rfl, hblock, hrow⟩ := h
    obtain ⟨χ₁, hf, hb, hres⟩ := Block.Twin.create block block' χ w w' hblock hr
    rw [createAll, createAll, hres]
    cases (block.create w).result with
    | error fault =>
      exact ⟨χ₁, hf, ⟨rfl, rfl, hb, twinAll.mono hf.document.extend hr.document.own_mem row row' hrow⟩, rfl⟩
    | ok _ =>
      obtain ⟨χ₂, hf', hr', hres'⟩ := createAll_twin row row' χ₁ _ _
        (twinAll.mono hf.document.extend hr.document.own_mem row row' hrow) (hf.related hr)
      exact ⟨χ₂, hf.trans hf', ⟨rfl, rfl, Block.Twin.mono hf'.document.extend hf.document.relates.own_mem _ _ hb, hr'⟩, hres'⟩
theorem Block.Twin.create : (b b' : Block H) → (χ : Chart) → (w w' : World H) → b.Twin χ b' →
    World.Related χ w w' → (b.create w).Along χ Block.Twin w w' (b'.create w')
  | .text t, .text t', χ, w, w', h, hr => by
    obtain ⟨χ₁, hf, ht⟩ := TextBlock.Twin.create h hr
    exact ⟨χ₁, hf, ht, rfl⟩
  | .component c, .component c', χ, w, w', h, hr => by
    obtain ⟨χ₁, hf, hc, hres⟩ := Component.Twin.create c c' χ w w' h hr
    exact ⟨χ₁, hf, hc, hres⟩
end

/-! ## Destroying -/

omit [ForeignBlocks H] in
theorem World.Related.write (hr : World.Related χ w w') {x x' : NodeId} (hx : χ.Names x x')
    (writing : Writing (Listener H.Handler)) :
    World.Follows χ χ w w' (w.edit (writing.perform x)) (w'.edit (writing.perform x')) := by
  obtain ⟨hown, rfl⟩ := hx
  exact .edit (hr.document.perform hown writing)

omit [ForeignBlocks H] in
theorem World.Related.detach (hr : World.Related χ w w') {x x' : NodeId} (hx : χ.Names x x') :
    World.Follows χ χ w w' (w.edit (·.detach x)) (w'.edit (·.detach x')) := by
  obtain ⟨hown, rfl⟩ := hx
  exact .edit (hr.document.detach hown)

omit [ForeignBlocks H] in
theorem TextBlock.Twin.destroy {t t' : TextBlock} (h : t.Twin χ t') (detaching : Bool) (hr : World.Related χ w w') :
    World.Follows χ χ w w' (t.destroy detaching w).2 (t'.destroy detaching w').2 ∧
      (t.destroy detaching w).1.Twin χ (t'.destroy detaching w').1 := by
  refine ⟨?_, h.prop, h.data, .none⟩
  obtain ⟨prop, data, node⟩ := t
  obtain ⟨prop', data', node'⟩ := t'
  cases h.node with
  | none => exact .refl hr
  | some hx =>
    cases detaching with
    | true => exact hr.detach hx
    | false => exact .refl hr

namespace Core.Twin

variable {c c' : Core H}

omit [ForeignBlocks H] in
theorem detachRoots (h : c.Twin χ c') (hr : World.Related χ w w') :
    World.Follows χ χ w w' (c.detachRoots w) (c'.detachRoots w') := by
  have hroots := h.roots
  unfold Core.detachRoots
  generalize c.roots = roots, c'.roots = roots' at hroots
  induction hroots generalizing w w' with
  | nil => exact .refl hr
  | cons hx _ ih =>
    have hstep := hr.detach hx
    exact hstep.trans (ih (hstep.related hr))

omit [ForeignBlocks H] in
theorem cleanUp (h : c.Twin χ c') (hr : World.Related χ w w') :
    World.Follows χ χ w w' (c.cleanUp w) (c'.cleanUp w') := by
  have hcleanups := h.cleanups
  unfold Core.cleanUp
  generalize c.cleanups = cleanups, c'.cleanups = cleanups' at hcleanups
  induction hcleanups generalizing w w' with
  | nil => exact .refl hr
  | @cons a a' _ _ ha _ ih =>
    have hstep : World.Follows χ χ w w' (a.run w) (a'.run w') := by
      cases a with
      | listener node ticket =>
        cases a' with
        | listener node' ticket' =>
          obtain ⟨hx, rfl⟩ := ha
          exact hr.write hx (.unlisten ticket')
        | hook => exact ha.elim
      | hook node run =>
        cases a' with
        | listener => exact ha.elim
        | hook node' run' => exact .aside hr (ha.2.1 w) (ha.2.2 w')
    exact hstep.trans (ih (hstep.related hr))

omit [ForeignBlocks H] in
theorem cleared (h : c.Twin χ c') : c.cleared.Twin χ c'.cleared where
  template := h.template
  discreet := h.discreet
  phase := trivial
  props := h.props
  slotContext := h.slotContext
  roots := .nil
  textCells := .nil
  attributeCells := .nil
  cleanups := .nil
  updateHooks := .nil
  channel := h.channel

end Core.Twin

mutual
/-- **Destroying.** -/
theorem Component.Twin.destroy : (c c' : Component H) → (detaching : Bool) → (χ : Chart) → (w w' : World H) →
    c.Twin χ c' → World.Related χ w w' →
      (c.destroy detaching w).Along χ Component.Twin w w' (c'.destroy detaching w')
  | .mk core slots children, .mk core' slots' children', detaching, χ, w, w', h, hr => by
    obtain ⟨hcore, hslots, hchildren⟩ := h
    have hundo : ∀ gone : Bool, World.Follows χ χ w w' (core.cleanUp (if gone then core.detachRoots w else w))
        (core'.cleanUp (if gone then core'.detachRoots w' else w')) := by
      intro gone
      cases gone with
      | true =>
        have hstep := hcore.detachRoots hr
        exact hstep.trans (hcore.cleanUp (hstep.related hr))
      | false => exact hcore.cleanUp hr
    have hall : ∀ gone : Bool, Outcome.Along χ Component.Twin w w'
        (let contents := destroyAll detaching slots (core.cleanUp (if gone then core.detachRoots w else w))
          let kids := destroyAll detaching children contents.world
          ⟨.mk core.cleared contents.self kids.self, kids.world, firstFault contents.result kids.result⟩)
        (let contents := destroyAll detaching slots' (core'.cleanUp (if gone then core'.detachRoots w' else w'))
          let kids := destroyAll detaching children' contents.world
          ⟨.mk core'.cleared contents.self kids.self, kids.world, firstFault contents.result kids.result⟩) := by
      intro gone
      have hf := hundo gone
      have hm := hr.document.own_mem
      obtain ⟨χ₁, hf₁, hcontents, hres⟩ := destroyAll_twin slots slots' detaching χ _ _ hslots (hf.related hr)
      have hfirst := hf.trans hf₁
      obtain ⟨χ₂, hf₂, hkids, hres'⟩ := destroyAll_twin children children' detaching χ₁ _ _
        (twinAll.mono hfirst.document.extend hm _ _ hchildren) (hfirst.related hr)
      have hsecond := hfirst.trans hf₂
      refine ⟨χ₂, hsecond, ⟨hcore.cleared.mono hsecond.document.extend hm, ?_, hkids⟩, ?_⟩
      · exact twinAll.mono hf₂.document.extend hf₁.document.relates.own_mem _ _ hcontents
      · exact congrArg₂ firstFault hres hres'
    have hphase := hcore.phase
    rw [Component.destroy, Component.destroy]
    generalize core.phase = p, core'.phase = p' at hphase
    cases p with
    | unmounted =>
      cases p' with
      | unmounted => exact ⟨χ, .refl hr, ⟨hcore, hslots, hchildren⟩, rfl⟩
      | _ => exact hphase.elim
    | destroyed =>
      cases p' with
      | destroyed => exact ⟨χ, .refl hr, ⟨hcore, hslots, hchildren⟩, rfl⟩
      | _ => exact hphase.elim
    | created fragment =>
      cases p' with
      | created fragment' =>
        have := hall false
        simpa using this
      | _ => exact hphase.elim
    | mounted =>
      cases p' with
      | mounted =>
        have := hall detaching
        simpa using this
      | _ => exact hphase.elim
theorem destroyAll_twin : (row row' : List (Nested H)) → (detaching : Bool) → (χ : Chart) → (w w' : World H) →
    twinAll χ row row' → World.Related χ w w' →
      (destroyAll detaching row w).Along χ twinAll w w' (destroyAll detaching row' w')
  | [], [], _, χ, w, w', _, hr => ⟨χ, .refl hr, trivial, rfl⟩
  | .mk index atRoot block :: row, .mk index' atRoot' block' :: row', detaching, χ, w, w', h, hr => by
    obtain ⟨rfl, rfl, hblock, hrow⟩ := h
    obtain ⟨χ₁, hf, hb, hres⟩ := Block.Twin.destroy block block' (detaching && atRoot') χ w w' hblock hr
    obtain ⟨χ₂, hf', hr', hres'⟩ := destroyAll_twin row row' detaching χ₁ _ _
      (twinAll.mono hf.document.extend hr.document.own_mem row row' hrow) (hf.related hr)
    refine ⟨χ₂, hf.trans hf', ⟨rfl, rfl, ?_, hr'⟩, congrArg₂ firstFault hres hres'⟩
    exact Block.Twin.mono hf'.document.extend hf.document.relates.own_mem _ _ hb
theorem Block.Twin.destroy : (b b' : Block H) → (detaching : Bool) → (χ : Chart) → (w w' : World H) →
    b.Twin χ b' → World.Related χ w w' →
      (b.destroy detaching w).Along χ Block.Twin w w' (b'.destroy detaching w')
  | .text t, .text t', detaching, χ, w, w', h, hr => by
    obtain ⟨hf, ht⟩ := TextBlock.Twin.destroy h detaching hr
    exact ⟨χ, hf, ht, rfl⟩
  | .component c, .component c', detaching, χ, w, w', h, hr => by
    obtain ⟨χ₁, hf, hc, hres⟩ := Component.Twin.destroy c c' detaching χ w w' h hr
    exact ⟨χ₁, hf, hc, hres⟩
end

/-! ## Dropping -/

mutual
/-- the channels of a component and of all that are nested in it -/
def Component.channels : Component H → List Nat
  | .mk core slots children => core.channel :: (channelsOf slots ++ channelsOf children)
def channelsOf : List (Nested H) → List Nat
  | [] => []
  | .mk _ _ block :: row => block.channels ++ channelsOf row
def Block.channels : Block H → List Nat
  | .text _ => []
  | .foreign _ => []
  | .component c => c.channels
end

omit [ForeignBlocks H] in
/-- a change of one channel leaves the others alone -/
theorem World.channel?_updateChannel (w : World H) {id k : Nat} (f : Channel H.Handler → Channel H.Handler)
    (hk : k ≠ id) : (w.updateChannel id f).channel? k = w.channel? k := by
  unfold World.channel? World.updateChannel
  exact List.getElem?_modify_ne _ _ (Ne.symm hk)

omit [ForeignBlocks H] in
theorem World.Related.channels (hr : World.Related χ w w') (channels channels' : List (Channel H.Handler)) :
    World.Moves χ χ w w' { w with channels } { w' with channels := channels' } := ⟨.refl hr.document, rfl, rfl⟩

omit [ForeignBlocks H] in
mutual
/-- **Dropping** closes channels. -/
theorem Component.Twin.drop : (c c' : Component H) → (w w' : World H) → c.Twin χ c' → World.Related χ w w' →
    World.Moves χ χ w w' (c.drop w) (c'.drop w') ∧ ∀ k ∉ c.channels, (c.drop w).channel? k = w.channel? k
  | .mk core slots children, .mk core' slots' children', w, w', h, hr => by
    obtain ⟨hcore, hslots, hchildren⟩ := h
    have hundo := hcore.cleanUp hr
    have hclose := (hundo.related hr).channels ((core.cleanUp w).channels.modify core.channel .close)
      ((core'.cleanUp w').channels.modify core'.channel .close)
    have hfirst := hundo.toMoves.trans hclose
    obtain ⟨hcontents, hk⟩ := dropAll_twin slots slots' _ _ hslots (hfirst.related hr)
    obtain ⟨hkids, hk'⟩ := dropAll_twin children children' _ _ hchildren ((hfirst.trans hcontents).related hr)
    refine ⟨(hfirst.trans hcontents).trans hkids, fun k hnot => ?_⟩
    rw [Component.channels, List.mem_cons, List.mem_append, not_or, not_or] at hnot
    refine (hk' k hnot.2.2).trans ((hk k hnot.2.1).trans ?_)
    refine (World.channel?_updateChannel _ _ hnot.1).trans ?_
    unfold World.channel?
    rw [hundo.channels]
theorem dropAll_twin : (row row' : List (Nested H)) → (w w' : World H) → twinAll χ row row' → World.Related χ w w' →
    World.Moves χ χ w w' (dropAll row w) (dropAll row' w') ∧
      ∀ k ∉ channelsOf row, (dropAll row w).channel? k = w.channel? k
  | [], [], w, w', _, hr => ⟨(World.Follows.refl hr).toMoves, fun _ _ => rfl⟩
  | .mk index atRoot block :: row, .mk index' atRoot' block' :: row', w, w', h, hr => by
    obtain ⟨-, -, hblock, hrow⟩ := h
    obtain ⟨hfirst, hk⟩ := Block.Twin.drop block block' w w' hblock hr
    obtain ⟨hrest, hk'⟩ := dropAll_twin row row' _ _ hrow (hfirst.related hr)
    refine ⟨hfirst.trans hrest, fun k hnot => ?_⟩
    rw [channelsOf, List.mem_append, not_or] at hnot
    exact (hk' k hnot.2).trans (hk k hnot.1)
theorem Block.Twin.drop : (b b' : Block H) → (w w' : World H) → b.Twin χ b' → World.Related χ w w' →
    World.Moves χ χ w w' (b.drop w) (b'.drop w') ∧ ∀ k ∉ b.channels, (b.drop w).channel? k = w.channel? k
  | .text _, .text _, _, _, _, hr => ⟨(World.Follows.refl hr).toMoves, fun _ _ => rfl⟩
  | .component c, .component c', w, w', h, hr => Component.Twin.drop c c' w w' h hr
end

/-! ## Updating -/

section

variable {prop text : String}

omit [ForeignBlocks H]

theorem showTexts_twin {cells cells' : List TextCell} (h : List.Forall₂ (TextCell.Twin χ) cells cells')
    (prop text : String) (hr : World.Related χ w w') :
    World.Follows χ χ w w' (showTexts cells prop text w) (showTexts cells' prop text w') := by
  have hshown : List.Forall₂ (TextCell.Twin χ) (cells.filter (·.prop == prop)) (cells'.filter (·.prop == prop)) := by
    induction h with
    | nil => exact .nil
    | cons ha _ ih =>
      rw [List.filter_cons, List.filter_cons, ha.prop]
      split
      · exact .cons ha ih
      · exact ih
  unfold showTexts
  generalize cells.filter (·.prop == prop) = shown, cells'.filter (·.prop == prop) = shown' at hshown
  induction hshown generalizing w w' with
  | nil => exact .refl hr
  | cons ha _ ih =>
    have hstep := hr.write ha.node (.setData text)
    exact hstep.trans (ih (hstep.related hr))

theorem showAttributes_twin {cells cells' : List AttributeCell}
    (h : List.Forall₂ (AttributeCell.Twin χ) cells cells') (prop text : String) (hr : World.Related χ w w') :
    World.Follows χ χ w w' (showAttributes prop text cells w).2 (showAttributes prop text cells' w').2 ∧
      List.Forall₂ (AttributeCell.Twin χ) (showAttributes prop text cells w).1
        (showAttributes prop text cells' w').1 := by
  induction h generalizing w w' with
  | nil => exact ⟨.refl hr, .nil⟩
  | @cons a a' _ _ ha _ ih =>
    by_cases hp : a.prop = prop
    · have hstep : World.Follows χ χ w w' (w.writeCell a text) (w'.writeCell a' text) := by
        have helement := ha.element
        rw [World.writeCell, World.writeCell, ha.name]
        generalize a.element = e, a'.element = e' at helement
        cases helement with
        | none => exact .refl hr
        | some hx => exact hr.write hx (.setAttribute a.name text)
      obtain ⟨hf, hcells⟩ := ih (hstep.related hr)
      rw [showAttributes_of_prop hp, showAttributes_of_prop (ha.prop.trans hp)]
      exact ⟨hstep.trans hf, .cons ⟨ha.index, ha.prop, ha.name, rfl, ha.element⟩ hcells⟩
    · rw [showAttributes_of_other hp, showAttributes_of_other fun h => hp (ha.prop.symm.trans h)]
      obtain ⟨hf, hcells⟩ := ih hr
      exact ⟨hf, .cons ha hcells⟩

namespace Core.Twin

variable {c c' : Core H}

theorem runHooks {hooks hooks' : List (UpdateHook H)} (h : List.Forall₂ (UpdateHook.Twin χ) hooks hooks')
    (hc : c.Twin χ c') (prop : String) (value : Value) (hr : World.Related χ w w') :
    World.Follows χ χ w w' ((hooks.filter (c.hears prop)).foldl (fun w hook => hook.run value w) w)
      ((hooks'.filter (c'.hears prop)).foldl (fun w hook => hook.run value w) w') := by
  induction h generalizing w w' with
  | nil => exact .refl hr
  | @cons a a' _ _ ha _ ih =>
    have hhears : c'.hears prop a' = c.hears prop a := by rw [Core.hears, Core.hears, hc.template, ha.index]
    rw [List.filter_cons, List.filter_cons, hhears]
    split
    · have hstep : World.Follows χ χ w w' (a.run value w) (a'.run value w') :=
        .aside hr (ha.aside value w) (ha.aside' value w')
      exact hstep.trans (ih (hstep.related hr))
    · exact ih hr

theorem applyEntry (h : c.Twin χ c') (prop : String) (value : Value) (hr : World.Related χ w w') :
    World.Follows χ χ w w' (c.applyEntry w prop value).2 (c'.applyEntry w' prop value).2 ∧
      (c.applyEntry w prop value).1.Twin χ (c'.applyEntry w' prop value).1 := by
  have htexts := showTexts_twin h.textCells prop value.toText hr
  obtain ⟨hattributes, hcells⟩ := showAttributes_twin h.attributeCells prop value.toText (htexts.related hr)
  have hboth := htexts.trans hattributes
  have hhooks := runHooks h.updateHooks h prop value (hboth.related hr)
  refine ⟨hboth.trans hhooks, ?_⟩
  exact { h with props := congrArg (·.insert prop value) h.props, attributeCells := hcells }

theorem applyEntries (h : c.Twin χ c') (changed : Props) (hr : World.Related χ w w') :
    World.Follows χ χ w w' (c.applyEntries w changed).2 (c'.applyEntries w' changed).2 ∧
      (c.applyEntries w changed).1.Twin χ (c'.applyEntries w' changed).1 := by
  unfold Core.applyEntries
  generalize changed.entries = es
  induction es generalizing c c' w w' with
  | nil => exact ⟨.refl hr, h⟩
  | cons e es ih =>
    obtain ⟨hf, hc⟩ := h.applyEntry e.1 e.2 hr
    obtain ⟨hf', hc'⟩ := ih hc (hf.related hr)
    exact ⟨hf.trans hf', hc'⟩

end Core.Twin

theorem TextBlock.Twin.update {t t' : TextBlock} (h : t.Twin χ t') (changed : Props) (hr : World.Related χ w w') :
    World.Follows χ χ w w' (t.update changed w).2 (t'.update changed w').2 ∧
      (t.update changed w).1.Twin χ (t'.update changed w').1 := by
  obtain ⟨prop, data, node⟩ := t
  obtain ⟨prop', data', node'⟩ := t'
  obtain ⟨rfl, rfl, hn⟩ := h
  unfold TextBlock.update
  dsimp only
  cases prop'.bind changed.get? with
  | none => exact ⟨.refl hr, rfl, rfl, hn⟩
  | some value =>
    refine ⟨?_, rfl, rfl, hn⟩
    cases hn with
    | none => exact .refl hr
    | some hx => exact hr.write hx (.setData value.toText)

end

mutual
/-- **Updating.** -/
theorem Component.Twin.update : (c c' : Component H) → (changed : Props) → (χ : Chart) → (w w' : World H) →
    c.Twin χ c' → World.Related χ w w' →
      (c.update changed w).Along χ Component.Twin w w' (c'.update changed w')
  | .mk core slots children, .mk core' slots' children', changed, χ, w, w', h, hr => by
    obtain ⟨hcore, hslots, hchildren⟩ := h
    have hdestroyed := hcore.phase.destroyed
    rw [Component.update_mk, Component.update_mk, hcore.template]
    by_cases hd : core.phase = .destroyed
    · rw [if_pos hd, if_pos (hdestroyed.2 hd)]
      exact ⟨χ, .refl hr, ⟨hcore, hslots, hchildren⟩, rfl⟩
    · rw [if_neg hd, if_neg fun hd' => hd (hdestroyed.1 hd')]
      obtain ⟨hf, hown⟩ := hcore.applyEntries changed hr
      obtain ⟨χ₁, hf', hkids, hres⟩ := updateRow_twin children children'
        (forwardedTo core.template.placeholders changed) χ _ _ hchildren (hf.related hr)
      have hm := hr.document.own_mem
      have he := hf'.document.extend
      exact ⟨χ₁, hf.trans hf', ⟨hown.mono he hm, twinAll.mono he hm _ _ hslots, hkids⟩, hres⟩
theorem updateRow_twin : (row row' : List (Nested H)) → (deliver : Nat → Option Props) → (χ : Chart) →
    (w w' : World H) → twinAll χ row row' → World.Related χ w w' →
      (updateRow deliver row w).Along χ twinAll w w' (updateRow deliver row' w')
  | [], [], _, χ, w, w', _, hr => ⟨χ, .refl hr, trivial, rfl⟩
  | .mk index atRoot block :: row, .mk index' atRoot' block' :: row', deliver, χ, w, w', h, hr => by
    obtain ⟨rfl, rfl, hblock, hrow⟩ := h
    rw [updateRow_cons, updateRow_cons]
    cases deliver index' with
    | none =>
      obtain ⟨χ₁, hf, hr', hres⟩ := updateRow_twin row row' deliver χ w w' hrow hr
      exact ⟨χ₁, hf, ⟨rfl, rfl, Block.Twin.mono hf.document.extend hr.document.own_mem _ _ hblock, hr'⟩, hres⟩
    | some changed =>
      obtain ⟨χ₁, hf, hb, hres⟩ := Block.Twin.update block block' changed χ w w' hblock hr
      dsimp only
      rw [hres]
      cases (block.update changed w).result with
      | error fault =>
        exact ⟨χ₁, hf, ⟨rfl, rfl, hb, twinAll.mono hf.document.extend hr.document.own_mem row row' hrow⟩, rfl⟩
      | ok _ =>
        obtain ⟨χ₂, hf', hr', hres'⟩ := updateRow_twin row row' deliver χ₁ _ _
          (twinAll.mono hf.document.extend hr.document.own_mem row row' hrow) (hf.related hr)
        refine ⟨χ₂, hf.trans hf', ⟨rfl, rfl, ?_, hr'⟩, hres'⟩
        exact Block.Twin.mono hf'.document.extend hf.document.relates.own_mem _ _ hb
theorem Block.Twin.update : (b b' : Block H) → (changed : Props) → (χ : Chart) → (w w' : World H) →
    b.Twin χ b' → World.Related χ w w' →
      (b.update changed w).Along χ Block.Twin w w' (b'.update changed w')
  | .text t, .text t', changed, χ, w, w', h, hr => by
    obtain ⟨hf, ht⟩ := TextBlock.Twin.update h changed hr
    exact ⟨χ, hf, ht, rfl⟩
  | .component c, .component c', changed, χ, w, w', h, hr => by
    obtain ⟨χ₁, hf, hc, hres⟩ := Component.Twin.update c c' changed χ w w' h hr
    exact ⟨χ₁, hf, hc, hres⟩
end

/-- new entries of the slot context -/
theorem Component.Twin.updateSlots {c c' : Component H} (h : c.Twin χ c') (context : Option Props)
    (hr : World.Related χ w w') :
    (c.updateSlots context w).Along χ Component.Twin w w' (c'.updateSlots context w') := by
  obtain ⟨core, slots, children⟩ := c
  obtain ⟨core', slots', children'⟩ := c'
  obtain ⟨hcore, hslots, hchildren⟩ := h
  have hsame : Outcome.Along χ Component.Twin w w' (.ok (.mk core slots children) w)
      (.ok (.mk core' slots' children') w') := ⟨χ, .refl hr, ⟨hcore, hslots, hchildren⟩, rfl⟩
  cases context with
  | none => exact hsame
  | some incoming =>
    rw [Component.updateSlots_mk, Component.updateSlots_mk]
    dsimp only
    rw [hcore.slotContext]
    split
    · exact hsame
    · obtain ⟨χ₁, hf, hcontents, hres⟩ := updateRow_twin slots slots'
        (fun _ => some (core.slotContext.changes incoming)) χ w w' hslots hr
      have he := hf.document.extend
      have hm := hr.document.own_mem
      have hcore₁ := hcore.mono he hm
      exact ⟨χ₁, hf, ⟨{ hcore₁ with slotContext := rfl }, hcontents, twinAll.mono he hm _ _ hchildren⟩, hres⟩

/-- **One pass.** -/
theorem Component.Twin.tick {c c' : Component H} (h : c.Twin χ c') (incoming : Props) (context : Option Props)
    (hr : World.Related χ w w') :
    (c.tick incoming context w).Along χ Component.Twin w w' (c'.tick incoming context w') := by
  obtain ⟨core, slots, children⟩ := c
  obtain ⟨core', slots', children'⟩ := c'
  obtain ⟨hcore, hslots, hchildren⟩ := h
  have hdestroyed := hcore.phase.destroyed
  rw [Component.tick_mk, Component.tick_mk]
  dsimp only
  rw [hcore.template, hcore.props]
  by_cases hd : core.phase = .destroyed
  · rw [if_pos hd, if_pos (hdestroyed.2 hd)]
    exact ⟨χ, .refl hr, ⟨hcore, hslots, hchildren⟩, rfl⟩
  · rw [if_neg hd, if_neg fun hd' => hd (hdestroyed.1 hd')]
    obtain ⟨hf, hown⟩ := hcore.applyEntries (core.props.changes incoming) hr
    have hpassed : (Component.mk (core.applyEntries w (core.props.changes incoming)).1 slots children).Twin χ
        (Component.mk (core'.applyEntries w' (core.props.changes incoming)).1 slots' children') :=
      ⟨hown, hslots, hchildren⟩
    obtain ⟨χ₁, hf', hnow, hres⟩ := hpassed.updateSlots context (hf.related hr)
    have hfirst := hf.trans hf'
    rw [hres]
    generalize (Component.mk (core.applyEntries w (core.props.changes incoming)).1 slots children).updateSlots context
      (core.applyEntries w (core.props.changes incoming)).2 = o at hnow hres hf' hfirst
    generalize (Component.mk (core'.applyEntries w' (core.props.changes incoming)).1 slots' children').updateSlots
      context (core'.applyEntries w' (core.props.changes incoming)).2 = o' at hnow hres hf' hfirst
    obtain ⟨⟨now, contents, kids⟩, world, result⟩ := o
    obtain ⟨⟨now', contents', kids'⟩, world', result'⟩ := o'
    cases result with
    | error fault => exact ⟨χ₁, hfirst, hnow, hres⟩
    | ok _ =>
      obtain ⟨hnow, hcontents, hkids⟩ := hnow
      obtain ⟨χ₂, hf'', hrow, hres'⟩ := updateRow_twin kids kids'
        (forwardedTo core.template.placeholders (core.props.changes incoming)) χ₁ _ _ hkids (hfirst.related hr)
      have he := hf''.document.extend
      have hm := hfirst.document.relates.own_mem
      exact ⟨χ₂, hfirst.trans hf'', ⟨hnow.mono he hm, twinAll.mono he hm _ _ hcontents, hrow⟩, hres'⟩

/-! ## Transitions -/

mutual
/-- transitions change nothing, as no block is the host's -/
theorem Component.Twin.transition : (c c' : Component H) → (t : Transition) → (isLocal : Bool) → (w w' : World H) →
    c.Twin χ c' → c.transition t isLocal w = (c, w) ∧ c'.transition t isLocal w' = (c', w')
  | .mk core slots children, .mk core' slots' children', t, isLocal, w, w', h => by
    obtain ⟨-, hslots, hchildren⟩ := h
    obtain ⟨h1, h2⟩ := transitionAll_twin slots slots' t isLocal w w' hslots
    obtain ⟨h3, h4⟩ := transitionAll_twin children children' t isLocal w w' hchildren
    rw [Component.transition, Component.transition, h1, h2]
    dsimp only
    rw [h3, h4]
    exact ⟨rfl, rfl⟩
theorem transitionAll_twin : (row row' : List (Nested H)) → (t : Transition) → (isLocal : Bool) → (w w' : World H) →
    twinAll χ row row' → transitionAll t isLocal row w = (row, w) ∧ transitionAll t isLocal row' w' = (row', w')
  | [], [], _, _, _, _, _ => ⟨rfl, rfl⟩
  | .mk index atRoot block :: row, .mk index' atRoot' block' :: row', t, isLocal, w, w', h => by
    obtain ⟨-, -, hblock, hrow⟩ := h
    obtain ⟨h1, h2⟩ := Block.Twin.transition block block' t isLocal w w' hblock
    obtain ⟨h3, h4⟩ := transitionAll_twin row row' t isLocal w w' hrow
    rw [transitionAll, transitionAll, h1, h2]
    dsimp only
    rw [h3, h4]
    exact ⟨rfl, rfl⟩
theorem Block.Twin.transition : (b b' : Block H) → (t : Transition) → (isLocal : Bool) → (w w' : World H) →
    b.Twin χ b' → b.transition t isLocal w = (b, w) ∧ b'.transition t isLocal w' = (b', w')
  | .text _, .text _, _, _, _, _, _ => ⟨rfl, rfl⟩
  | .component c, .component c', t, isLocal, w, w', h => by
    obtain ⟨h1, h2⟩ := Component.Twin.transition c c' t isLocal w w' h
    rw [Block.transition, Block.transition, h1, h2]
    exact ⟨rfl, rfl⟩
end

end

end LiveMarkup
