/-
How a component stands in a document.

`Stands state g c X` says that `c`, with all that is nested in it, is in this state and has this history, and that `X` is
what it has in the document: nothing before it is created and after it is destroyed; its fragment and its text nodes while
it waits to be mounted; the skeleton with attributes, texts and children in place once it is mounted. Slots are empty and
actions leave the document alone throughout. A child's history is what its enclosing component forwarded to it. `Carries`
is the same of a mounted component with texts in slots of its own.

- `Stands.toMarkup`: what a mounted component has in the document is written as the tree of its history.
-/
import LiveMarkup.Component.Call
import LiveMarkup.Proofs.Template.Latest

namespace LiveMarkup

open Markup Marker Forest

variable {H : Host}

/-! ## Actions that leave the document alone -/

/-- worlds with the same document, which is searched in the same way -/
structure World.Alike (w w' : World H) : Prop where
  document : w'.document = w.document
  backend : w'.backend = w.backend

theorem World.Alike.refl (w : World H) : w.Alike w := ⟨rfl, rfl⟩

theorem World.Alike.trans {u v w : World H} (h : u.Alike v) (h' : v.Alike w) : u.Alike w :=
  ⟨h'.document.trans h.document, h'.backend.trans h.backend⟩

structure Handle.Quiet (h : Handle H) : Prop where
  update : ∀ run ∈ h.update, ∀ value, ∀ w : World H, w.Alike (run value w)
  destroy : ∀ run ∈ h.destroy, ∀ w : World H, w.Alike (run w)

/-- the action leaves the document alone, now and later -/
def Action.Quiet (run : Action H) : Prop :=
  ∀ id value, ∀ w : World H, w.Alike (run id value w).1 ∧ (run id value w).2.Quiet

def Template.Quiet (t : Template (Action H)) : Prop :=
  ∀ run param, .action run param ∈ t.placeholders → Action.Quiet run

def Cleanup.Quiet : Cleanup H → Prop
  | .listener _ _ => True
  | .hook _ run => ∀ w : World H, w.Alike (run w)

def UpdateHook.Quiet (hook : UpdateHook H) : Prop := ∀ value, ∀ w : World H, w.Alike (hook.run value w)

/-! ## Children -/

/-- a child with its placeholder, and what it has in the document -/
structure Kid (H : Host) where
  index : Nat
  atRoot : Bool
  component : Component H
  ground : Forest Bare

def Kid.nested (k : Kid H) : Nested H := .mk k.index k.atRoot (.component k.component)

/-- the child at the same placeholder, with the same template -/
structure Kid.Alike (k k' : Kid H) : Prop where
  index : k'.index = k.index
  template : k'.component.core.template = k.component.core.template

structure Core.Embeds (c : Core H) (row : List (Kid H)) : Prop where
  indices : row.map Kid.index = indicesOf c.template.placeholders .child
  child : ∀ k ∈ row, ∃ bindings,
    c.template.placeholders[k.index]? = some (.child k.component.core.template bindings)

/-- each child placeholder has its child -/
theorem Core.Embeds.exists_kid {c : Core H} {row : List (Kid H)} (h : c.Embeds row) {i : Nat}
    {t : Template (Action H)} {bindings : List Binding} (hi : c.template.placeholders[i]? = some (.child t bindings)) :
    ∃ k ∈ row, k.index = i ∧ k.component.core.template = t := by
  have hin : i ∈ row.map Kid.index := by
    rw [h.indices]
    exact mem_indicesOf.2 ⟨_, hi, rfl⟩
  obtain ⟨k, hk, rfl⟩ := List.mem_map.1 hin
  obtain ⟨bs, hbs⟩ := h.child k hk
  exact ⟨k, hk, rfl, (Placeholder.child.inj (Option.some.inj (hbs.symm.trans hi))).1⟩

/-- the bindings of a child placeholder -/
def bindingsAt {A T : Type} (placeholders : List (Placeholder A T)) (index : Nat) : List Binding :=
  match placeholders[index]? with
  | some (.child _ bindings) => bindings
  | _ => []

theorem bindingsAt_eq {A T : Type} {placeholders : List (Placeholder A T)} {index : Nat} {t : T}
    {bindings : List Binding} (h : placeholders[index]? = some (.child t bindings)) :
    bindingsAt placeholders index = bindings := by
  rw [bindingsAt, h]

/-- the history of the child at a placeholder -/
def Core.handed (c : Core H) (g : History) (index : Nat) : History :=
  g.forward index (bindingsAt c.template.placeholders index)

/-- rows that correspond have the same values -/
theorem map_eq_of_forall₂ {α β γ : Type} {R : α → β → Prop} {f : α → γ} {g : β → γ} {l : List α} {l' : List β}
    (h : List.Forall₂ R l l') (hR : ∀ a b, R a b → g b = f a) : l'.map g = l.map f := by
  induction h with
  | nil => rfl
  | cons hab _ ih => rw [List.map_cons, List.map_cons, hR _ _ hab, ih]

theorem exists_of_forall₂ {α β : Type} {R : α → β → Prop} {l : List α} {l' : List β} (h : List.Forall₂ R l l') :
    ∀ b ∈ l', ∃ a ∈ l, R a b := by
  induction h with
  | nil => exact fun _ hb => absurd hb List.not_mem_nil
  | cons hab _ ih =>
    refine List.forall_mem_cons.2 ⟨⟨_, List.mem_cons_self, hab⟩, fun b hb => ?_⟩
    obtain ⟨a, ha, hr⟩ := ih b hb
    exact ⟨a, List.mem_cons_of_mem _ ha, hr⟩

theorem Core.Embeds.of_alike {c c' : Core H} {row row' : List (Kid H)} (h : c.Embeds row)
    (ht : c'.template = c.template) (hr : List.Forall₂ Kid.Alike row row') : c'.Embeds row' := by
  refine ⟨?_, fun k' hk' => ?_⟩
  · rw [ht, ← h.indices]
    exact map_eq_of_forall₂ hr fun _ _ hk => hk.index
  · obtain ⟨k, hk, halike⟩ := exists_of_forall₂ hr k' hk'
    rw [ht, halike.index, halike.template]
    exact h.child k hk

/-! ## What a component has in the document -/

namespace Forest

variable {L : Type}

/-- one forest after another -/
def join {α : Type} (fs : List (Forest α)) : Forest α := fs.foldr (· ++ ·) nil

theorem ids_join (fs : List (Forest (Node L))) : (join fs).ids = fs.flatMap ids := by
  induction fs with
  | nil => rfl
  | cons f fs ih => rw [join, List.foldr_cons, ids_append, List.flatMap_cons, ← ih, join]

end Forest

/-- the text node of a cell, with the text that `data` gives its prop -/
def TextCell.ground (data : String → String) (cell : TextCell) : Forest Bare :=
  tree ⟨cell.node, .text (data cell.prop), [], 0⟩ nil

/-- the attribute that a cell's marker stands for -/
def AttributeCell.entry (cell : AttributeCell) : String × String × String :=
  (Marker.name ⟨.attribute, cell.index⟩, cell.name, cell.value)

/-- the attributes that the markers of cells stand for -/
def lookOf (cells : List AttributeCell) : String → Option (String × String) :=
  Entries.get? (cells.map AttributeCell.entry)

namespace Core

/-- what stands in the place of the component's markers; `x` is what stands in the place of its slots -/
def fillsWith (c : Core H) (x : Nat → Forest Bare) (row : List (Kid H)) : List (Marker × Forest Bare) :=
  c.textCells.map (fun cell => (⟨.text, cell.index⟩, cell.ground c.props.text)) ++
    ((indicesOf c.template.placeholders .slot).map (fun i => (⟨.slot, i⟩, x i)) ++
      row.map fun k => (⟨.child, k.index⟩, k.ground))

/-- what stands in the place of the component's markers when its slots are empty -/
def fills (c : Core H) (row : List (Kid H)) : List (Marker × Forest Bare) := c.fillsWith (fun _ => nil) row

/-- what a component has that waits to be mounted -/
def waiting (c : Core H) (fragment : NodeId) (row : List (Kid H)) : Forest Bare :=
  tree ⟨fragment, .fragment, [], 0⟩ (planted c.template.skeleton (fragment + 1)) ++
    (join (c.textCells.map (TextCell.ground c.props.text)) ++ join (row.map Kid.ground))

/-- the elements of a mounted component, when these entries were given after `p` was shown -/
def elements (c : Core H) (p : Props) (entries : Entries Value) (start : NodeId) : Forest Bare :=
  (planted c.template.skeleton start).attrs fun _ => latestAttributes c.template.placeholders p entries

/-- what a mounted component has, when these entries were given after `p` was shown -/
def showing (c : Core H) (p : Props) (entries : Entries Value) (start : NodeId) (row : List (Kid H)) : Forest Bare :=
  (c.elements p entries start).fillBy (c.fills row)

/-- nothing to show and nothing to undo -/
structure Blank (c : Core H) : Prop where
  textCells : c.textCells = []
  attributeCells : c.attributeCells = []
  cleanups : c.cleanups = []
  updateHooks : c.updateHooks = []

/-- cells for the text and attribute placeholders, with the texts of their props -/
structure Celled (c : Core H) : Prop where
  texts : c.textCells.map (fun cell => (cell.index, cell.prop)) = spotsOf Placeholder.text? 0 c.template.placeholders
  attributes : c.attributeCells.map (fun cell => (cell.index, cell.prop, cell.name)) =
    spotsOf Placeholder.attribute? 0 c.template.placeholders
  values : ∀ cell ∈ c.attributeCells, cell.value = c.props.text cell.prop

/-- all nodes of a component are distinct; its skeleton was planted at `start` -/
def Distinct (c : Core H) (start : NodeId) (row : List (Kid H)) : Prop :=
  ((planted c.template.skeleton start).ids ++
    (c.textCells.map (·.node) ++ row.flatMap fun k => k.ground.ids)).Nodup

/-- a component that has been created but not mounted -/
structure Waits (c : Core H) (fragment : NodeId) (row : List (Kid H)) : Prop where
  phase : c.phase = .created fragment
  celled : c.Celled
  distinct : c.Distinct (fragment + 1) row
  outside : fragment ∉ (planted c.template.skeleton (fragment + 1)).ids ++
    (c.textCells.map (·.node) ++ row.flatMap fun k => k.ground.ids)
  unbound : ∀ cell ∈ c.attributeCells, cell.element = none
  cleanups : c.cleanups = []
  updateHooks : c.updateHooks = []

structure Shows (c : Core H) (start : NodeId) (row : List (Kid H)) : Prop where
  phase : c.phase = .mounted
  celled : c.Celled
  distinct : c.Distinct start row
  bound : ∀ cell ∈ c.attributeCells, ∃ n ∈ (planted c.template.skeleton start).labels, cell.element = some n.id ∧
    Marker.name ⟨.attribute, cell.index⟩ ∈ Entries.names n.kind.attributes
  cleanups : ∀ cleanup ∈ c.cleanups, cleanup.Quiet
  updateHooks : ∀ hook ∈ c.updateHooks, hook.Quiet

/-- what a component without its children is in this state, and what it has in the document; `p` was shown when it was
mounted, and the entries were given since -/
def Is (c : Core H) (p : Props) (entries : Entries Value) (row : List (Kid H)) : State → Forest Bare → Prop
  | .unmounted, X => c.phase = .unmounted ∧ c.Blank ∧ X = nil
  | .created, X => ∃ fragment, c.Waits fragment row ∧ X = c.waiting fragment row
  | .mounted, X => ∃ start, c.Shows start row ∧ X = c.showing p entries start row
  | .destroyed, X => c.phase = .destroyed ∧ c.Blank ∧ X = nil

end Core

/-! ## Texts in slots -/

/-- a text for the slot at a placeholder, with its node -/
structure Inset where
  index : Nat
  data : String
  node : NodeId

def Inset.block (a : Inset) : Block H := .text ⟨none, a.data, some a.node⟩

def Inset.nested (a : Inset) : Nested H := .mk a.index false a.block

def Inset.ground (a : Inset) : Forest Bare := tree ⟨a.node, .text a.data, [], 0⟩ nil

/-- what stands in the place of a slot's marker, if these are the texts -/
def contentAt (insets : List Inset) (index : Nat) : Forest Bare :=
  ((insets.find? (·.index == index)).map Inset.ground).getD nil

theorem contentAt_cons_self (a : Inset) (insets : List Inset) : contentAt (a :: insets) a.index = a.ground := by
  have hfind : (a :: insets).find? (·.index == a.index) = some a := List.find?_cons_of_pos (beq_self_eq_true a.index)
  rw [contentAt, hfind]
  rfl

theorem contentAt_cons_of_ne {a : Inset} {i : Nat} (h : a.index ≠ i) (insets : List Inset) :
    contentAt (a :: insets) i = contentAt insets i := by
  rw [contentAt, List.find?_cons_of_neg (by simpa using h), contentAt]

theorem contentAt_eq_nil {insets : List Inset} {i : Nat} (h : i ∉ insets.map Inset.index) : contentAt insets i = nil := by
  have hfind : insets.find? (·.index == i) = none := List.find?_eq_none.2 fun a ha hi => by
    rw [beq_iff_eq] at hi
    exact h (hi ▸ List.mem_map_of_mem ha)
  rw [contentAt, hfind]
  rfl

theorem ids_contentAt (insets : List Inset) (i : Nat) :
    ∀ id ∈ (contentAt insets i).ids, id ∈ (join (insets.map Inset.ground)).ids := by
  intro id hid
  induction insets with
  | nil => exact hid
  | cons a insets ih =>
    rw [List.map_cons, join, List.foldr_cons, ids_append, List.mem_append]
    by_cases hi : a.index = i
    · rw [← hi, contentAt_cons_self] at hid
      exact .inl hid
    · rw [contentAt_cons_of_ne hi] at hid
      exact .inr (ih hid)

/-! ## Components -/

/-- the component and all its children are in this state and have these histories, and `X` is what they have in the
document -/
inductive Stands (state : State) : History → Component H → Forest Bare → Prop
  | mk {g : History} {core : Core H} {row : List (Kid H)} {X : Forest Bare} (props : core.props = g.props)
      (embeds : core.Embeds row) (own : core.Is g.atMount g.given row state X)
      (kids : ∀ k ∈ row, Stands state (core.handed g k.index) k.component k.ground) :
      Stands state g (.mk core [] (row.map Kid.nested)) X

/-- a mounted component with texts in slots of its own and children that stand -/
inductive Carries (insets : List Inset) : History → Component H → Forest Bare → Prop
  | mk {g : History} {core : Core H} {row : List (Kid H)} {slots : List (Nested H)} {start : NodeId}
      (props : core.props = g.props) (embeds : core.Embeds row)
      (contents : slots.map Nested.block = insets.map Inset.block) (own : core.Shows start row)
      (kids : ∀ k ∈ row, Stands .mounted (core.handed g k.index) k.component k.ground) :
      Carries insets g (.mk core slots (row.map Kid.nested))
        ((core.elements g.atMount g.given start).fillBy (core.fillsWith (contentAt insets) row))

section

variable {s : State} {g : History} {c : Component H} {X : Forest Bare}

/-- without texts in its slots, a mounted component stands -/
theorem Carries.stands (h : Carries [] g c X) : Stands .mounted g c X := by
  cases h with
  | mk props embeds contents own kids =>
    obtain rfl := List.map_eq_nil_iff.1 contents
    exact .mk props embeds ⟨_, own, rfl⟩ kids

theorem Stands.state (h : Stands s g c X) : c.state = s := by
  cases h with
  | mk _ _ own =>
    rw [Component.state, Component.core]
    cases s with
    | unmounted => rw [own.1]; rfl
    | created => obtain ⟨fragment, hw, -⟩ := own; rw [hw.phase]; rfl
    | mounted => obtain ⟨start, hs, -⟩ := own; rw [hs.phase]; rfl
    | destroyed => rw [own.1]; rfl

theorem Stands.props_eq (h : Stands s g c X) : c.props = g.props := by
  cases h with
  | mk props => exact props

/-- the slot context is of no account -/
theorem Stands.withContext (h : Stands s g c X) (slotContext : Props) :
    Stands s g (.mk { c.core with slotContext } [] c.children) X := by
  have hblank : ∀ {core : Core H}, core.Blank → ({ core with slotContext } : Core H).Blank := fun hb =>
    ⟨hb.textCells, hb.attributeCells, hb.cleanups, hb.updateHooks⟩
  have hcelled : ∀ {core : Core H}, core.Celled → ({ core with slotContext } : Core H).Celled := fun hc =>
    ⟨hc.texts, hc.attributes, hc.values⟩
  cases h with
  | mk props embeds own kids =>
    refine .mk props ⟨embeds.indices, embeds.child⟩ ?_ kids
    cases s with
    | unmounted => exact ⟨own.1, hblank own.2.1, own.2.2⟩
    | created =>
      obtain ⟨fragment, h, rfl⟩ := own
      exact ⟨fragment, ⟨h.phase, hcelled h.celled, h.distinct, h.outside, h.unbound, h.cleanups, h.updateHooks⟩, rfl⟩
    | mounted =>
      obtain ⟨start, h, rfl⟩ := own
      exact ⟨start, ⟨h.phase, hcelled h.celled, h.distinct, h.bound, h.cleanups, h.updateHooks⟩, rfl⟩
    | destroyed => exact ⟨own.1, hblank own.2.1, own.2.2⟩

/-- before it is created and after it is destroyed, a component has nothing in the document -/
theorem Stands.ground_eq_nil (h : Stands s g c X) (hs : s = .unmounted ∨ s = .destroyed) : X = nil := by
  cases h with
  | mk _ _ own =>
    rcases hs with rfl | rfl
    · exact own.2.2
    · exact own.2.2

/-- an empty change set is of no account -/
theorem Stands.told_empty (h : Stands s g c X) (orders : Orders) : Stands s (g.told ⟨∅, orders⟩) c X := by
  induction h generalizing orders with
  | @mk g core row X props embeds own kids ih =>
    have hgiven : (g.told ⟨∅, orders⟩).given = g.given := (g.given_told ⟨∅, orders⟩).trans (List.append_nil _)
    refine .mk (props.trans (g.props_told ⟨∅, orders⟩).symm) embeds (by rw [hgiven]; exact own) fun k hk => ?_
    rw [Core.handed, History.forward_told, ChangeSet.forward_empty]
    exact ih k hk (orders.below k.index)

end

namespace Core

variable {c : Core H} {row : List (Kid H)}

theorem ids_texts (data : String → String) (cells : List TextCell) :
    (join (cells.map (TextCell.ground data))).ids = cells.map (·.node) := by
  induction cells with
  | nil => rfl
  | cons cell cells ih => rw [List.map_cons, join, List.foldr_cons, ← join, ids_append, ih, List.map_cons]; rfl

theorem ids_kids (row : List (Kid H)) : (join (row.map Kid.ground)).ids = row.flatMap fun k => k.ground.ids := by
  rw [ids_join, List.flatMap_map]

theorem ids_waiting (c : Core H) (fragment : NodeId) (row : List (Kid H)) : (c.waiting fragment row).ids =
    fragment :: ((planted c.template.skeleton (fragment + 1)).ids ++
      (c.textCells.map (·.node) ++ row.flatMap fun k => k.ground.ids)) := by
  rw [waiting, ids_append, ids_append, ids_tree, ids_texts, ids_kids, List.cons_append]

/-! ## Reading back -/

theorem keys_fills (c : Core H) (x : Nat → Forest Bare) (row : List (Kid H)) : (c.fillsWith x row).map (·.1) =
    (c.textCells.map (·.index)).map (Marker.mk .text) ++
      ((indicesOf c.template.placeholders .slot).map (Marker.mk .slot) ++ (row.map Kid.index).map (Marker.mk .child)) := by
  simp only [fillsWith, List.map_append, List.map_map]
  rfl

theorem Celled.nodup_texts (h : c.Celled) : (c.textCells.map (·.index)).Nodup := by
  have := nodup_spotsOf Placeholder.text? 0 c.template.placeholders
  rwa [← h.texts, List.map_map] at this

theorem Celled.nodup_attributes (h : c.Celled) : (c.attributeCells.map (·.index)).Nodup := by
  have := nodup_spotsOf Placeholder.attribute? 0 c.template.placeholders
  rwa [← h.attributes, List.map_map] at this

theorem Celled.text (h : c.Celled) {cell : TextCell} (hc : cell ∈ c.textCells) :
    c.template.placeholders[cell.index]? = some (.text cell.prop) := by
  have hm : (cell.index, cell.prop) ∈ spotsOf Placeholder.text? 0 c.template.placeholders := by
    rw [← h.texts]
    exact List.mem_map_of_mem (f := fun cell : TextCell => (cell.index, cell.prop)) hc
  obtain ⟨p, hp, ht⟩ := mem_spotsOf_zero.1 hm
  rw [hp, Placeholder.text?_eq_some_iff.1 ht]

theorem Celled.exists_text (h : c.Celled) {i : Nat} {prop : String}
    (hi : c.template.placeholders[i]? = some (.text prop)) : ∃ cell ∈ c.textCells, cell.index = i ∧ cell.prop = prop := by
  have hm : (i, prop) ∈ spotsOf Placeholder.text? 0 c.template.placeholders := mem_spotsOf_zero.2 ⟨_, hi, rfl⟩
  rw [← h.texts, List.mem_map] at hm
  obtain ⟨cell, hc, he⟩ := hm
  obtain ⟨hi, hp⟩ := Prod.mk.inj he
  exact ⟨cell, hc, hi, hp⟩

theorem Celled.attribute (h : c.Celled) {cell : AttributeCell} (hc : cell ∈ c.attributeCells) :
    c.template.placeholders[cell.index]? = some (.attribute cell.prop cell.name) := by
  have hm : (cell.index, cell.prop, cell.name) ∈ spotsOf Placeholder.attribute? 0 c.template.placeholders := by
    rw [← h.attributes]
    exact List.mem_map_of_mem (f := fun cell : AttributeCell => (cell.index, cell.prop, cell.name)) hc
  obtain ⟨p, hp, ht⟩ := mem_spotsOf_zero.1 hm
  rw [hp, Placeholder.attribute?_eq_some_iff.1 ht]

theorem Celled.exists_attribute (h : c.Celled) {i : Nat} {prop name : String}
    (hi : c.template.placeholders[i]? = some (.attribute prop name)) :
    ∃ cell ∈ c.attributeCells, cell.index = i ∧ cell.prop = prop ∧ cell.name = name := by
  have hm : (i, prop, name) ∈ spotsOf Placeholder.attribute? 0 c.template.placeholders := mem_spotsOf_zero.2 ⟨_, hi, rfl⟩
  rw [← h.attributes, List.mem_map] at hm
  obtain ⟨cell, hc, he⟩ := hm
  obtain ⟨hi, he⟩ := Prod.mk.inj he
  obtain ⟨hp, hn⟩ := Prod.mk.inj he
  exact ⟨cell, hc, hi, hp, hn⟩

theorem nodup_map_mk {category : Category} {is : List Nat} (h : is.Nodup) : (is.map (Marker.mk category)).Nodup :=
  h.map fun _ _ e => (Marker.mk.inj e).2

/-- each marker is filled once -/
theorem Celled.nodup_fills (h : c.Celled) (hi : row.map Kid.index = indicesOf c.template.placeholders .child)
    (x : Nat → Forest Bare) : ((c.fillsWith x row).map (·.1)).Nodup := by
  rw [keys_fills]
  have hslots : ((indicesOf c.template.placeholders .slot).map (Marker.mk .slot)).Nodup :=
    nodup_map_mk (nodup_indicesOf _ _)
  have hkids : ((row.map Kid.index).map (Marker.mk .child)).Nodup := by
    rw [hi]
    exact nodup_map_mk (nodup_indicesOf _ _)
  refine List.nodup_append.2 ⟨nodup_map_mk h.nodup_texts, List.nodup_append.2 ⟨hslots, hkids, ?_⟩, ?_⟩
  · intro a ha b hb e
    obtain ⟨i, -, rfl⟩ := List.mem_map.1 ha
    obtain ⟨j, -, rfl⟩ := List.mem_map.1 hb
    cases e
  · intro a ha b hb e
    obtain ⟨i, -, rfl⟩ := List.mem_map.1 ha
    rcases List.mem_append.1 hb with hb | hb
    · obtain ⟨j, -, rfl⟩ := List.mem_map.1 hb
      cases e
    · obtain ⟨j, -, rfl⟩ := List.mem_map.1 hb
      cases e

theorem names_entries (cells : List AttributeCell) : Entries.names (cells.map AttributeCell.entry) =
    ((cells.map (·.index)).map (Marker.mk .attribute)).map Marker.name := by
  simp only [Entries.names, List.map_map]
  rfl

theorem Celled.nodup_entries (h : c.Celled) : (Entries.names (c.attributeCells.map AttributeCell.entry)).Nodup := by
  rw [names_entries]
  exact (nodup_map_mk h.nodup_attributes).map fun _ _ e => name_inj e

/-- the attribute markers of a sound skeleton -/
theorem Celled.mem_markers (h : c.Celled) (hs : c.template.Sound) {cell : AttributeCell} (hc : cell ∈ c.attributeCells) :
    (⟨.attribute, cell.index⟩ : Marker) ∈ markersOfAll c.template.skeleton := by
  rw [hs.markers]
  exact mem_markersFor_zero.2 ⟨_, h.attribute hc, rfl⟩

theorem Celled.index_lt (h : c.Celled) (hs : c.template.Sound) : ∀ cell ∈ c.attributeCells, cell.index < indexLimit :=
  fun _ hc => index_lt_of_mem (h.mem_markers hs hc)

/-- the attributes that markers stand for are those of the template's placeholders -/
theorem Celled.look (h : c.Celled) (hlt : ∀ cell ∈ c.attributeCells, cell.index < indexLimit) (name : String)
    (hname : ∀ m, ofAttribute? name = some m → name = m.name) :
    lookOf c.attributeCells name = (boundTo? c.template.placeholders name).map fun b => (b.1, c.props.text b.2) := by
  cases hb : boundTo? c.template.placeholders name with
  | some b =>
    obtain ⟨i, hm, hi⟩ := boundTo?_eq_some_iff.1 hb
    obtain ⟨cell, hc, rfl, hprop, hcn⟩ := h.exists_attribute hi
    have := Entries.get?_of_mem h.nodup_entries (List.mem_map_of_mem (f := AttributeCell.entry) hc)
    rw [AttributeCell.entry, hcn, h.values cell hc, hprop] at this
    rw [hname _ hm]
    exact this
  | none =>
    refine Entries.get?_eq_none_iff.2 fun hin => ?_
    obtain ⟨e, he, hen⟩ := List.mem_map.1 hin
    obtain ⟨cell, hc, rfl⟩ := List.mem_map.1 he
    have hbound : boundTo? c.template.placeholders name = some (cell.name, cell.prop) :=
      boundTo?_eq_some_iff.2 ⟨cell.index, by rw [← hen]; exact ofAttribute?_name rfl (hlt cell hc), h.attribute hc⟩
    rw [hb] at hbound
    cases hbound

/-- what stands in the place of a marker is written as the marker's part; what stands in the place of slots may be any
parts -/
theorem Celled.fillsWith (h : c.Celled) (he : c.Embeds row) {g : History} (hg : c.props = g.props)
    (hkids : ∀ k ∈ row, k.ground.toMarkup = k.component.core.template.latest (c.handed g k.index))
    {x : Nat → Forest Bare} {parts : List Part}
    (hparts : ∀ (i : Nat) (p : Placeholder (Action H) (Template (Action H))), c.template.placeholders[i]? = some p →
      p.category ≠ .slot → parts[i]? = some (p.latestPart g i))
    (hslots : ∀ i ∈ indicesOf c.template.placeholders .slot, (x i).toMarkup = markerNodes parts ⟨.slot, i⟩) {m : Marker}
    (hm : m ∈ markersFor 0 c.template.placeholders) (hc : m.category.inTag = false) :
    ∃ y, (c.fillsWith x row).lookup m = some y ∧ y.toMarkup = markerNodes parts m := by
  obtain ⟨p, hp, hcat⟩ := mem_markersFor_zero.1 hm
  have hpart := hparts m.index p hp
  have hlookup : ∀ y, (m, y) ∈ c.fillsWith x row → (c.fillsWith x row).lookup m = some y :=
    fun y hy => lookup_of_mem (h.nodup_fills he.indices x) hy
  obtain ⟨category, index⟩ := m
  dsimp only at hp hcat hpart hc
  cases p with
  | text prop =>
    obtain rfl : category = .text := hcat.symm
    obtain ⟨cell, hcell, rfl, rfl⟩ := h.exists_text hp
    refine ⟨_, hlookup (cell.ground c.props.text) (List.mem_append_left _ ?_), ?_⟩
    · exact List.mem_map_of_mem (f := fun cell : TextCell => (Marker.mk .text cell.index, cell.ground c.props.text)) hcell
    · simp only [markerNodes, hpart (fun e => nomatch e), hg]
      rfl
  | slot name =>
    obtain rfl : category = .slot := hcat.symm
    have hin : index ∈ indicesOf c.template.placeholders .slot := mem_indicesOf.2 ⟨_, hp, rfl⟩
    refine ⟨_, hlookup (x index) (List.mem_append_right _ (List.mem_append_left _ ?_)), hslots index hin⟩
    exact List.mem_map_of_mem (f := fun i => (Marker.mk .slot i, x i)) hin
  | child t bindings =>
    obtain rfl : category = .child := hcat.symm
    obtain ⟨k, hk, rfl, ht⟩ := he.exists_kid hp
    refine ⟨_, hlookup k.ground (List.mem_append_right _ (List.mem_append_right _ ?_)), ?_⟩
    · exact List.mem_map_of_mem (f := fun k : Kid H => (Marker.mk .child k.index, k.ground)) hk
    · simp only [markerNodes, hpart (fun e => nomatch e)]
      rw [hkids k hk, ht, handed, bindingsAt_eq hp]
      rfl
  | «attribute» => subst hcat; cases hc
  | event => subst hcat; cases hc
  | action => subst hcat; cases hc

/-- what stands in the place of a marker is written as the marker's part -/
theorem Celled.fills (h : c.Celled) (he : c.Embeds row) {g : History} (hg : c.props = g.props)
    (hkids : ∀ k ∈ row, k.ground.toMarkup = k.component.core.template.latest (c.handed g k.index)) {m : Marker}
    (hm : m ∈ markersFor 0 c.template.placeholders) (hc : m.category.inTag = false) :
    ∃ x, (c.fills row).lookup m = some x ∧ x.toMarkup = markerNodes (latestParts g 0 c.template.placeholders) m := by
  refine h.fillsWith he hg hkids (fun i p hp _ => ?_) (fun i hi => ?_) hm hc
  · rw [getElem?_latestParts, hp, Nat.zero_add]
    rfl
  · obtain ⟨p, hp, hcat⟩ := mem_indicesOf.1 hi
    obtain ⟨name, rfl⟩ := Placeholder.category_eq_slot_iff.1 hcat
    simp only [markerNodes, getElem?_latestParts, hp]
    rfl

end Core

/-- what a mounted component has in the document is the tree of its history -/
theorem Stands.toMarkup {g : History} {c : Component H} {X : Forest Bare} (h : Stands .mounted g c X)
    (hs : c.core.template.Everywhere Template.Sound) : X.toMarkup = c.core.template.latest g := by
  induction h with
  | @mk g core row X props embeds own kids ih =>
    obtain ⟨start, hshows, rfl⟩ := own
    have hsound : core.template.Sound := hs.self
    have hkids : ∀ k ∈ row, k.ground.toMarkup = k.component.core.template.latest (core.handed g k.index) := by
      intro k hk
      obtain ⟨bindings, hi⟩ := embeds.child k hk
      exact ih k hk (Template.Everywhere.child hs hi)
    have hfills : ∀ m ∈ markersOfAll core.template.skeleton, m.category.inTag = false →
        ∃ x, (core.fills row).lookup m = some x ∧
          x.toMarkup = markerNodes (latestParts g 0 core.template.placeholders) m :=
      fun m hm hc => hshows.celled.fills embeds props hkids (hsound.markers ▸ hm) hc
    refine (toMarkup_planted core.template.skeleton start hfills).trans ?_
    show _ = core.template.latest g
    cases core.template with
    | mk segments placeholders skeleton => rw [Template.latest]

/-- what a component has in the document that nothing was given to since it was made is the tree for its props -/
theorem Stands.toMarkup_start {props : Props} {c : Component H} {X : Forest Bare}
    (h : Stands .mounted (.start props) c X) (hs : c.core.template.Everywhere Template.Sound) :
    X.toMarkup = c.core.template.tree c.props := by
  rw [h.toMarkup hs, Template.latest_start, h.props_eq]
  rfl

end LiveMarkup
