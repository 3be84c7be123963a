/-
Components as they are built.

The blocks in the slots of a component belong to slot placeholders of its template, in their order, and its children to
all child placeholders; in a component that is built of texts and components alone, this holds at every depth. No call
changes it, as no call changes a template or which blocks are nested where.

- `Component.furnished_built`: instances are built, whatever built blocks fill their slots;
- `Built.over`: calls keep a component built.
-/
import LiveMarkup.Proofs.Component.Rollback

namespace LiveMarkup

variable {H : Host}

mutual
/-- built of texts and components: slot contents at slot placeholders and a child at every child placeholder -/
def Component.Built : Component H → Prop
  | .mk core slots children => (slots.map Nested.index).Sublist (indicesOf core.template.placeholders .slot) ∧
      children.map Nested.index = indicesOf core.template.placeholders .child ∧ builtAll slots ∧ builtAll children
def builtAll : List (Nested H) → Prop
  | [] => True
  | .mk _ _ block :: row => block.Built ∧ builtAll row
def Block.Built : Block H → Prop
  | .text _ => True
  | .foreign _ => False
  | .component c => c.Built
end

theorem builtAll_iff {row : List (Nested H)} : builtAll row ↔ ∀ n ∈ row, n.block.Built := by
  induction row with
  | nil => exact ⟨fun _ _ h => absurd h List.not_mem_nil, fun _ => trivial⟩
  | cons n row ih =>
    obtain ⟨index, atRoot, block⟩ := n
    rw [builtAll, ih, List.forall_mem_cons, Nested.block]

section

variable {guest : H.Foreign → Prop}

mutual
/-- there are no blocks of the host in what is built of texts and components -/
theorem Component.Built.guests : {c : Component H} → c.Built → c.Guests guest
  | .mk _ _ _, ⟨_, _, hs, hc⟩ => ⟨builtAll.guests hs, builtAll.guests hc⟩
theorem builtAll.guests : {row : List (Nested H)} → builtAll row → guestsOf guest row
  | [], _ => trivial
  | .mk _ _ _ :: _, ⟨h, hr⟩ => ⟨Block.Built.guests h, builtAll.guests hr⟩
theorem Block.Built.guests : {b : Block H} → b.Built → b.Guests guest
  | .text _, _ => trivial
  | .foreign _, h => h.elim
  | .component _, h => Component.Built.guests h
end

end

/-! ## Calls -/

theorem likeAll.indices {R : Likeness H} {row row' : List (Nested H)} (h : likeAll R row row') :
    row'.map Nested.index = row.map Nested.index :=
  map_eq_of_forall₂ (likeAll_iff.1 h) fun _ _ hn => hn.1

/-- a component that is like one that is built, and has the same templates, is built -/
theorem Component.Like.built {R : Likeness H} (hR : ∀ a b, R.core a b → b.template = a.template) {c c' : Component H}
    (h : c.Like R c') (hc : c.Built) : c'.Built := by
  induction c using Component.induct generalizing c' with
  | mk core slots children ihs ihc =>
    obtain ⟨core', slots', children'⟩ := c'
    obtain ⟨hcore, hslots, hchildren⟩ := h
    obtain ⟨hi, hj, hs, hk⟩ := hc
    have hrow : ∀ row row' : List (Nested H), likeAll R row row' →
        (∀ n ∈ row, ∀ c, n.block = .component c → ∀ {c' : Component H}, c.Like R c' → c.Built → c'.Built) →
        builtAll row → builtAll row' := by
      intro row row' hlike ih hbuilt
      refine builtAll_iff.2 fun n' hn' => ?_
      obtain ⟨n, hn, -, hblock⟩ := exists_of_forall₂ (likeAll_iff.1 hlike) n' hn'
      have hb := builtAll_iff.1 hbuilt n hn
      cases hx : n.block with
      | text t =>
        rw [hx] at hblock
        cases hy : n'.block with
        | text t' => trivial
        | foreign f => rw [hy] at hblock; exact hblock.elim
        | component c => rw [hy] at hblock; exact hblock.elim
      | foreign f => rw [hx] at hb; exact hb.elim
      | component c =>
        rw [hx] at hblock hb
        obtain ⟨c', hc', hlike'⟩ := Block.like_component hblock
        rw [hc']
        exact ih n hn c hx hlike' hb
    have htemplate : core'.template = core.template := hR _ _ hcore
    exact ⟨by rw [hslots.indices, htemplate]; exact hi, by rw [hchildren.indices, htemplate]; exact hj,
      hrow _ _ hslots ihs hs, hrow _ _ hchildren ihc hk⟩

theorem Component.Like.built_of_values {c c' : Component H} (h : c.Like values c') (hc : c.Built) : c'.Built :=
  h.built (fun _ _ hv => Core.SameValues.template hv) hc

theorem Component.Like.built_of_footing {c c' : Component H} (h : c.Like footing c') (hc : c.Built) : c'.Built :=
  h.built (fun _ _ hf => Core.SameFooting.template hf) hc

section

variable [ForeignBlocks H]

theorem Component.Built.call {c : Component H} (h : c.Built) (call : Call NodeId) (w : World H) :
    (c.call w call).self.Built := by
  have hgives : call.Gives → (c.call w call).self.Built := fun hg => (c.call_footing hg w).built_of_footing h
  cases call with
  | create => exact (c.create_values w).built_of_values h
  | mount target anchor => exact (c.mount_values target anchor w).built_of_values h
  | destroy detaching => exact (c.destroy_values detaching w).built_of_values h
  | _ => exact hgives trivial

theorem Component.Built.over {c : Component H} (h : c.Built) (calls : List (Call NodeId × World H)) :
    (c.over calls).Built := by
  induction calls generalizing c with
  | nil => exact h
  | cons e calls ih => exact ih (h.call e.1 e.2)

end

/-! ## Instances -/

/-- the positions of a category among placeholders that begin with number `index` -/
theorem filter_zipIdx_cons {A T : Type} (category : Category) (index : Nat) (p : Placeholder A T)
    (ps : List (Placeholder A T)) : (((p :: ps).zipIdx index).filter (·.1.category = category)).map (·.2) =
      if p.category = category then
        index :: ((ps.zipIdx (index + 1)).filter (·.1.category = category)).map (·.2)
      else ((ps.zipIdx (index + 1)).filter (·.1.category = category)).map (·.2) := by
  rw [List.zipIdx_cons]
  split
  · next h => rw [List.filter_cons_of_pos (by simpa using h), List.map_cons]
  · next h => rw [List.filter_cons_of_neg (by simpa using h)]

theorem Component.InstanceOf.built {t : Template (Action H)} {props : Props} {c : Component H}
    (h : c.InstanceOf t props) : c.Built := by
  induction h with
  | mk channel indices flags placed kids ih =>
    refine ⟨List.nil_sublist _, indices, trivial, builtAll_iff.2 fun n hn => ?_⟩
    obtain ⟨u, bindings, child, hp, hblock⟩ := placed n hn
    rw [hblock]
    exact ih n hn u bindings child hp hblock

/-- slots are filled in the order of their placeholders -/
theorem fillSlots_indices {T : Type} (ps : List (Placeholder (Action H) T)) (index : Nat) (contents : Entries (Block H)) :
    ((fillSlots index ps contents).1.map Nested.index).Sublist
      (((ps.zipIdx index).filter (·.1.category = .slot)).map (·.2)) := by
  induction ps generalizing index contents with
  | nil => exact List.Sublist.refl _
  | cons p ps ih =>
    rw [filter_zipIdx_cons]
    cases p with
    | slot name =>
      rw [fillSlots, if_pos (show Placeholder.category (.slot name) = .slot from rfl)]
      split
      · exact (ih _ _).cons_cons index
      · exact (ih _ _).cons index
    | _ => exact ih _ _

/-- an instance is built of its template, whatever built blocks fill its slots -/
theorem Component.furnished_built {t : Template (Action H)} {options : Options H}
    (h : ∀ e ∈ options.slots, e.2.Built) (w : World H) : (furnished t options w).Built := by
  have hbuilt := (ofTemplate_instance t options.props w).built
  have htemplate := (ofTemplate_instance t options.props w).template
  have hslots : ∀ n ∈ (fillSlots 0 t.placeholders options.slots).1, n.block.Built := by
    intro n hn
    obtain ⟨e, he, hb⟩ := mem_fillSlots hn
    exact hb ▸ h e he
  unfold furnished
  generalize (ofTemplate t options.props w).1 = c at hbuilt htemplate
  obtain ⟨core, slots, children⟩ := c
  obtain rfl : core.template = t := htemplate
  exact ⟨fillSlots_indices _ _ _, hbuilt.2.1, builtAll_iff.2 hslots, hbuilt.2.2.2⟩

/-- the blocks of the host in an instance are those in its slots -/
theorem Component.furnished_guests {guest : H.Foreign → Prop} {t : Template (Action H)} {options : Options H}
    (h : ∀ e ∈ options.slots, e.2.Guests guest) (w : World H) : (furnished t options w).Guests guest := by
  have hguests : (ofTemplate t options.props w).1.Guests guest := (ofTemplate_instance t options.props w).built.guests
  unfold furnished
  generalize (ofTemplate t options.props w).1 = c at hguests
  obtain ⟨core, slots, children⟩ := c
  refine ⟨guestsOf_iff.2 fun n hn => ?_, hguests.2⟩
  obtain ⟨e, he, hb⟩ := mem_fillSlots hn
  exact hb ▸ h e he

/-- an instance has nothing in a document if the blocks in its slots have nothing there -/
theorem Component.furnished_idle {t : Template (Action H)} {options : Options H}
    (h : ∀ e ∈ options.slots, e.2.Idle) (w : World H) : (furnished t options w).Idle := by
  have hidle := (ofTemplate_instance t options.props w).idle
  unfold furnished
  generalize (ofTemplate t options.props w).1 = c at hidle
  obtain ⟨core, slots, children⟩ := c
  have hown : core.Idle := hidle.1
  refine ⟨⟨hown.phase, hown.roots, hown.textCells, hown.attributeCells, hown.cleanups, hown.updateHooks⟩,
    eachOf_iff.2 fun n hn => ?_, hidle.2.2⟩
  obtain ⟨e, he, hb⟩ := mem_fillSlots hn
  exact hb ▸ h e he

section

variable {P : Template (Action H) → Prop}

/-- what holds of a template and of all that are embedded in it holds of the components of an instance -/
theorem Component.InstanceOf.each {t : Template (Action H)} {props : Props} {c : Component H}
    (h : c.InstanceOf t props) (ht : t.Everywhere P) : c.Each (fun c => P c.template) fun _ => True := by
  induction h with
  | mk channel indices flags placed kids ih =>
    refine ⟨ht.self, trivial, eachOf_iff.2 fun n hn => ?_⟩
    obtain ⟨u, bindings, child, hp, hblock⟩ := placed n hn
    rw [hblock]
    exact ih n hn u bindings child hp hblock (ht.child hp)

/-- the same with the blocks in the slots of an instance -/
theorem Component.furnished_each {t : Template (Action H)} {options : Options H} (ht : t.Everywhere P)
    (h : ∀ e ∈ options.slots, e.2.Each (fun c => P c.template) fun _ => True) (w : World H) :
    (furnished t options w).Each (fun c => P c.template) fun _ => True := by
  have heach := (ofTemplate_instance t options.props w).each ht
  unfold furnished
  generalize (ofTemplate t options.props w).1 = c at heach
  obtain ⟨core, slots, children⟩ := c
  refine ⟨heach.1, eachOf_iff.2 fun n hn => ?_, heach.2.2⟩
  obtain ⟨e, he, hb⟩ := mem_fillSlots hn
  exact hb ▸ h e he

end

end LiveMarkup
