/-
Instances of a template, before anything is done with them, and how their slots are filled.

`Component.InstanceOf` says what an instance is made of: a core of which nothing has been created yet, no slot contents,
and for each child placeholder, in order, an instance of the embedded template for the props that are forwarded to it.

- `instance_of`: that is what `Component.ofTemplate` makes;
- `mem_fillSlots`, `mem_left_fillSlots`: what fills a slot, and what no slot takes, is part of what was given.
-/
import LiveMarkup.Component.Start
import LiveMarkup.Proofs.Template.Spots

namespace LiveMarkup

variable {H : Host}

/-! ## Instances -/

/-- the core of a component of which nothing has been created yet -/
def Core.initial (template : Template (Action H)) (props : Props) (channel : Nat) : Core H :=
  { template, phase := .unmounted, props, slotContext := ∅, roots := [], textCells := [], attributeCells := [],
    cleanups := [], updateHooks := [], channel }

inductive Component.InstanceOf : Template (Action H) → Props → Component H → Prop
  | mk {t : Template (Action H)} {props : Props} (channel : Nat) {children : List (Nested H)}
      (indices : children.map Nested.index = indicesOf t.placeholders .child)
      (flags : ∀ n ∈ children, n.atRoot = false)
      (placed : ∀ n ∈ children, ∃ u bindings child,
        t.placeholders[n.index]? = some (.child u bindings) ∧ n.block = .component child)
      (kids : ∀ n ∈ children, ∀ u bindings child, t.placeholders[n.index]? = some (.child u bindings) →
        n.block = .component child → InstanceOf u (childProps bindings props) child) :
      InstanceOf t props (.mk (.initial t props channel) [] children)

/-- a row of instances, one for each child placeholder among `ps`, which begin with number `index` -/
structure InstancesOf (index : Nat) (ps : List (Placeholder (Action H) (Template (Action H)))) (props : Props)
    (row : List (Nested H)) : Prop where
  indices : row.map Nested.index = ((ps.zipIdx index).filter (·.1.category = .child)).map (·.2)
  flags : ∀ n ∈ row, n.atRoot = false
  kids : ∀ n ∈ row, ∃ u bindings child, (.child u bindings, n.index) ∈ ps.zipIdx index ∧
    n.block = .component child ∧ child.InstanceOf u (childProps bindings props)

/-- a placeholder that embeds no template brings no child -/
theorem childrenOf_of_not_child {p : Placeholder (Action H) (Template (Action H))}
    (hp : ∀ t bindings, p ≠ .child t bindings) (index : Nat) (ps : List (Placeholder (Action H) (Template (Action H))))
    (props : Props) (w : World H) : childrenOf index (p :: ps) props w = childrenOf (index + 1) ps props w := by
  cases p with
  | child t bindings => exact absurd rfl (hp t bindings)
  | _ => rfl

namespace InstancesOf

variable {index : Nat} {ps : List (Placeholder (Action H) (Template (Action H)))} {props : Props}
  {row : List (Nested H)}

theorem skip {p : Placeholder (Action H) (Template (Action H))} (hp : ∀ t bindings, p ≠ .child t bindings)
    (h : InstancesOf (index + 1) ps props row) : InstancesOf index (p :: ps) props row := by
  have hcategory : p.category ≠ .child := by
    cases p with
    | child t bindings => exact absurd rfl (hp t bindings)
    | _ => exact nofun
  refine ⟨?_, h.flags, fun n hn => ?_⟩
  · rw [List.zipIdx_cons, List.filter_cons_of_neg (by simpa using hcategory)]
    exact h.indices
  · obtain ⟨u, bindings, child, hp, hkid⟩ := h.kids n hn
    exact ⟨u, bindings, child, List.mem_cons_of_mem _ hp, hkid⟩

theorem cons {t : Template (Action H)} {bindings : List Binding} {child : Component H}
    (hc : child.InstanceOf t (childProps bindings props)) (h : InstancesOf (index + 1) ps props row) :
    InstancesOf index (.child t bindings :: ps) props (.mk index false (.component child) :: row) := by
  refine ⟨?_, List.forall_mem_cons.2 ⟨rfl, h.flags⟩, List.forall_mem_cons.2 ⟨?_, fun n hn => ?_⟩⟩
  · rw [List.zipIdx_cons, List.filter_cons_of_pos (by simp [Placeholder.category]), List.map_cons, List.map_cons,
      h.indices]
    rfl
  · exact ⟨t, bindings, child, List.mem_cons_self, rfl, hc⟩
  · obtain ⟨u, bs, c, hp, hkid⟩ := h.kids n hn
    exact ⟨u, bs, c, List.mem_cons_of_mem _ hp, hkid⟩

theorem component {t : Template (Action H)} (h : InstancesOf 0 t.placeholders props row) (channel : Nat) :
    (Component.mk (.initial t props channel) [] row).InstanceOf t props := by
  refine .mk channel h.indices h.flags (fun n hn => ?_) fun n hn u bindings child hp hblock => ?_
  · obtain ⟨u, bindings, child, hp, hblock, -⟩ := h.kids n hn
    exact ⟨u, bindings, child, List.mem_zipIdx_iff_getElem?.1 hp, hblock⟩
  · obtain ⟨u', bs, child', hp', hblock', hchild⟩ := h.kids n hn
    have hsame := (List.mem_zipIdx_iff_getElem?.1 hp').symm.trans hp
    obtain ⟨rfl, rfl⟩ := Placeholder.child.inj (Option.some.inj hsame)
    obtain rfl := Block.component.inj (hblock'.symm.trans hblock)
    exact hchild

end InstancesOf

/-- what is made of a template is an instance of it -/
theorem Component.ofTemplate_instance (t : Template (Action H)) (props : Props) (w : World H) :
    (ofTemplate t props w).1.InstanceOf t props := by
  refine (ofTemplate.mutual_induct (fun t props w => (ofTemplate t props w).1.InstanceOf t props)
    (fun index ps props w => InstancesOf index ps props (childrenOf index ps props w).1) ?_ ?_ ?_ ?_).1 t props w
  · intro segments placeholders skeleton props w opened channel hopened children made hchildren ih
    rw [ofTemplate, hopened]
    exact ih.component channel
  · intro index props w
    exact ⟨rfl, List.forall_mem_nil _, List.forall_mem_nil _⟩
  · intro index t bindings ps props w c made hc children rest hchildren ihc ihps
    rw [hc] at ihc
    rw [childrenOf, hc]
    exact ihps.cons ihc
  · intro index p ps props w hp ih
    rw [childrenOf_of_not_child hp]
    exact ih.skip hp

namespace Component.InstanceOf

variable {t : Template (Action H)} {ps : Props} {c : Component H}

theorem template (h : c.InstanceOf t ps) : c.core.template = t := by
  cases h
  rfl

theorem props (h : c.InstanceOf t ps) : c.props = ps := by
  cases h
  rfl

end Component.InstanceOf

/-! ## Slots -/

theorem fillSlots_nil {T : Type} (ps : List (Placeholder (Action H) T)) (index : Nat) :
    fillSlots index ps ([] : Entries (Block H)) = ([], []) := by
  induction ps generalizing index with
  | nil => rfl
  | cons p ps ih =>
    cases p with
    | slot name => exact ih (index + 1)
    | _ => exact ih (index + 1)

section

variable {T : Type} {ps : List (Placeholder (Action H) T)} {index : Nat} {contents : Entries (Block H)}

/-- a slot is filled with what it was given -/
theorem mem_fillSlots {n : Nested H} (h : n ∈ (fillSlots index ps contents).1) : ∃ e ∈ contents, n.block = e.2 := by
  induction ps generalizing index contents with
  | nil => exact absurd h List.not_mem_nil
  | cons p ps ih =>
    cases p with
    | slot name =>
      rw [fillSlots] at h
      split at h
      · next block hget =>
        rcases List.mem_cons.1 h with rfl | h
        · exact ⟨_, Entries.mem_of_get? hget, rfl⟩
        · obtain ⟨e, he, hb⟩ := ih h
          exact ⟨e, List.mem_of_mem_filter he, hb⟩
      · exact ih h
    | _ => exact ih h

/-- what no slot takes is part of what was given -/
theorem mem_left_fillSlots {e : String × Block H} (h : e ∈ (fillSlots index ps contents).2) : e ∈ contents := by
  induction ps generalizing index contents with
  | nil => exact h
  | cons p ps ih =>
    cases p with
    | slot name =>
      rw [fillSlots] at h
      split at h
      · exact List.mem_of_mem_filter (ih h)
      · exact ih h
    | _ => exact ih h

end

end LiveMarkup
