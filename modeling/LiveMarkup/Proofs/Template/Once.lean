/-
Names that are bound once.

A template is rendered from its props alone, while a change set reaches a component value by value. Where an element
binds a name twice, or a child placeholder a prop of the child, the last binding wins when the template is rendered and
the last change when it is updated. `BindsOnce` excludes both.

- `get?_forwarded`: what is forwarded to a child under a name is what the one binding of that name finds;
- `BindsOnce.nodup`: the names that an element binds are distinct.
-/
import LiveMarkup.Component.Update
import LiveMarkup.Proofs.Template.Planted

namespace LiveMarkup

open Markup Marker Forest

/-! ## Props -/

namespace Props

/-- a name that no entry has keeps its value -/
theorem get?_extend_of_not_mem (p : Props) {es : Entries Value} {name : String} (h : name ∉ es.names) :
    (p.extend es).get? name = p.get? name := by
  induction es generalizing p with
  | nil => rfl
  | cons e es ih =>
    rw [Entries.names_cons, List.mem_cons, not_or] at h
    have := ih (p.insert e.1 e.2) h.2
    rw [get?_insert, if_neg h.1] at this
    exact this

/-- a name whose entries agree has their value -/
theorem get?_extend_of_mem (p : Props) {es : Entries Value} {name : String} {value : Value} (h : name ∈ es.names)
    (hv : ∀ e ∈ es, e.1 = name → e.2 = value) : (p.extend es).get? name = some value := by
  induction es generalizing p with
  | nil => cases h
  | cons e es ih =>
    rw [List.forall_mem_cons] at hv
    by_cases hin : name ∈ Entries.names es
    · exact ih (p.insert e.1 e.2) hin hv.2
    · obtain rfl : name = e.1 := (List.mem_cons.1 h).resolve_right hin
      have := get?_extend_of_not_mem (p.insert e.1 e.2) hin
      rw [get?_insert, if_pos rfl] at this
      exact this.trans (congrArg some (hv.1 rfl))

/-- the values of a change set come before those that were there -/
theorem get?_extend (p changed : Props) (name : String) :
    (p.extend changed.entries).get? name = (changed.get? name).or (p.get? name) := by
  cases hc : changed.get? name with
  | none => rw [get?_extend_of_not_mem p (Entries.get?_eq_none_iff.1 hc), Option.none_or]
  | some value =>
    have hmem := Entries.mem_of_get? hc
    refine get?_extend_of_mem p (List.mem_map_of_mem (f := Prod.fst) hmem) fun e he hn => ?_
    have := Entries.get?_of_mem changed.nodup he
    rw [hn] at this
    exact Option.some.inj (this.symm.trans hc)

theorem text_insert (p : Props) (name : String) (value : Value) (n : String) :
    (p.insert name value).text n = if n = name then value.toText else p.text n := by
  rw [text, get?_insert]
  split <;> rfl

end Props

/-! ## What a child is given -/

section

variable {bindings : List Binding} {p changed : Props}

/-- the prop that a child's prop is bound to -/
def outerOf? (bindings : List Binding) (name : String) : Option String :=
  (bindings.find? (·.child == name)).map (·.outer)

/-- a table of what bindings find in `p` -/
theorem get?_ofList_bindings (hn : (bindings.map Binding.child).Nodup) {es : Entries Value}
    (hes : ∀ name value, (name, value) ∈ es ↔ ∃ b ∈ bindings, b.child = name ∧ p.get? b.outer = some value)
    (name : String) : (Props.ofList es).get? name = (outerOf? bindings name).bind p.get? := by
  cases hb : bindings.find? (·.child == name) with
  | none =>
    rw [outerOf?, hb]
    refine Props.get?_extend_of_not_mem ∅ fun hin => ?_
    obtain ⟨⟨n, value⟩, he, rfl⟩ := List.mem_map.1 hin
    obtain ⟨b, hbin, rfl, -⟩ := (hes n value).1 he
    exact List.find?_eq_none.1 hb b hbin (beq_self_eq_true _)
  | some b =>
    have hbin := List.mem_of_find?_eq_some hb
    have hname := List.find?_some hb
    obtain rfl : b.child = name := eq_of_beq hname
    have honly : ∀ value, (b.child, value) ∈ es ↔ p.get? b.outer = some value := by
      intro value
      rw [hes]
      constructor
      · rintro ⟨a, ha, hab, hv⟩
        rwa [List.inj_on_of_nodup_map hn ha hbin hab] at hv
      · exact fun hv => ⟨b, hbin, rfl, hv⟩
    rw [outerOf?, hb]
    show _ = p.get? b.outer
    cases hv : p.get? b.outer with
    | none =>
      refine Props.get?_extend_of_not_mem ∅ fun hin => ?_
      obtain ⟨⟨n, value⟩, he, hne⟩ := List.mem_map.1 hin
      obtain rfl : n = b.child := hne
      rw [(honly value).1 he] at hv
      cases hv
    | some value =>
      refine Props.get?_extend_of_mem ∅ (List.mem_map_of_mem (f := Prod.fst) ((honly value).2 hv)) ?_
      rintro ⟨n, v⟩ he hne
      obtain rfl : n = b.child := hne
      exact Option.some.inj (((honly v).1 he).symm.trans hv)

theorem get?_forwarded (hn : (bindings.map Binding.child).Nodup) (changed : Props) (name : String) :
    (forwarded bindings changed).get? name = (outerOf? bindings name).bind changed.get? := by
  refine get?_ofList_bindings hn (fun n value => ?_) name
  rw [List.mem_flatMap]
  constructor
  · rintro ⟨e, he, hin⟩
    obtain ⟨b, hb, hbe⟩ := List.mem_map.1 hin
    obtain ⟨hb, ho⟩ := List.mem_filter.1 hb
    obtain ⟨rfl, rfl⟩ := Prod.mk.inj hbe
    refine ⟨b, hb, rfl, ?_⟩
    rw [eq_of_beq ho]
    exact Entries.get?_of_mem changed.nodup he
  · rintro ⟨b, hb, rfl, hv⟩
    refine ⟨(b.outer, value), Entries.mem_of_get? hv, List.mem_map.2 ⟨b, List.mem_filter.2 ⟨hb, ?_⟩, rfl⟩⟩
    exact beq_self_eq_true _

end

/-! ## Elements -/

mutual
def Markup.Node.BindsOnce (pieces : List Piece) : Markup.Node → Prop
  | .element _ attributes children => (boundNames pieces attributes).Nodup ∧ BindsOnce pieces children
  | .text _ => True
  | .comment _ => True
def BindsOnce (pieces : List Piece) : List Markup.Node → Prop
  | [] => True
  | n :: ns => n.BindsOnce pieces ∧ BindsOnce pieces ns
end

mutual
theorem Markup.Node.BindsOnce.nodup {pieces : List Piece} : {n : Markup.Node} → n.BindsOnce pieces →
    ∀ as ∈ attributesOf n, (boundNames pieces as).Nodup
  | .element _ _ _, ⟨ha, hc⟩ => List.forall_mem_cons.2 ⟨ha, hc.nodup⟩
  | .text _, _ => fun _ h => absurd h List.not_mem_nil
  | .comment _, _ => fun _ h => absurd h List.not_mem_nil
/-- the names that an element binds are distinct -/
theorem BindsOnce.nodup {pieces : List Piece} : {ns : List Markup.Node} → BindsOnce pieces ns →
    ∀ as ∈ attributesOfAll ns, (boundNames pieces as).Nodup
  | [], _ => fun _ h => absurd h List.not_mem_nil
  | _ :: _, ⟨hn, hns⟩ => List.forall_mem_append.2 ⟨hn.nodup, hns.nodup⟩
end

namespace Template

variable {A : Type}

/-- no element binds an attribute name twice, and no child placeholder a prop of its child -/
structure BindsOnce (t : Template A) : Prop where
  elements : LiveMarkup.BindsOnce (piecesOf ∅ SlotMarkup.none t.placeholders) t.skeleton
  children : ∀ u bindings, .child u bindings ∈ t.placeholders → (bindings.map Binding.child).Nodup

/-- one attribute alone does not bind a name twice -/
theorem nodup_boundNames_singleton (pieces : List Piece) (a : String × String) : (boundNames pieces [a]).Nodup := by
  rw [boundNames, List.filterMap_cons]
  split
  · exact List.nodup_nil
  · exact List.nodup_singleton _

theorem framed_bindsOnce : (framed : Template A).Everywhere BindsOnce := by
  refine ⟨⟨⟨⟨List.nodup_nil, ⟨List.nodup_nil, trivial⟩, trivial⟩, trivial⟩, fun u bindings h => ?_⟩,
    ⟨⟨⟨⟨nodup_boundNames_singleton _ _, ⟨List.nodup_nil, trivial⟩, trivial⟩, trivial⟩, fun u bindings h => ?_⟩,
      trivial⟩, trivial⟩
  · cases h with
    | head => decide +kernel
    | tail _ h => cases h
  · cases h with
    | tail _ h => cases h with
      | tail _ h => cases h

end Template

end LiveMarkup
