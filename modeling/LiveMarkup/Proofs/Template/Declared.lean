/-
A template reads what it declares.

`Template.props` and `Template.slots` list names for whoever uses a template. `render_congr`: rendering looks at no other
names, neither itself nor for the templates that are embedded, since an embedded template is handed on only what the
enclosing one declares.
-/
import LiveMarkup.Template.Names
import LiveMarkup.Template.Render
import Mathlib.Data.List.Basic

namespace LiveMarkup

variable {A : Type} {p q : Props} {s s' : SlotMarkup}

namespace Template

/-- a prop is declared if a placeholder reads it -/
theorem mem_props {t : Template A} {name : String} : name ∈ t.props ↔ ∃ p ∈ t.placeholders, name ∈ propsOf p := by
  rw [props, List.mem_eraseDups, List.mem_flatMap]

/-- a slot is declared if a placeholder stands for it -/
theorem mem_slots {t : Template A} {name : String} : name ∈ t.slots ↔ Placeholder.slot name ∈ t.placeholders := by
  rw [slots, List.mem_eraseDups, List.mem_filterMap]
  constructor
  · rintro ⟨p, hp, he⟩
    cases p with
    | slot n =>
      obtain rfl := Option.some.inj he
      exact hp
    | _ => cases he
  · exact fun h => ⟨_, h, rfl⟩

end Template

theorem Props.text_congr {name : String} (h : p.get? name = q.get? name) : p.text name = q.text name := by
  rw [text, text, h]

/-- a child is handed on the same if the outer names of its bindings have the same values -/
theorem childProps_congr {bindings : List Binding} (h : ∀ b ∈ bindings, p.get? b.outer = q.get? b.outer) :
    childProps bindings p = childProps bindings q := by
  rw [childProps, childProps]
  refine congrArg Props.ofList (List.filterMap_congr fun b hb => ?_)
  rw [h b hb]

/-- the pieces are the same if what each placeholder reads is -/
theorem piecesOf_congr {ps : List (Placeholder A (Template A))}
    (hp : ∀ ph ∈ ps, ∀ name ∈ Template.propsOf ph, p.get? name = q.get? name)
    (hs : ∀ name, Placeholder.slot name ∈ ps → (s name).getD "" = (s' name).getD "") :
    piecesOf p s ps = piecesOf q s' ps := by
  induction ps with
  | nil => rfl
  | cons ph ps ih =>
    rw [List.forall_mem_cons] at hp
    obtain ⟨hread, hp⟩ := hp
    have hrest := ih hp fun name hin => hs name (List.mem_cons_of_mem _ hin)
    cases ph with
    | text prop => rw [piecesOf, piecesOf, hrest, Props.text_congr (hread prop List.mem_cons_self)]
    | «attribute» prop name => rw [piecesOf, piecesOf, hrest, Props.text_congr (hread prop List.mem_cons_self)]
    | event name topic => rw [piecesOf, piecesOf, hrest]
    | action run param => rw [piecesOf, piecesOf, hrest]
    | slot name => rw [piecesOf, piecesOf, hrest, hs name List.mem_cons_self]
    | child t bindings =>
      have hbindings : ∀ b ∈ bindings, p.get? b.outer = q.get? b.outer := fun b hb =>
        hread b.outer (List.mem_map_of_mem hb)
      rw [piecesOf, piecesOf, hrest, childProps_congr hbindings]

/-- rendering depends on the declared props and slots only -/
theorem Template.render_congr {t : Template A} (hp : ∀ name ∈ t.props, p.get? name = q.get? name)
    (hs : ∀ name ∈ t.slots, s name = s' name) : t.render p s = t.render q s' := by
  obtain ⟨segments, placeholders, skeleton⟩ := t
  rw [render, render, piecesOf_congr]
  · exact fun ph hph name hname => hp name (mem_props.2 ⟨ph, hph, hname⟩)
  · exact fun name hin => congrArg (Option.getD · "") (hs name (mem_slots.2 hin))

end LiveMarkup
