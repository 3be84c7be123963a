/-
The names that a template declares: the props it reads, the event aliases it fires, the slots it offers.
Each list is in order of first appearance, without repetition.
-/
import LiveMarkup.Template.Basic

namespace LiveMarkup.Template

variable {A : Type}

/-- the props that one placeholder reads -/
def propsOf {T : Type} : Placeholder A T → List String
  | .text prop => [prop]
  | .attribute prop _ => [prop]
  | .action _ param => param.toList
  | .child _ bindings => bindings.map (·.outer)
  | .event .. => []
  | .slot _ => []

/-- the props that the template reads: for text, attributes, action parameters and children -/
def props (t : Template A) : List String := (t.placeholders.flatMap propsOf).eraseDups

/-- the aliases that subscribers can listen to -/
def events (t : Template A) : List String :=
  (t.placeholders.filterMap fun p => match p with
    | .event _ topic => some topic
    | _ => none).eraseDups

/-- the slots that take content -/
def slots (t : Template A) : List String :=
  (t.placeholders.filterMap fun p => match p with
    | .slot name => some name
    | _ => none).eraseDups

end LiveMarkup.Template
