/-
Classification: how each hole of a definition binds, decided by the hole and the literal text right before it.

A plain prop name after `name=` binds that attribute, and the `name=` is cut off the segment; any other plain name is
text content. Only the segment before a hole matters, so holes are classified one by one, and the first mistake in
order is the one reported. `attributeBefore?_eq` says what the cut leaves.
-/
import LiveMarkup.Text.Blank
import LiveMarkup.Template.Basic
import LiveMarkup.Template.Fault

namespace LiveMarkup

variable {A : Type}

/-- if the segment ends with `name=`: what is before the name, and the name, which may be empty -/
def attributeBefore? (segment : String) : Option (String × String) :=
  match segment.toList.reverse with
  | '=' :: back =>
    some (String.ofList (back.dropWhile (!isBlank ·)).reverse, String.ofList (back.takeWhile (!isBlank ·)).reverse)
  | _ => none

theorem attributeBefore?_eq {segment before name : String} (h : attributeBefore? segment = some (before, name)) :
    before ++ name ++ "=" = segment := by
  unfold attributeBefore? at h
  split at h
  · next back hb =>
    simp only [Option.some.injEq, Prod.mk.injEq] at h
    obtain ⟨rfl, rfl⟩ := h
    have hs : segment.toList = back.reverse ++ ['='] := by
      have := congrArg List.reverse hb
      simpa using this
    rw [← String.toList_inj]
    simp only [String.toList_append, String.toList_ofList, hs]
    rw [← List.reverse_append, List.takeWhile_append_dropWhile]
    rfl
  · simp at h

def requireName (name : String) (index : Nat) (role : NameRole) : Except DefinitionFault Unit :=
  if name.isEmpty then .error (.emptyName index role) else .ok ()

/-- one binding of a child: the segment ends with the child's prop, `outer` is the forwarded prop -/
def classifyBinding (index binding : Nat) (segment outer : String) : Except DefinitionFault Binding :=
  match attributeBefore? segment with
  | some (_, child) =>
    if child.isEmpty then .error (.childBinding index binding .noName)
    else if outer.isEmpty then .error (.childBinding index binding .emptyOuter)
    else .ok ⟨child, outer⟩
  | none => .error (.childBinding index binding .noName)

/-- the bindings of a child from number `binding` on -/
def classifyBindings (index binding : Nat) : List String → List String → Except DefinitionFault (List Binding)
  | segment :: segments, outer :: outers => do
    let b ← classifyBinding index binding segment outer
    let bs ← classifyBindings index (binding + 1) segments outers
    return b :: bs
  | _, _ => .ok []

/-- a hole and the segment before it, as trimmed segment and placeholder -/
def classifyHole (index : Nat) (segment : String) :
    Hole A → Except DefinitionFault (String × Placeholder A (Template A))
  | .name prop => do
    requireName prop index .prop
    match attributeBefore? segment with
    | some (before, name) =>
      if name.isEmpty then .error (.missingAttributeName index)
      else .ok (before, .attribute prop name)
    | none => .ok (segment, .text prop)
  | .directive (.event event topic) => do
    requireName event index .event
    let topic := topic.getD event
    requireName topic index .topic
    return (segment, .event event topic)
  | .directive (.action run param) => do
    match param with
    | some name => requireName name index .parameter
    | none => .ok ()
    return (segment, .action run param)
  | .directive (.slot name) => do
    let name := name.getD "default"
    requireName name index .slot
    return (segment, .slot name)
  | .directive (.component template segments outer) =>
    if segments.length = outer.length + 1 then do
      let bindings ← classifyBindings index 0 segments outer
      return (segment, .child template bindings)
    else .error (.childBinding index outer.length .count)

/-- segments with the `name=` of attribute placeholders cut off, and the placeholders between them -/
structure Classified (A : Type) where
  segments : List String
  placeholders : List (Placeholder A (Template A))

/-- classifies the holes from number `index` on, each with the segment before it -/
def classifyFrom (index : Nat) : List String → List (Hole A) → Except DefinitionFault (Classified A)
  | segment :: segments, hole :: holes => do
    let (trimmed, placeholder) ← classifyHole index segment hole
    let rest ← classifyFrom (index + 1) segments holes
    return ⟨trimmed :: rest.segments, placeholder :: rest.placeholders⟩
  | segments, _ => .ok ⟨segments, []⟩

/-- classifies the holes of a definition -/
def classify (segments : List String) (holes : List (Hole A)) : Except DefinitionFault (Classified A) :=
  if segments.length = holes.length + 1 then classifyFrom 0 segments holes
  else .error (.segmentCount holes.length segments.length)

end LiveMarkup
