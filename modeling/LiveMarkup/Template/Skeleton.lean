/-
Skeletons: the markup tree of a definition, with a marker for every placeholder.

The trimmed segments are joined with the markers, the result is read once, and every marker has to stand in the tree
exactly once, as a tag or an attribute name according to its category. `Template.define` does all of it.
-/
import LiveMarkup.Markup.Reader
import LiveMarkup.Template.Marker
import LiveMarkup.Template.Classified

namespace LiveMarkup

open Markup

variable {A T : Type}

/-- a marker as it is written between two segments -/
def Marker.source (m : Marker) : String :=
  if m.category.inTag then " " ++ m.name ++ " "
  else "<" ++ m.name ++ "></" ++ m.name ++ ">"

/-- segments joined with the markers of the placeholders between them, from number `index` on -/
def skeletonSource (index : Nat) : List String → List (Placeholder A T) → String
  | [], _ => ""
  | segment :: segments, [] => segment ++ skeletonSource (index + 1) segments ([] : List (Placeholder A T))
  | segment :: segments, p :: ps =>
    segment ++ Marker.source ⟨p.category, index⟩ ++ skeletonSource (index + 1) segments ps

mutual
/-- the markers that a node and its descendants carry, in document order -/
def markersOf : Markup.Node → List Marker
  | .element tag attributes children =>
    (Marker.ofTag? tag).toList ++ attributes.filterMap (fun a => Marker.ofAttribute? a.1) ++ markersOfAll children
  | .text _ => []
  | .comment _ => []
def markersOfAll : List Markup.Node → List Marker
  | [] => []
  | n :: ns => markersOf n ++ markersOfAll ns
end

/-- the first marker, from number `index` on, that does not stand exactly once among `found` -/
def checkMarkers (found : List Marker) (index : Nat) : List (Placeholder A T) → Except DefinitionFault Unit
  | [] => .ok ()
  | p :: ps =>
    match found.count ⟨p.category, index⟩ with
    | 0 => .error (.missingMarker index p.category)
    | 1 => checkMarkers found (index + 1) ps
    | count => .error (.duplicateMarker index p.category count)

/-- the skeleton of trimmed segments and the placeholders between them -/
def skeletonOf (segments : List String) (placeholders : List (Placeholder A T)) :
    Except DefinitionFault (List Markup.Node) := do
  let nodes := read (skeletonSource 0 segments placeholders)
  checkMarkers (markersOfAll nodes) 0 placeholders
  return nodes

/-- the template of a definition -/
def Template.define (segments : List String) (holes : List (Hole A)) : Except DefinitionFault (Template A) := do
  let classified ← classify segments holes
  let skeleton ← skeletonOf classified.segments classified.placeholders
  return ⟨segments, classified.placeholders, skeleton⟩

end LiveMarkup
