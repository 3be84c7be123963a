/-
Rendering a template to markup, without a document.

Every placeholder first yields a `Piece` for the given props: what it writes at its marker. One walk over the skeleton
then writes the tree, with the pieces in place of the markers. Where several pieces or literal attributes of an element
share a name, the last binding alone is written; event and action markers write nothing, and so does a marker whose
placeholder is of another kind.
-/
import LiveMarkup.Props
import LiveMarkup.Template.Marker
import LiveMarkup.Template.Basic

namespace LiveMarkup

open Markup

variable {A : Type}

/-- what a placeholder writes at its marker -/
inductive Piece where
  | text (data : String)
  | attribute (name value : String)
  | slot (markup : String)
  | child (markup : String)
  | silent
deriving DecidableEq, Repr, Inhabited

/-- slot content by slot name -/
abbrev SlotMarkup := String → Option String

def SlotMarkup.none : SlotMarkup := fun _ => Option.none

/-- an enclosing component's props as a child sees them -/
def childProps (bindings : List Binding) (props : Props) : Props :=
  Props.ofList (bindings.filterMap fun b => (props.get? b.outer).map (b.child, ·))

/-! ## The walk -/

/-- the attribute that an attribute's marker writes, if its name is such a marker -/
def boundAttribute? (pieces : List Piece) (name : String) : Option (String × String) :=
  match Marker.ofAttribute? name with
  | some ⟨.attribute, index⟩ =>
    match pieces[index]? with
    | some (.attribute n v) => some (n, v)
    | _ => none
  | _ => none

/-- the names that the attribute markers in a list bind -/
def boundNames (pieces : List Piece) (attributes : Attributes) : List String :=
  attributes.filterMap fun a => (boundAttribute? pieces a.1).map (·.1)

/-- the attributes that are written, given all names bound on the element -/
def settleAttributes (pieces : List Piece) (bound : List String) : Attributes → Attributes
  | [] => []
  | (name, value) :: rest =>
    let settled := settleAttributes pieces bound rest
    match Marker.ofAttribute? name with
    | some _ =>
      match boundAttribute? pieces name with
      | some (n, v) => if (boundNames pieces rest).contains n then settled else (n, v) :: settled
      | none => settled
    | none => if bound.contains name then settled else (name, value) :: settled

/-- what an element marker writes below an element with tag `parent`, if it has one -/
def writeMarker (pieces : List Piece) (parent : Option String) (m : Marker) : String :=
  match m.category, pieces[m.index]? with
  | .text, some (.text data) => printText parent data
  | .slot, some (.slot markup) => markup
  | .child, some (.child markup) => markup
  | _, _ => ""

mutual
def writeNode (pieces : List Piece) (parent : Option String) : Markup.Node → String
  | .element tag attributes children =>
    match Marker.ofTag? tag with
    | some m => writeMarker pieces parent m
    | none =>
      printStart tag (settleAttributes pieces (boundNames pieces attributes) attributes) ++
        writeNodes pieces (some tag) children ++ printEnd tag
  | .text data => printText parent data
  | .comment data => printComment data
/-- a forest of the skeleton with the pieces in place -/
def writeNodes (pieces : List Piece) (parent : Option String) : List Markup.Node → String
  | [] => ""
  | n :: ns => writeNode pieces parent n ++ writeNodes pieces parent ns
end

/-! ## Templates -/

mutual
/-- a template as markup, with these props and this slot content -/
def Template.render (props : Props) (slots : SlotMarkup) : Template A → String
  | ⟨_, placeholders, skeleton⟩ => writeNodes (piecesOf props slots placeholders) none skeleton
/-- what each placeholder writes; a child is given no slot content -/
def piecesOf (props : Props) (slots : SlotMarkup) : List (Placeholder A (Template A)) → List Piece
  | [] => []
  | .text prop :: ps => .text (props.text prop) :: piecesOf props slots ps
  | .attribute prop name :: ps => .attribute name (props.text prop) :: piecesOf props slots ps
  | .event _ _ :: ps => .silent :: piecesOf props slots ps
  | .action _ _ :: ps => .silent :: piecesOf props slots ps
  | .slot name :: ps => .slot ((slots name).getD "") :: piecesOf props slots ps
  | .child template bindings :: ps =>
    .child (template.render (childProps bindings props) SlotMarkup.none) :: piecesOf props slots ps
end

end LiveMarkup
