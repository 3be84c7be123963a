/-
Templates: literal segments that alternate with placeholders.

A definition gives a `Hole` between every two segments: a plain prop name or a directive. Classification turns each hole
into a `Placeholder`, and a `Template` keeps the segments as given, the placeholders and the skeleton: the markup tree
of the segments with a marker for every placeholder. A child placeholder holds the template it embeds.

Everything here is generic in `A`, the type of actions, so that templates do not depend on a document.
-/
import LiveMarkup.Markup.Printer
import LiveMarkup.Template.Category

namespace LiveMarkup

/-- forwards the enclosing template's prop `outer` to the child's prop `child` -/
structure Binding where
  child : String
  outer : String
deriving DecidableEq, Repr, Inhabited

/-- a classified placeholder; `T` is the type of embedded templates -/
inductive Placeholder (A T : Type) where
  | text (prop : String)
  | attribute (prop name : String)
  | event (event topic : String)
  | action (run : A) (param : Option String)
  | slot (name : String)
  | child (template : T) (bindings : List Binding)

def Placeholder.category {A T : Type} : Placeholder A T → Category
  | .text _ => .text
  | .attribute .. => .attribute
  | .event .. => .event
  | .action .. => .action
  | .slot _ => .slot
  | .child .. => .child

structure Template (A : Type) where
  /-- the literal segments as given -/
  segments : List String
  placeholders : List (Placeholder A (Template A))
  /-- the markup tree that carries the markers -/
  skeleton : List Markup.Node

namespace Template

variable {A : Type}

def markup (t : Template A) : String := Markup.print t.skeleton

end Template

/-- the positions of the placeholders of a category, ascending -/
def indicesOf {A T : Type} (placeholders : List (Placeholder A T)) (category : Category) : List Nat :=
  (placeholders.zipIdx.filter (·.1.category = category)).map (·.2)

/-- the category whose positions include `index` -/
def categoryOf? {A T : Type} (placeholders : List (Placeholder A T)) (index : Nat) : Option Category :=
  Category.all.find? fun category => (indicesOf placeholders category).contains index

/-! ## Holes -/

/-- a placeholder that is more than a plain prop name, as it is written in a definition -/
inductive Directive (A : Type) where
  | event (event : String) (topic : Option String)
  | action (run : A) (param : Option String)
  | slot (name : Option String)
  | component (template : Template A) (segments outer : List String)

/-- what stands between two segments of a definition -/
inductive Hole (A : Type) where
  | name (prop : String)
  | directive (d : Directive A)

end LiveMarkup
