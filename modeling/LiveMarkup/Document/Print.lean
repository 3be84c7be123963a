/-
A document as markup.

A live forest is read back as a markup forest, with fragments replaced by what they hold, and that is printed. So a live
tree and the markup tree of the same shape are written alike.
-/
import LiveMarkup.Text.Record
import LiveMarkup.Document.Basic

namespace LiveMarkup

def Forest.toMarkup {L : Type} : Forest (Node L) → List Markup.Node
  | .nil => []
  | .cons n cs rest =>
    (match n.kind with
      | .fragment => toMarkup cs
      | .element tag attributes => [.element tag attributes (toMarkup cs)]
      | .text data => [.text data]
      | .comment data => [.comment data]) ++ toMarkup rest

theorem Forest.toMarkup_append {L : Type} (f g : Forest (Node L)) : (f ++ g).toMarkup = f.toMarkup ++ g.toMarkup := by
  show (f.append g).toMarkup = _
  induction f with
  | nil => rfl
  | cons n cs rest _ ih => rw [append, toMarkup, toMarkup, ih, List.append_assoc]

/-- the text below a live forest; comments have none -/
def Forest.textContent {L : Type} : Forest (Node L) → String
  | .nil => ""
  | .cons n cs rest =>
    (match n.kind with
      | .fragment | .element .. => textContent cs
      | .text data => data
      | .comment _ => "") ++ textContent rest

/-- a node's own text, without what is below it -/
def Kind.inspect : Kind → String
  | .fragment => "#fragment"
  | .element tag _ => "<" ++ tag ++ ">"
  | .text data => "#text(" ++ quoted data ++ ")"
  | .comment data => "#comment(" ++ quoted data ++ ")"

namespace Document

variable {L : Type}

def treeOf (d : Document L) (id : NodeId) : Forest (Node L) :=
  match d.find? id with
  | some (n, cs) => .tree n cs
  | none => .nil

/-- a node as markup; a fragment as what it holds -/
def html (d : Document L) (id : NodeId) : String :=
  Markup.printAll ((d.parent? id).bind d.tag?) (d.treeOf id).toMarkup

def innerHtml (d : Document L) (id : NodeId) : String := Markup.printAll (d.tag? id) (d.childForest id).toMarkup

def textContent (d : Document L) (id : NodeId) : String := (d.treeOf id).textContent

def inspect (d : Document L) (id : NodeId) : String := ((d.kind? id).map Kind.inspect).getD ""

end Document

end LiveMarkup
