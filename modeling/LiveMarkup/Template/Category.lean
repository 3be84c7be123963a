/-
The ways a placeholder binds to the document.

`Category.word` is the name of a category; `indicesOf` gathers the positions of one category in a list, in ascending
order.
-/
namespace LiveMarkup

/-- how a placeholder binds -/
inductive Category where
  | text
  | attribute
  | event
  | action
  | slot
  | child
deriving DecidableEq, Repr, Inhabited

namespace Category

/-- all categories, in the order in which they are looked through -/
def all : List Category := [.text, .attribute, .event, .action, .slot, .child]

def word : Category → String
  | .text => "text"
  | .attribute => "attribute"
  | .event => "event"
  | .action => "action"
  | .slot => "slot"
  | .child => "child"

/-- whether the marker of this category stands inside a tag, as an attribute -/
def inTag : Category → Bool
  | .attribute | .event | .action => true
  | .text | .slot | .child => false

end Category

end LiveMarkup
