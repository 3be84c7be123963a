/-
Markers: the spots that placeholders occupy in a skeleton.

Text, slot and child markers are empty elements, the others are attributes without value. A marker's name is the stem of
its category and its index in decimal. `ofTag?` and `ofAttribute?` read a name back, in any letter case; an index has to
be below `indexLimit`, so a number that is too large names no marker.
-/
import LiveMarkup.Text.Case
import LiveMarkup.Text.Numeral
import LiveMarkup.Template.Category

namespace LiveMarkup

/-- the spot of a placeholder -/
structure Marker where
  category : Category
  index : Nat
deriving DecidableEq, Repr, Inhabited

namespace Marker

/-- indices fit in 64 bits -/
def indexLimit : Nat := UInt64.size

/-- what the names of a category's markers begin with -/
def stem : Category → String
  | .text => "mc-text-"
  | .attribute => "data-attribute-"
  | .event => "data-event-"
  | .action => "data-action-"
  | .slot => "mc-slot-"
  | .child => "mc-child-"

/-- the tag or attribute name of a marker -/
def name (m : Marker) : String := stem m.category ++ toString m.index

/-- what follows `head` in a text that begins with it -/
def afterHead? : List Char → List Char → Option (List Char)
  | [], cs => some cs
  | _ :: _, [] => none
  | h :: hs, c :: cs => if h = c then afterHead? hs cs else none

/-- the marker of this category with this name -/
def ofName? (name : String) (category : Category) : Option Marker := do
  let digits ← afterHead? (stem category).toList (lowerChars name.toList)
  let index ← numberBelow? indexLimit 10 digits
  return ⟨category, index⟩

/-- the marker that a tag names -/
def ofTag? (tag : String) : Option Marker := [.text, .slot, .child].findSome? (ofName? tag)

/-- the marker that an attribute name names -/
def ofAttribute? (name : String) : Option Marker := [.attribute, .event, .action].findSome? (ofName? name)

end Marker

end LiveMarkup
