/-
What can be wrong with a template definition, and the message for it.
-/
import LiveMarkup.Template.Category

namespace LiveMarkup

inductive NameRole where
  | prop
  | event
  | topic
  | parameter
  | slot
deriving DecidableEq, Repr

def NameRole.word : NameRole → String
  | prop => "prop"
  | event => "event"
  | topic => "alias"
  | parameter => "parameter"
  | slot => "slot"

inductive BindingFault where
  | count
  | noName
  | emptyOuter
deriving DecidableEq, Repr

def BindingFault.reason : BindingFault → String
  | count => "there must be exactly one more segment than forwarded props"
  | noName => "the segment must end with `prop=`"
  | emptyOuter => "the forwarded prop name is empty"

inductive DefinitionFault where
  | segmentCount (placeholders segments : Nat)
  | emptyName (index : Nat) (role : NameRole)
  | missingAttributeName (index : Nat)
  | childBinding (index binding : Nat) (fault : BindingFault)
  | missingMarker (index : Nat) (category : Category)
  | duplicateMarker (index : Nat) (category : Category) (count : Nat)
deriving DecidableEq, Repr

def DefinitionFault.message : DefinitionFault → String
  | segmentCount placeholders segments =>
    toString placeholders ++ " placeholder(s) need " ++ toString (placeholders + 1) ++
      " literal segment(s), but " ++ toString segments ++ " were given"
  | emptyName index role => "placeholder " ++ toString index ++ " has an empty " ++ role.word ++ " name"
  | missingAttributeName index =>
    "placeholder " ++ toString index ++ " follows `=`, but no attribute name precedes it"
  | childBinding index binding fault =>
    "binding " ++ toString binding ++ " of the child component at placeholder " ++ toString index ++
      " is malformed: " ++ fault.reason
  | missingMarker index category =>
    "the " ++ category.word ++ " marker of placeholder " ++ toString index ++ " did not survive parsing " ++
      "(placeholders can't appear inside quoted attribute values, and directives only inside tags)"
  | duplicateMarker index category count =>
    "the " ++ category.word ++ " marker of placeholder " ++ toString index ++ " appears " ++ toString count ++
      " times"

end LiveMarkup
