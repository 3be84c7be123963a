/-
What can go wrong in a component's life, and the message for it.
-/
import LiveMarkup.Text.Quoted

namespace LiveMarkup

inductive LifecycleFault where
  | alreadyMounted
  | alreadyDestroyed
  | updateAfterDestroy
  | missingMarker (marker : String)
deriving DecidableEq, Repr

def LifecycleFault.message : LifecycleFault → String
  | alreadyMounted => "the component is already mounted"
  | alreadyDestroyed => "the component was already destroyed"
  | updateAfterDestroy => "the component was destroyed and can't be updated until it's mounted again"
  | missingMarker marker => "marker " ++ quoted marker ++ " is missing from the instantiated skeleton"

theorem error_ne_ok {fault : LifecycleFault} : (.error fault : Except LifecycleFault Unit) ≠ .ok () := by
  rintro ⟨⟩

end LiveMarkup
