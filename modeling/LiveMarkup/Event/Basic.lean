/-
Events: a name and a value that goes with it.
-/
import LiveMarkup.Value

namespace LiveMarkup

structure Event where
  name : String
  detail : Value
deriving DecidableEq, Repr, Inhabited

end LiveMarkup
