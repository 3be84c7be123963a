/-
Inspection text of components and of what actions leave behind.
-/
import LiveMarkup.Text.Record
import LiveMarkup.Component.Basic

namespace LiveMarkup

variable {H : Host}

def flagText (b : Bool) : String := if b then "true" else "false"

def Handle.inspect (h : Handle H) : String :=
  record "ActionHandle" [("update", flagText h.update.isSome), ("destroy", flagText h.destroy.isSome)] false

def Component.inspect (c : Component H) (w : World H) : String :=
  record "Component"
    [("skeleton", "_"), ("state", c.state.word), ("roots", bracketed (c.roots.map w.document.inspect)),
      ("slots", toString c.slots.length), ("children", toString c.children.length)] true

end LiveMarkup
