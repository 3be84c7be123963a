/-
Inspection text of templates and of what they are made from.

Actions have no text, and a skeleton is written as an underscore, since only its identity would stand there.
-/
import LiveMarkup.Text.Record
import LiveMarkup.Template.Basic

namespace LiveMarkup

variable {A T : Type}

def Binding.inspect (b : Binding) : String :=
  record "Binding" [("child", quoted b.child), ("outer", quoted b.outer)] false

def Placeholder.inspect : Placeholder A T → String
  | .text prop => record "Text" [("prop", quoted prop)] false
  | .attribute prop name => record "Attribute" [("prop", quoted prop), ("attribute", quoted name)] false
  | .event name topic => record "Event" [("event", quoted name), ("alias", quoted topic)] false
  | .action _ param => record "Action" [("param", optional (param.map quoted))] true
  | .slot name => record "Slot" [("name", quoted name)] false
  | .child _ bindings =>
    record "Child" [("skeleton", "_"), ("bindings", bracketed (bindings.map Binding.inspect))] false

def Directive.inspect : Directive A → String
  | .event name topic => record "On" [("event", quoted name), ("alias", optional (topic.map quoted))] false
  | .action _ param => record "Use" [("param", optional (param.map quoted))] true
  | .slot name => record "Slot" [("name", optional (name.map quoted))] false
  | .component _ segments outer =>
    record "Component"
      [("segments", bracketed (segments.map quoted)), ("outer", bracketed (outer.map quoted))] true

def Hole.inspect : Hole A → String
  | .name prop => "Name(" ++ quoted prop ++ ")"
  | .directive d => "Directive(" ++ d.inspect ++ ")"

def Template.inspect (t : Template A) : String :=
  record "Template"
    [("segments", bracketed (t.segments.map quoted)),
      ("placeholders", bracketed (t.placeholders.map Placeholder.inspect)), ("skeleton", "_")] false

end LiveMarkup
