/-
Inspection text: values of the library written out on one line, for reading by people.

A record is its name and its fields, `Name` and in braces `field: value`; an open record ends its fields with two dots.
-/
import LiveMarkup.Text.Quoted

namespace LiveMarkup

/-- texts with a separator between them -/
def joined (separator : String) : List String → String
  | [] => ""
  | [s] => s
  | s :: ss => s ++ separator ++ joined separator ss

/-- a record with fields; an open one has more than are shown -/
def record (name : String) (fields : List (String × String)) (isOpen : Bool) : String :=
  let parts := fields.map (fun f => f.1 ++ ": " ++ f.2) ++ (if isOpen then [".."] else [])
  if parts.isEmpty then name else name ++ " \x7b " ++ joined ", " parts ++ " \x7d"

def optional (inner : Option String) : String :=
  match inner with
  | some s => "Some(" ++ s ++ ")"
  | none => "None"

def bracketed (items : List String) : String := "[" ++ joined ", " items ++ "]"

end LiveMarkup
