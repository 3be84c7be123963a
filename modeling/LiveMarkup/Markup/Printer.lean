/-
Writing markup. Every piece is a function to `String`; a forest is written piece after piece.

An attribute with an empty value is written as its name alone, a void element has no end tag, and text inside a raw
text element is written as it is.
-/
import LiveMarkup.Markup.Basic
import LiveMarkup.Markup.Entity

namespace LiveMarkup.Markup

def printAttribute (name value : String) : String :=
  if value.isEmpty then " " ++ name
  else " " ++ name ++ "=\"" ++ escape .attributeValue value ++ "\""

def printAttributes : Attributes → String
  | [] => ""
  | (name, value) :: rest => printAttribute name value ++ printAttributes rest

def printStart (tag : String) (attributes : Attributes) : String :=
  "<" ++ tag ++ printAttributes attributes ++ ">"

/-- an end tag; nothing for a void element -/
def printEnd (tag : String) : String :=
  if isVoid tag then "" else "</" ++ tag ++ ">"

/-- text below an element with tag `parent`, if it has one -/
def printText (parent : Option String) (data : String) : String :=
  if parent.any isRawText then data else escape .content data

def printComment (data : String) : String := "<!--" ++ data ++ "-->"

mutual
/-- a node below an element with tag `parent`, if it has one -/
def Node.print (parent : Option String) : Node → String
  | .element tag attributes children =>
    printStart tag attributes ++ printAll (some tag) children ++ printEnd tag
  | .text data => printText parent data
  | .comment data => printComment data
def printAll (parent : Option String) : List Node → String
  | [] => ""
  | n :: ns => n.print parent ++ printAll parent ns
end

/-- a forest at the top level -/
def print (nodes : List Node) : String := printAll none nodes

end LiveMarkup.Markup
