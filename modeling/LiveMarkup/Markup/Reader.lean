/-
Reading markup into a forest.

Tokens go one by one into a `Nest`: the forest read so far and the stack of elements that are still open. A start tag
opens an element, an end tag closes everything down to the innermost open element of that tag and is dropped if there
is none, and what is open at the end is closed there. So every text has a forest.
-/
import LiveMarkup.Markup.Token

namespace LiveMarkup.Markup

structure Frame where
  tag : String
  attributes : Attributes
  children : List Node
deriving DecidableEq, Repr

def Frame.close (f : Frame) : Node := .element f.tag f.attributes f.children

/-- the forest read so far, and the elements still open, innermost first -/
structure Nest where
  done : List Node
  stack : List Frame
deriving DecidableEq, Repr

namespace Nest

/-- adds a complete node to the innermost open element, or to the forest -/
def add (n : Node) : Nest → Nest
  | ⟨done, []⟩ => ⟨done ++ [n], []⟩
  | ⟨done, f :: fs⟩ => ⟨done, { f with children := f.children ++ [n] } :: fs⟩

def pop : Nest → Nest
  | ⟨done, []⟩ => ⟨done, []⟩
  | ⟨done, f :: fs⟩ => add f.close ⟨done, fs⟩

def popMany : Nat → Nest → Nest
  | 0, nest => nest
  | k + 1, nest => popMany k nest.pop

/-- closes everything down to the innermost open element with this tag; nothing if there is none -/
def closeTag (tag : String) (nest : Nest) : Nest :=
  match nest.stack.findIdx? (sameLetters ·.tag tag) with
  | some k => nest.popMany (k + 1)
  | none => nest

/-- takes one token in -/
def step (nest : Nest) : Token → Nest
  | .node n => nest.add n
  | .start tag attributes => { nest with stack := ⟨tag, attributes, []⟩ :: nest.stack }
  | .stop tag => nest.closeTag tag

/-- the forest, once everything open has been closed -/
def finish (nest : Nest) : List Node := (nest.popMany nest.stack.length).done

end Nest

def forest (ts : List Token) : List Node := (ts.foldl Nest.step ⟨[], []⟩).finish

/-- the forest of a text -/
def read (s : String) : List Node := forest (tokens s.toList)

end LiveMarkup.Markup
