/-
Markup trees: elements with attributes, text and comments.

`Node` is one of the three, a forest is a `List Node`. `isVoid` and `isRawText` are the two classes of tags that
reading and writing treat apart: void elements have no end tag, and the text of raw text elements is never escaped.
-/
import LiveMarkup.Text.Case
import LiveMarkup.Entries

namespace LiveMarkup

/-- attributes in source order; one without a value has the empty one -/
abbrev Attributes := Entries String

namespace Markup

inductive Node where
  | element (tag : String) (attributes : Attributes) (children : List Node)
  | text (data : String)
  | comment (data : String)
deriving Repr, Inhabited

mutual
def Node.eqDec : (m n : Node) → Decidable (m = n)
  | .element t as cs, .element t' as' cs' =>
    if ht : t = t' then
      if ha : as = as' then
        match eqDecAll cs cs' with
        | isTrue hc => isTrue (by rw [ht, ha, hc])
        | isFalse hc => isFalse (by simp [hc])
      else isFalse (by simp [ha])
    else isFalse (by simp [ht])
  | .text d, .text d' => if h : d = d' then isTrue (by rw [h]) else isFalse (by simp [h])
  | .comment d, .comment d' => if h : d = d' then isTrue (by rw [h]) else isFalse (by simp [h])
  | .element .., .text _ => isFalse (by simp)
  | .element .., .comment _ => isFalse (by simp)
  | .text _, .element .. => isFalse (by simp)
  | .text _, .comment _ => isFalse (by simp)
  | .comment _, .element .. => isFalse (by simp)
  | .comment _, .text _ => isFalse (by simp)
def eqDecAll : (ms ns : List Node) → Decidable (ms = ns)
  | [], [] => isTrue rfl
  | _ :: _, [] => isFalse (by simp)
  | [], _ :: _ => isFalse (by simp)
  | m :: ms, n :: ns =>
    match Node.eqDec m n, eqDecAll ms ns with
    | isTrue h, isTrue hs => isTrue (by rw [h, hs])
    | isFalse h, _ => isFalse (by simp [h])
    | _, isFalse hs => isFalse (by simp [hs])
end

instance : DecidableEq Node := Node.eqDec

def Node.attribute? (name : String) : Node → Option String
  | .element _ attributes _ => attributes.get? name
  | _ => none

/-- tags of elements that have no content and no end tag -/
def voidTags : List String :=
  ["area", "base", "br", "col", "embed", "hr", "img", "input", "link", "meta", "param", "source", "track", "wbr"]

/-- tags of elements whose content is text that is neither decoded nor escaped -/
def rawTextTags : List String := ["script", "style", "textarea", "title"]

/-- void, in any letter case -/
def isVoid (tag : String) : Bool := voidTags.any (sameLetters · tag)

def isRawText (tag : String) : Bool := rawTextTags.any (sameLetters · tag)

end Markup

end LiveMarkup
