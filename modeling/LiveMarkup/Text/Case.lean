/-
ASCII letter case. Only the 26 letters fold; every other character is left as it is.

`lowerChars` folds a text, `sameLetters` compares two texts up to folding, and `sameLetters_iff` says that this is
equality of the folded texts.
-/
namespace LiveMarkup

def isLetter (c : Char) : Bool := c.isAlpha

/-- the text with its ASCII capitals folded -/
def lowerChars (cs : List Char) : List Char := cs.map Char.toLower

def sameLetters (s t : String) : Bool := lowerChars s.toList == lowerChars t.toList

theorem sameLetters_iff {s t : String} : sameLetters s t = true ↔ lowerChars s.toList = lowerChars t.toList := by
  simp [sameLetters]

@[simp] theorem sameLetters_self (s : String) : sameLetters s s = true := by simp [sameLetters]

end LiveMarkup
