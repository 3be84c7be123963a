/-
Blank characters, in two widths.

`isBlank` is the Unicode property White_Space: 25 characters. `isAsciiBlank` is the five of them that end a name in
markup. `isBlank_of_isAsciiBlank`: the narrow class lies in the wide one, so skipping blanks also skips ASCII blanks.
-/
namespace LiveMarkup

/-- the code points with the Unicode property White_Space -/
def blankCodes : List Nat :=
  [0x09, 0x0A, 0x0B, 0x0C, 0x0D, 0x20, 0x85, 0xA0, 0x1680, 0x2000, 0x2001, 0x2002, 0x2003, 0x2004, 0x2005, 0x2006,
    0x2007, 0x2008, 0x2009, 0x200A, 0x2028, 0x2029, 0x202F, 0x205F, 0x3000]

def isBlank (c : Char) : Bool := blankCodes.contains c.toNat

/-- tab, line feed, form feed, carriage return or space -/
def isAsciiBlank (c : Char) : Bool :=
  c == '\t' || c == '\n' || c == '\x0c' || c == '\r' || c == ' '

theorem isBlank_of_isAsciiBlank {c : Char} (h : isAsciiBlank c = true) : isBlank c = true := by
  simp only [isAsciiBlank, Bool.or_eq_true, beq_iff_eq] at h
  rcases h with (((rfl | rfl) | rfl) | rfl) | rfl <;> decide

end LiveMarkup
