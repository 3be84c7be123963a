/-
Unsigned numerals: an optional plus sign and one or more digits, leading zeros allowed.

`number?` reads one in base 10 or 16 and `numberBelow?` also refuses what reaches a limit, so a numeral that is too
large for its word is refused and never wraps.
-/
namespace LiveMarkup

/-- the value of a digit: decimal digits, then the letters of either case -/
def digitValue (c : Char) : Option Nat :=
  if c.isDigit then some (c.toNat - '0'.toNat)
  else if c.isLower then some (c.toNat - 'a'.toNat + 10)
  else if c.isUpper then some (c.toNat - 'A'.toNat + 10)
  else none

/-- the value of a digit of `base` -/
def digit? (base : Nat) (c : Char) : Option Nat := (digitValue c).filter (· < base)

/-- the value of a row of digits, continuing from `high` -/
def digitRow? (base : Nat) (high : Nat) : List Char → Option Nat
  | [] => some high
  | c :: cs =>
    match digit? base c with
    | some d => digitRow? base (high * base + d) cs
    | none => none

def digits? (base : Nat) : List Char → Option Nat
  | [] => none
  | cs => digitRow? base 0 cs

/-- the value of a numeral -/
def number? (base : Nat) : List Char → Option Nat
  | '+' :: cs => digits? base cs
  | cs => digits? base cs

/-- the value of a numeral that stays below `limit` -/
def numberBelow? (limit base : Nat) (cs : List Char) : Option Nat := (number? base cs).filter (· < limit)

end LiveMarkup
