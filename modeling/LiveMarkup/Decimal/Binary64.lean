/-
Binary floating point of 64 bits, as its bits.

`decode` splits a word into its class and, for a finite number, sign, mantissa and power of two.
`same` is numeric equality: a word that is not a number differs from everything, and the two zeros agree.
-/
namespace LiveMarkup

structure Binary64 where
  bits : UInt64
deriving DecidableEq, Repr, Inhabited

namespace Binary64

/-- what a word stands for; a finite one is `mantissa * 2 ^ power` -/
inductive Class where
  | notANumber
  | infinite (negative : Bool)
  | finite (negative : Bool) (mantissa : Nat) (power : Int)
deriving DecidableEq, Repr

def fraction (x : Binary64) : Nat := x.bits.toNat % Nat.pow 2 52

def exponent (x : Binary64) : Nat := x.bits.toNat / Nat.pow 2 52 % Nat.pow 2 11

def negative (x : Binary64) : Bool := Nat.pow 2 63 ≤ x.bits.toNat

def decode (x : Binary64) : Class :=
  if x.exponent = 2047 then
    if x.fraction = 0 then .infinite x.negative else .notANumber
  else if x.exponent = 0 then .finite x.negative x.fraction (-1074)
  else .finite x.negative (Nat.pow 2 52 + x.fraction) (x.exponent - 1075)

def isNaN (x : Binary64) : Bool := x.decode = .notANumber

def isZero (x : Binary64) : Bool := x.exponent = 0 && x.fraction = 0

/-- the gap below is half the gap above: the smallest mantissa of its power, the lowest powers apart -/
def gapsDiffer (x : Binary64) : Bool := x.fraction = 0 && 1 < x.exponent

def same (x y : Binary64) : Bool := !x.isNaN && !y.isNaN && (x = y || (x.isZero && y.isZero))

end Binary64

end LiveMarkup
