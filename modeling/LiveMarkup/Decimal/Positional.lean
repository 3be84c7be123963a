/-
Positional decimal text: all digits written out, no exponent.

A whole number has no decimal point. `Binary64.text` is the text of a floating-point word: the fewest digits that read
back, in this form; the sign of zero is kept, and the words that are no finite numbers have names.
-/
import LiveMarkup.Decimal.Binary64
import LiveMarkup.Decimal.Shortest

namespace LiveMarkup

namespace Decimal

def digitsOf (n : Nat) : List Char := Nat.toDigits 10 n

def zeros (n : Nat) : List Char := List.replicate n '0'

/-- whole digits with a point so that `places` digits follow it -/
def withPoint (ds : List Char) (places : Nat) : List Char :=
  if places = 0 then ds
  else if places < ds.length then ds.take (ds.length - places) ++ '.' :: ds.drop (ds.length - places)
  else '0' :: '.' :: zeros (places - ds.length) ++ ds

/-- the number written out; a digit row that ends in zeros is shortened first -/
def Scaled.positional (x : Scaled) : List Char :=
  let ds := digitsOf x.digits
  let kept := (ds.reverse.dropWhile (· == '0')).reverse
  let power := x.power + (ds.length - kept.length : Nat)
  if 0 ≤ power then kept ++ zeros power.toNat else withPoint kept (-power).toNat

end Decimal

namespace Binary64

def signed (negative : Bool) (cs : List Char) : List Char := if negative then '-' :: cs else cs

/-- the text of a floating-point word -/
def text (x : Binary64) : String :=
  String.ofList <|
    match x.decode with
    | .notANumber => ['N', 'a', 'N']
    | .infinite negative => signed negative ['i', 'n', 'f']
    | .finite negative 0 _ => signed negative ['0']
    | .finite negative mantissa power =>
      signed negative (Decimal.Target.ofBinary mantissa power x.gapsDiffer).shortest.positional

end Binary64

end LiveMarkup
