/-
The fewest decimal digits that read back.

A positive binary number has an interval of reals that round to it, ends included iff its mantissa is even. For 1, 2, …
17 digits the decimal grid of that many digits has two neighbours of the number; the first grid with a neighbour inside
the interval gives the digits. Of two neighbours inside, the nearer one is taken, and of two equally near ones the
upper. All of it is exact arithmetic on natural numbers.
-/
namespace LiveMarkup.Decimal

/-- `digits * 10 ^ power` -/
structure Scaled where
  digits : Nat
  power : Int
deriving DecidableEq, Repr, Inhabited

/-- a positive number and the ends of its interval, all over one denominator -/
structure Target where
  value : Nat
  low : Nat
  high : Nat
  denominator : Nat
  closed : Bool
deriving DecidableEq, Repr

/-- the interval of `mantissa * 2 ^ power`; `narrow` if the gap below is half the gap above -/
def Target.ofBinary (mantissa : Nat) (power : Int) (narrow : Bool) : Target :=
  let up := Nat.pow 2 (power - 2).toNat
  { value := 4 * mantissa * up
    low := (4 * mantissa - (if narrow then 1 else 2)) * up
    high := (4 * mantissa + 2) * up
    denominator := Nat.pow 2 (2 - power).toNat
    closed := mantissa % 2 == 0 }

def width (n : Nat) : Nat := (Nat.toDigits 10 n).length

/-- the least `k` with `value < 10 ^ k` -/
def Target.magnitude (t : Target) : Int :=
  if t.denominator ≤ t.value then width (t.value / t.denominator)
  else
    let w := width (t.denominator / t.value)
    if t.denominator = t.value * Nat.pow 10 (w - 1) then 2 - (w : Int) else 1 - (w : Int)

/-- whether `d * 10 ^ power` lies in the interval -/
def Target.holds (t : Target) (d : Nat) (power : Int) : Bool :=
  let x := d * Nat.pow 10 power.toNat * t.denominator
  let scale := Nat.pow 10 (-power).toNat
  if t.closed then t.low * scale ≤ x && x ≤ t.high * scale
  else t.low * scale < x && x < t.high * scale

/-- the neighbour on the grid of `n` digits that lies in the interval and is nearest, if any does -/
def Target.onGrid? (t : Target) (n : Nat) : Option Scaled :=
  let power := t.magnitude - n
  let above := t.value * Nat.pow 10 (-power).toNat
  let unit := t.denominator * Nat.pow 10 power.toNat
  let d := above / unit
  let lowerIn := t.holds d power
  let upperIn := t.holds (d + 1) power
  let upper := Scaled.mk (d + 1) power
  let lower := Scaled.mk d power
  if lowerIn && upperIn then some (if 2 * (above - d * unit) < unit then lower else upper)
  else if upperIn then some upper
  else if lowerIn then some lower
  else none

/-- the fewest digits that read back -/
def Target.shortest (t : Target) : Scaled :=
  (((List.range 17).map (· + 1)).findSome? t.onGrid?).getD ⟨0, 0⟩

end LiveMarkup.Decimal
