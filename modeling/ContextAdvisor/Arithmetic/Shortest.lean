import ContextAdvisor.Arithmetic.Decimal

/-!
# The shortest decimal that reads back

A positive binary64 number is `mantissa · 2 ^ exponent`. The decimals that round to it fill an
interval whose ends lie halfway to its two neighbours; the ends belong to it exactly when the
mantissa is even. The number is written with the coarsest power of ten that has a multiple in that
interval, and of the multiples there the nearest is taken, an exact tie going to the even one.

All comparisons are between natural numbers: the number, the two ends and the grid are scaled by
one common factor first.
-/
namespace ContextAdvisor.Shortest

/-- A positive number and the ends of its rounding interval, as fractions over one denominator. -/
structure Interval where
  low : Nat
  value : Nat
  high : Nat
  denominator : Nat
  closed : Bool

/-- The rounding interval of `mantissa · 2 ^ exponent`. Below a power of two the neighbours are
twice as close, unless the number is the smallest normal one or subnormal. -/
def interval (mantissa : Nat) (exponent : Int) (narrowBelow : Bool) : Interval :=
  let up := Nat.pow 2 exponent.toNat
  let down := Nat.pow 2 (-exponent).toNat
  let below := if narrowBelow then 1 else 2
  { low := (4 * mantissa - below) * up
    value := 4 * mantissa * up
    high := (4 * mantissa + 2) * up
    denominator := 4 * down
    closed := mantissa % 2 = 0 }

/-- Does a number, given in the interval's own scale, round to the interval's value? -/
def Interval.holds (i : Interval) (scaled : Nat) : Bool :=
  if i.closed then i.low ≤ scaled && scaled ≤ i.high else i.low < scaled && scaled < i.high

/-- The same interval with every number multiplied by `k`. -/
def Interval.scale (i : Interval) (k : Nat) : Interval :=
  { i with low := i.low * k, value := i.value * k, high := i.high * k }

/-- The `n` for which `n * step` lies in the interval and is nearest to the value. Only the two
multiples around the value need a test, since the interval contains the value. -/
def nearestMultiple? (i : Interval) (step : Nat) : Option Nat :=
  let n := i.value / step
  let lowerGap := i.value - n * step
  let upperGap := (n + 1) * step - i.value
  let lowerHolds := i.holds (n * step)
  let upperHolds := i.holds ((n + 1) * step)
  if lowerHolds && upperHolds then
    if lowerGap < upperGap || (lowerGap = upperGap && n % 2 = 0) then some n else some (n + 1)
  else if lowerHolds then some n
  else if upperHolds then some (n + 1)
  else none

/-- The multiple of `10 ^ e` in the interval that is nearest to the value. -/
def onGrid? (i : Interval) (e : Int) : Option Nat :=
  nearestMultiple? (i.scale (Nat.pow 10 (-e).toNat)) (i.denominator * Nat.pow 10 e.toNat)

/-- Tries the grids `10 ^ top`, `10 ^ (top - 1)`, … for at most `count` steps. -/
def search (i : Interval) : (count : Nat) → (top : Int) → Option (Nat × Int)
  | 0, _ => none
  | count + 1, top =>
    match onGrid? i top with
    | some n => some (n, top)
    | none => search i count (top - 1)

/-- The exponent of a power of ten above the number. The number is below the power of two with
exponent `e + 1`, where `e` is that of its leading bit, and `0.301 * (e + 1)` is within one tenth of
the logarithm of this power. -/
def gridAbove (mantissa : Nat) (exponent : Int) : Int :=
  (exponent + mantissa.log2 + 1) * 301 / 1000 + 2

/-- The digits and power of ten for `mantissa · 2 ^ exponent`. Seventeen digits always suffice, and
the search starts at most twenty places above the last of them. -/
def digits (mantissa : Nat) (exponent : Int) (narrowBelow : Bool) : Nat × Int :=
  (search (interval mantissa exponent narrowBelow) 40 (gridAbove mantissa exponent)).getD (0, 0)

/-- The weight of the leading bit of a normal number, `2 ^ 52`; the bits below it are the
fraction. -/
def leadingBit : Nat := 4503599627370496

/-- The shortest decimal for a finite binary64 number given by its bits: one for the sign, eleven
for the exponent, and the fraction. -/
def ofBits (bits : UInt64) : Decimal :=
  let negative : Bool := bits.toNat / (2048 * leadingBit) = 1
  let biased : Nat := bits.toNat / leadingBit % 2048
  let fraction : Nat := bits.toNat % leadingBit
  if biased = 0 ∧ fraction = 0 then ⟨negative, 0, 0⟩
  else
    let mantissa : Nat := if biased = 0 then fraction else fraction + leadingBit
    let exponent : Int := if biased = 0 then -1074 else biased - 1075
    let (coefficient, e) := digits mantissa exponent (fraction = 0 ∧ 1 < biased)
    ⟨negative, coefficient, e⟩

end ContextAdvisor.Shortest
