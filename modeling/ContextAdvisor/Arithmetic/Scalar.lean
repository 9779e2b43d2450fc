import ContextAdvisor.Arithmetic.Shortest

/-!
# The arithmetic of scores

Every score, weight and learned parameter is written once, over a type of scalars. A `Scalar` has
the four operations, an order, decimal literals and the reading of a written number. Programs run
with binary64 numbers, where an operation may overflow or be undefined; the same definitions read
over an exact ordered field say what they compute without rounding.

`Analytic` adds the square root and the circular functions that only a few definitions need, and
`Recorded` the decimal by which a scalar is written down.
-/
namespace ContextAdvisor

/-- Numbers to compute scores with. -/
class Scalar (α : Type) where
  [toAdd : Add α]
  [toSub : Sub α]
  [toMul : Mul α]
  [toDiv : Div α]
  [toNeg : Neg α]
  [toLT : LT α]
  [toLE : LE α]
  [toBEq : BEq α]
  [toOfScientific : OfScientific α]
  [toInhabited : Inhabited α]
  decLt (x y : α) : Decidable (x < y)
  decLe (x y : α) : Decidable (x ≤ y)
  abs : α → α
  /-- The larger of two numbers. An undefined operand loses against a defined one. -/
  max : α → α → α
  /-- A total order that agrees with `<` and also places undefined values. -/
  order : α → α → Ordering
  ofInt : Int → α
  /-- The value of a written number, if there is one. -/
  ofNumeral? : Numeral → Option α
  isFinite : α → Bool
  isUndefined : α → Bool

namespace Scalar

variable {α : Type} [Scalar α]

-- Where a type of numbers has operations of its own, these come first.
instance (priority := 50) instAdd : Add α := toAdd
instance (priority := 50) instSub : Sub α := toSub
instance (priority := 50) instMul : Mul α := toMul
instance (priority := 50) instDiv : Div α := toDiv
instance (priority := 50) instNeg : Neg α := toNeg
instance (priority := 50) instLT : LT α := toLT
instance (priority := 50) instLE : LE α := toLE
instance (priority := 50) instBEq : BEq α := toBEq
instance (priority := 50) instOfScientific : OfScientific α := toOfScientific
instance (priority := 50) instInhabited : Inhabited α := toInhabited

end Scalar

instance Scalar.decidableLT {α : Type} [Scalar α] (x y : α) : Decidable (x < y) :=
  Scalar.decLt x y

instance Scalar.decidableLE {α : Type} [Scalar α] (x y : α) : Decidable (x ≤ y) :=
  Scalar.decLe x y

/-- Scalars with square roots, a full turn and the circular functions. -/
class Analytic (α : Type) extends Scalar α where
  sqrt : α → α
  turn : α
  sin : α → α
  cos : α → α

/-- Scalars that have a decimal to write down. -/
class Recorded (α : Type) where
  decimal : α → Decimal

namespace Scalar

variable {α : Type} [Scalar α]

/-- A natural number as a scalar. -/
def ofNat (n : Nat) : α := ofInt n

/-- The nearest point of `[low, high]`. An undefined number stays as it is. -/
def clamp (x low high : α) : α :=
  if x < low then low else if high < x then high else x

/-- `1` for a number that is not negative, `-1` for a negative one. -/
def signum (x : α) : α :=
  if isUndefined x then x else if x < 0.0 then -1.0 else 1.0

/-- A sum in list order. It starts from `-0`, the number that leaves every other unchanged. -/
def sum (xs : List α) : α := xs.foldl (· + ·) (-0.0)

/-- The arithmetic mean; zero for no numbers. -/
def mean (xs : List α) : α := if xs.isEmpty then 0.0 else sum xs / ofNat xs.length

/-- Is the number below every finite one? -/
def isNegativeInfinity (x : α) : Bool := !isFinite x && x < 0.0

/-- `1` for a condition that holds, `0` otherwise. -/
def ofBool (b : Bool) : α := if b then 1.0 else 0.0

/-- Reads a finite number in free form from a whole text. -/
def readFinite? (text : List Char) : Option α :=
  ((Numeral.read? text).bind ofNumeral?).filter isFinite

end Scalar

namespace Binary64

/-- The binary64 number nearest to a decimal. Exponents that are certain to overflow or to vanish
are settled first, so that no huge power of ten is ever formed. -/
def ofDecimal (d : Decimal) : Float :=
  let magnitude : Float :=
    if d.coefficient = 0 then 0.0
    else if 310 < d.exponent then 1.0 / 0.0
    else if d.exponent + d.coefficient.log2 < -400 then 0.0
    else OfScientific.ofScientific d.coefficient (d.exponent < 0) d.exponent.natAbs
  if d.negative then -magnitude else magnitude

/-- The value of a numeral; every numeral has one. -/
def ofNumeral : Numeral → Float
  | .finite d => ofDecimal d
  | .infinite negative => if negative then -1.0 / 0.0 else 1.0 / 0.0
  | .undefined => 0.0 / 0.0

/-- Bits rearranged so that the order of words is the total order of the numbers they encode:
negative numbers backwards below, positive numbers above. -/
def orderKey (x : Float) : UInt64 :=
  let bits := x.toBits
  if bits < 0x8000000000000000 then bits + 0x8000000000000000 else ~~~bits

/-- The larger of two numbers; of two zeros the second, of an undefined and a defined number the
defined one. -/
def max (x y : Float) : Float :=
  if y.isNaN then x else if y < x then x else y

end Binary64

instance : Scalar Float where
  decLt := Float.decLt
  decLe := Float.decLe
  abs := Float.abs
  max := Binary64.max
  order x y := compare (Binary64.orderKey x) (Binary64.orderKey y)
  ofInt := Float.ofInt
  ofNumeral? n := some (Binary64.ofNumeral n)
  isFinite := Float.isFinite
  isUndefined := Float.isNaN

instance : Analytic Float where
  sqrt := Float.sqrt
  turn := 6.283185307179586
  sin := Float.sin
  cos := Float.cos

instance : Recorded Float where
  decimal x := Shortest.ofBits x.toBits

end ContextAdvisor
