import ContextAdvisor.Learning.Selection
import Mathlib

/-!
# Exact scalars

The numbers of an ordered field are scalars that compute without rounding: every number is finite
and defined, and the total order is the order of the field. Over the real numbers there are also the
square root and the circular functions.
-/
namespace ContextAdvisor

/-- The number that a decimal denotes. -/
def Decimal.value {K : Type} [Field K] (d : Decimal) : K :=
  (if d.negative then -1 else 1) * d.coefficient * 10 ^ d.exponent

/-- The number that a numeral denotes, if it denotes one. -/
def Numeral.value? {K : Type} [Field K] : Numeral → Option K
  | finite d => some d.value
  | infinite _ => none
  | undefined => none

namespace Scalar

instance (priority := 50) exact {K : Type} [Field K] [LinearOrder K] : Scalar K where
  toInhabited := ⟨0⟩
  decLt := inferInstance
  decLe := inferInstance
  abs x := |x|
  max x y := Max.max x y
  order x y := compare x y
  ofInt n := n
  ofNumeral? := Numeral.value?
  isFinite _ := true
  isUndefined _ := false

end Scalar

noncomputable instance : Analytic ℝ where
  sqrt := Real.sqrt
  turn := 2 * Real.pi
  sin := Real.sin
  cos := Real.cos

namespace Scalar

variable {K : Type} [Field K] [LinearOrder K]

variable [IsStrictOrderedRing K] in
@[simp] theorem exact_zero : (0.0 : K) = 0 := by norm_num

variable [IsStrictOrderedRing K] in
@[simp] theorem exact_one : (1.0 : K) = 1 := by norm_num

@[simp] theorem exact_max (x y : K) : Scalar.max x y = Max.max x y := rfl

@[simp] theorem exact_abs (x : K) : Scalar.abs x = |x| := rfl

@[simp] theorem exact_order (x y : K) : Scalar.order x y = compare x y := rfl

@[simp] theorem exact_ofInt (n : Int) : (Scalar.ofInt n : K) = n := rfl

@[simp] theorem exact_ofNat (n : Nat) : (Scalar.ofNat n : K) = n := Int.cast_natCast n

@[simp] theorem exact_isFinite (x : K) : Scalar.isFinite x = true := rfl

@[simp] theorem exact_isUndefined (x : K) : Scalar.isUndefined x = false := rfl

end Scalar

/-- The generator that takes no chances, with exact probabilities. -/
def Generator.steady {K : Type} [Field K] [LinearOrder K] [IsStrictOrderedRing K] : Generator K :=
  .steadyOf (by norm_num) le_rfl

end ContextAdvisor
