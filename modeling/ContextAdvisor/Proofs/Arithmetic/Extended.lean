import ContextAdvisor.Proofs.Arithmetic.Exact

/-!
# Exact scalars with infinities

The numbers of an ordered field, two infinities and an undefined value are scalars, too. Operations
on numbers are exact, so they never overflow; apart from that the rules are the usual ones of
floating point arithmetic. An undefined value compares with nothing, and there is one zero only,
which counts as positive when something is divided by it.
-/
namespace ContextAdvisor

/-- A number, an infinity or no number at all. -/
inductive Extended (K : Type) where
  | finite (x : K)
  | infinite (negative : Bool)
  | undefined

namespace Extended

variable {K : Type} [Field K] [LinearOrder K]

def neg : Extended K → Extended K
  | finite x => finite (-x)
  | infinite negative => infinite !negative
  | undefined => undefined

def add : Extended K → Extended K → Extended K
  | finite x, finite y => finite (x + y)
  | infinite a, infinite b => if a = b then infinite a else undefined
  | infinite a, finite _ => infinite a
  | finite _, infinite b => infinite b
  | _, _ => undefined

/-- A number times an infinity. -/
def scaleInfinite (x : K) (negative : Bool) : Extended K :=
  if x = 0 then undefined else infinite (decide (x < 0) ^^ negative)

def mul : Extended K → Extended K → Extended K
  | finite x, finite y => finite (x * y)
  | infinite a, infinite b => infinite (a ^^ b)
  | infinite a, finite y => scaleInfinite y a
  | finite x, infinite b => scaleInfinite x b
  | _, _ => undefined

def div : Extended K → Extended K → Extended K
  | finite x, finite y => if y = 0 then scaleInfinite x false else finite (x / y)
  | infinite a, finite y => infinite (a ^^ decide (y < 0))
  | finite _, infinite _ => finite 0
  | _, _ => undefined

def abs : Extended K → Extended K
  | finite x => finite |x|
  | infinite _ => infinite false
  | undefined => undefined

/-- Is a value less than another one? -/
def less : Extended K → Extended K → Bool
  | finite x, finite y => x < y
  | infinite a, infinite b => a && !b
  | infinite a, finite _ => a
  | finite _, infinite b => !b
  | _, _ => false

/-- Are two values equal? An undefined one is not even equal to itself. -/
def equals : Extended K → Extended K → Bool
  | finite x, finite y => x = y
  | infinite a, infinite b => a == b
  | _, _ => false

def isFinite : Extended K → Bool
  | finite _ => true
  | _ => false

def isUndefined : Extended K → Bool
  | undefined => true
  | _ => false

/-- The place of a kind of value in the total order. -/
def rank : Extended K → Nat
  | infinite true => 0
  | finite _ => 1
  | infinite false => 2
  | undefined => 3

def order : Extended K → Extended K → Ordering
  | finite x, finite y => compare x y
  | x, y => compare x.rank y.rank

def ofNumeral : Numeral → Extended K
  | .finite d => finite d.value
  | .infinite negative => infinite negative
  | .undefined => undefined

instance : Scalar (Extended K) where
  toAdd := ⟨add⟩
  toSub := ⟨fun x y => add x y.neg⟩
  toMul := ⟨mul⟩
  toDiv := ⟨div⟩
  toNeg := ⟨neg⟩
  toLT := ⟨fun x y => less x y = true⟩
  toLE := ⟨fun x y => (less x y || equals x y) = true⟩
  toBEq := ⟨equals⟩
  toOfScientific := ⟨fun digits sign e => finite (OfScientific.ofScientific digits sign e)⟩
  toInhabited := ⟨finite 0⟩
  decLt x y := inferInstanceAs (Decidable (less x y = true))
  decLe x y := inferInstanceAs (Decidable ((less x y || equals x y) = true))
  abs := abs
  max x y := if y.isUndefined then x else if less y x then x else y
  order := order
  ofInt n := finite n
  ofNumeral? n := some (ofNumeral n)
  isFinite := isFinite
  isUndefined := isUndefined

/-- The square root of a number is the positive one. -/
noncomputable def sqrt : Extended ℝ → Extended ℝ
  | finite x => if x < 0 then undefined else finite (Real.sqrt x)
  | infinite negative => if negative then undefined else infinite false
  | undefined => undefined

/-- A function of numbers, undefined elsewhere. -/
def onFinite (f : K → K) : Extended K → Extended K
  | finite x => finite (f x)
  | _ => undefined

noncomputable instance : Analytic (Extended ℝ) where
  sqrt := sqrt
  turn := finite Analytic.turn
  sin := onFinite Analytic.sin
  cos := onFinite Analytic.cos

section

variable (x y : K)

@[simp] theorem finite_add : (finite x + finite y : Extended K) = finite (x + y) := rfl

@[simp] theorem finite_sub : (finite x - finite y : Extended K) = finite (x - y) :=
  congrArg finite (sub_eq_add_neg x y).symm

@[simp] theorem finite_mul : (finite x * finite y : Extended K) = finite (x * y) := rfl

@[simp] theorem neg_finite : (-finite x : Extended K) = finite (-x) := rfl

@[simp] theorem abs_finite : Scalar.abs (finite x) = finite |x| := rfl

@[simp] theorem ofInt_eq (n : Int) : (Scalar.ofInt n : Extended K) = finite (n : K) := rfl

@[simp] theorem isUndefined_finite : Scalar.isUndefined (finite x) = false := rfl

@[simp] theorem isFinite_finite : Scalar.isFinite (finite x) = true := rfl

@[simp] theorem beq_finite : (finite x == finite y) = decide (x = y) := rfl

variable {x y}

@[simp] theorem finite_lt_finite : (finite x : Extended K) < finite y ↔ x < y :=
  decide_eq_true_iff

@[simp] theorem finite_le_finite : (finite x : Extended K) ≤ finite y ↔ x ≤ y := by
  rw [le_iff_lt_or_eq, ← decide_eq_true_iff (p := x < y), ← decide_eq_true_iff (p := x = y),
    ← Bool.or_eq_true]
  rfl

theorem max_finite : Scalar.max (finite x) (finite y) = finite (max x y) := by
  rcases lt_or_ge y x with h | h
  · exact (if_pos (decide_eq_true h)).trans (congrArg finite (max_eq_left h.le).symm)
  · have hnot : ¬ decide (y < x) = true := by simpa using h
    exact (if_neg hnot).trans (congrArg finite (max_eq_right h).symm)

theorem ofNat_eq (n : Nat) : (Scalar.ofNat n : Extended K) = finite (n : K) :=
  congrArg finite (Int.cast_natCast n)

theorem finite_div (hy : y ≠ 0) : (finite x / finite y : Extended K) = finite (x / y) := if_neg hy

end

variable [IsStrictOrderedRing K]

@[simp] theorem zero_eq : (0.0 : Extended K) = finite 0 := congrArg finite Scalar.exact_zero

@[simp] theorem one_eq : (1.0 : Extended K) = finite 1 := congrArg finite Scalar.exact_one

theorem sum_map_finite (xs : List K) : Scalar.sum (xs.map finite) = finite xs.sum := by
  have hfold : ∀ (ys : List K) (y : K),
      (ys.map finite).foldl (· + ·) (finite y) = finite (y + ys.sum) := by
    intro ys
    induction ys with
    | nil => simp
    | cons x rest ih =>
      intro y
      rw [List.map_cons, List.foldl_cons, finite_add, ih, List.sum_cons, add_assoc]
  have hzero : (-0.0 : Extended K) = finite 0 := by
    show finite (-0.0) = finite 0
    norm_num
  rw [Scalar.sum, hzero, hfold, zero_add]

/-- The mean of numbers is their sum divided by how many they are; of no numbers it is zero. -/
theorem mean_map_finite (xs : List K) :
    Scalar.mean (xs.map finite) = finite (xs.sum / xs.length) := by
  cases xs with
  | nil =>
    show finite (0.0 : K) = _
    simp
  | cons x rest =>
    have hlength : ((x :: rest).length : K) ≠ 0 := Nat.cast_ne_zero.mpr (Nat.succ_ne_zero _)
    rw [Scalar.mean, sum_map_finite, List.length_map, ofNat_eq, finite_div hlength]
    rfl

end Extended

end ContextAdvisor
