import ContextAdvisor.Learning.Matrix
import ContextAdvisor.Proofs.Arithmetic.Exact

/-!
# Products of vectors and matrices in exact arithmetic

Scalar products and products with a vector are the sums that define them, whatever the order in
which they are added up. A product with the inverse of a diagonal divides entry by entry.
-/
namespace ContextAdvisor

open scoped BigOperators

variable {K : Type} [Field K] [LinearOrder K] [IsStrictOrderedRing K] {d : Nat}

theorem Scalar.sum_eq (xs : List K) : Scalar.sum xs = xs.sum := by
  rw [Scalar.sum, Scalar.exact_zero, neg_zero, List.sum_eq_foldl]

theorem dot_eq_sum (x y : Vector K d) : dot x y = ∑ i, x.get i * y.get i := by
  have hz : (Vector.zipWith (· * ·) x y).toList = List.ofFn fun i => x.get i * y.get i := by
    refine List.ext_getElem (by simp) fun n hn _ => ?_
    simp [Vector.get_eq_getElem]
  rw [dot, Scalar.sum_eq, hz, List.sum_ofFn]

namespace Square

omit [Field K] [LinearOrder K] [IsStrictOrderedRing K] in
@[simp] theorem entry_ofFn (f : Fin d → Fin d → K) (i j : Fin d) : (ofFn f).entry i j = f i j := by
  simp [entry, ofFn]

theorem get_mulVec (m : Square K d) (x : Vector K d) (i : Fin d) :
    (m.mulVec x).get i = ∑ j, m.entry i j * x.get j := by
  rw [mulVec, Vector.get_map, dot_eq_sum]
  rfl

theorem get_identity_mulVec (x : Vector K d) (i : Fin d) : (identity.mulVec x).get i = x.get i := by
  simp [get_mulVec, identity]

theorem get_diagonalInverse_mulVec (m : Square K d) (x : Vector K d) (i : Fin d) :
    (m.diagonalInverse.mulVec x).get i = x.get i / Max.max (m.entry i i) negligiblePivot := by
  simp [get_mulVec, diagonalInverse, div_eq_inv_mul]

theorem negligiblePivot_pos : (0 : K) < negligiblePivot := by
  rw [negligiblePivot]
  norm_num

end Square

end ContextAdvisor
