import ContextAdvisor.Proofs.Learning.Matrix

/-!
# Elimination in exact arithmetic

Row operations are the same whether they come before or after a multiplication from the right. So
the right matrix of a pair that is reduced column by column stays the one that turns the given
matrix into the left one. Once all columns are unit columns the left matrix is the identity, and the
right one is the inverse.
-/
namespace ContextAdvisor.Square

open scoped BigOperators

variable {K : Type} {d : Nat}

/-- A stored matrix as a function of row and column. -/
def toMatrix (m : Square K d) : Matrix (Fin d) (Fin d) K := Matrix.of m.entry

@[simp] theorem toMatrix_apply (m : Square K d) (i j : Fin d) : m.toMatrix i j = m.entry i j := rfl

/-- Exchanging rows reads each row at its partner. -/
theorem entry_swapRows (m : Square K d) (i j row col : Fin d) :
    (m.swapRows i j).entry row col = m.entry (Equiv.swap i j row) col := by
  simp only [entry, swapRows, Vector.get_ofFn, Equiv.swap_apply_def]
  split_ifs <;> rfl

variable [Field K] [LinearOrder K]

/-- The pivot is looked for on and below the diagonal. -/
theorem le_pivotRow (m : Square K d) (col : Fin d) : col ≤ pivotRow m col := by
  unfold pivotRow
  refine List.foldlRecOn _ _ le_rfl fun best hbest row hrow => ?_
  have hbelow : col < row := of_decide_eq_true (List.mem_filter.mp hrow).2
  dsimp only
  split_ifs
  · exact hbelow.le
  · exact hbest

variable [IsStrictOrderedRing K]

theorem toMatrix_identity : (identity : Square K d).toMatrix = 1 := by
  ext i j
  simp [identity, Matrix.one_apply]

theorem toMatrix_mulVec (m : Square K d) (x : Vector K d) :
    m.toMatrix.mulVec x.get = (m.mulVec x).get := by
  funext i
  rw [get_mulVec]
  rfl

theorem get_subtractRow (row pivot : Vector K d) (factor : K) (j : Fin d) :
    (subtractRow row factor pivot).get j = row.get j - factor * pivot.get j := by
  unfold subtractRow
  split_ifs with h
  · have hf : factor = 0 := by simpa using h
    rw [hf, zero_mul, sub_zero]
  · simp [Vector.get_eq_getElem]

theorem entry_eliminate (m target : Square K d) (col row j : Fin d) :
    (eliminate m target col).entry row j =
      if row = col then target.entry col j / m.entry col col
      else target.entry row j - m.entry row col * (target.entry col j / m.entry col col) := by
  simp only [entry, eliminate, Vector.get_ofFn]
  split_ifs
  · rw [Vector.get_map]
  · rw [get_subtractRow, Vector.get_map]

/-- Exchanging two rows and clearing a column, entry by entry. -/
theorem entry_eliminate_swapRows (m target : Square K d) (col pivot row j : Fin d) :
    (eliminate (m.swapRows col pivot) (target.swapRows col pivot) col).entry row j =
      if row = col then target.entry pivot j / m.entry pivot col
      else target.entry (Equiv.swap col pivot row) j -
        m.entry (Equiv.swap col pivot row) col * (target.entry pivot j / m.entry pivot col) := by
  simp only [entry_eliminate, entry_swapRows, Equiv.swap_apply_left]

/-- If one matrix turns `a` into another one, it still does so after the same row operations. -/
theorem mul_eliminate_swapRows {a left right : Square K d}
    (h : right.toMatrix * a.toMatrix = left.toMatrix) (col pivot : Fin d) :
    (eliminate (left.swapRows col pivot) (right.swapRows col pivot) col).toMatrix * a.toMatrix =
      (eliminate (left.swapRows col pivot) (left.swapRows col pivot) col).toMatrix := by
  have hsum : ∀ i j, ∑ k, right.entry i k * a.entry k j = left.entry i j := fun i j =>
    congrFun (congrFun h i) j
  ext i j
  simp only [Matrix.mul_apply, toMatrix_apply, entry_eliminate_swapRows]
  split_ifs
  · simp only [div_mul_eq_mul_div, ← Finset.sum_div, hsum]
  · simp only [sub_mul, mul_assoc, div_mul_eq_mul_div, Finset.sum_sub_distrib, ← Finset.mul_sum,
      ← Finset.sum_div, hsum]

/-- The column of the pivot becomes a unit column. -/
theorem entry_eliminate_self {m : Square K d} {col pivot : Fin d} (h : m.entry pivot col ≠ 0)
    (i : Fin d) : (eliminate (m.swapRows col pivot) (m.swapRows col pivot) col).entry i col =
      if i = col then 1 else 0 := by
  rw [entry_eliminate_swapRows, div_self h, mul_one, sub_self]

/-- A unit column further left stays one, since it has nothing in the row of the pivot. -/
theorem entry_eliminate_of_unit {m : Square K d} {col pivot j : Fin d}
    (hunit : ∀ i, m.entry i j = if i = j then 1 else 0) (hlt : j < col) (hle : col ≤ pivot)
    (i : Fin d) : (eliminate (m.swapRows col pivot) (m.swapRows col pivot) col).entry i j =
      if i = j then 1 else 0 := by
  have hzero : m.entry pivot j = 0 := by
    rw [hunit, if_neg (hlt.trans_le hle).ne']
  have hswap : Equiv.swap col pivot j = j :=
    Equiv.swap_apply_of_ne_of_ne hlt.ne (hlt.trans_le hle).ne
  rw [entry_eliminate_swapRows, hzero, zero_div, mul_zero, sub_zero]
  split_ifs with hi hij hij
  · exact absurd (hi.symm.trans hij) hlt.ne'
  · rfl
  · rw [hunit, hij, hswap, if_pos rfl]
  · rw [hunit, if_neg]
    intro hs
    rw [Equiv.swap_apply_eq_iff, hswap] at hs
    exact hij hs

/-- A pair of matrices on the way to the inverse of `a`: the right one turns `a` into the left one,
which has unit columns at `done`. -/
structure Reduces (a : Square K d) (done : List (Fin d)) (pair : Square K d × Square K d) :
    Prop where
  mul_eq : pair.2.toMatrix * a.toMatrix = pair.1.toMatrix
  unit : ∀ j ∈ done, ∀ i, pair.1.entry i j = if i = j then 1 else 0

theorem reduces_identity (a : Square K d) : Reduces a [] (a, identity) where
  mul_eq := by rw [toMatrix_identity, one_mul]
  unit := by simp

/-- A column that is cleared has a pivot. -/
theorem reduceColumn_eq_some {pair next : Square K d × Square K d} {col : Fin d}
    (h : reduceColumn pair col = some next) :
    let pivot := pivotRow pair.1 col
    let left := pair.1.swapRows col pivot
    pair.1.entry pivot col ≠ 0 ∧
      next = (eliminate left left col, eliminate left (pair.2.swapRows col pivot) col) := by
  simp only [reduceColumn] at h
  split at h
  · cases h
  next hlarge =>
  cases h
  refine ⟨fun hzero => hlarge ?_, rfl⟩
  rw [hzero, Scalar.exact_abs, abs_zero]
  exact negligiblePivot_pos

/-- Clearing one more column keeps the relation between the two matrices. -/
theorem Reduces.reduceColumn {a : Square K d} {done : List (Fin d)} {col : Fin d}
    {pair pair' : Square K d × Square K d} (h : Reduces a done pair) (hdone : ∀ j ∈ done, j < col)
    (hstep : Square.reduceColumn pair col = some pair') : Reduces a (done ++ [col]) pair' := by
  obtain ⟨hpivot, rfl⟩ := reduceColumn_eq_some hstep
  refine ⟨mul_eliminate_swapRows h.mul_eq col _, fun j hj i => ?_⟩
  rcases List.mem_append.mp hj with hj | hj
  · exact entry_eliminate_of_unit (h.unit j hj) (hdone j hj) (le_pivotRow pair.1 col) i
  · rw [List.mem_singleton.mp hj]
    exact entry_eliminate_self hpivot i

/-- Clearing several columns from left to right. -/
theorem Reduces.foldlM {a : Square K d} {done cols : List (Fin d)}
    {pair pair' : Square K d × Square K d} (h : Reduces a done pair)
    (hsorted : (done ++ cols).Pairwise (· < ·))
    (hrun : cols.foldlM Square.reduceColumn pair = some pair') :
    Reduces a (done ++ cols) pair' := by
  induction cols generalizing done pair with
  | nil =>
    rw [List.append_nil]
    cases hrun
    exact h
  | cons col cols ih =>
    obtain ⟨next, hstep, hrest⟩ := Option.bind_eq_some_iff.mp hrun
    have hdone : ∀ j ∈ done, j < col := fun j hj =>
      (List.pairwise_append.mp hsorted).2.2 j hj col List.mem_cons_self
    have := ih (h.reduceColumn hdone hstep) (by simpa using hsorted) hrest
    simpa using this

/-- What elimination returns is a left inverse. -/
theorem mul_of_inverse? {a inv : Square K d} (h : a.inverse? = some inv) :
    inv.toMatrix * a.toMatrix = 1 := by
  obtain ⟨pair, hrun, rfl⟩ := Option.map_eq_some_iff.mp h
  have hreduced : Reduces a ([] ++ List.finRange d) pair :=
    (reduces_identity a).foldlM (List.pairwise_lt_finRange d) hrun
  rw [hreduced.mul_eq]
  ext i j
  rw [toMatrix_apply, hreduced.unit j (List.mem_finRange j) i, Matrix.one_apply]

/-- What elimination returns is a right inverse. -/
theorem mul_inverse? {a inv : Square K d} (h : a.inverse? = some inv) :
    a.toMatrix * inv.toMatrix = 1 :=
  mul_eq_one_comm.mp (mul_of_inverse? h)

end ContextAdvisor.Square
