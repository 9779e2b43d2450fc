import ContextAdvisor.Proofs.Learning.Elimination

/-!
# Which matrices are inverted

What elimination returns is the inverse, so it returns nothing for a singular matrix. It also
refuses a matrix if all candidates for a pivot are negligible. Then the columns before can be
subtracted from the column at hand so that only negligible entries are left: the matrix is nearly
singular. Up to its order, what the rows of the given matrix make of a vector is what the reduced
rows make of it, as long as the rows that are done make it zero.
-/
namespace ContextAdvisor.Square

open scoped BigOperators

variable {K : Type} [Field K] [LinearOrder K] [IsStrictOrderedRing K] {d : Nat}

/-- Does the matrix take a vector with an entry of 1 to one with negligible entries only? -/
def IsNearlySingular (m : Square K d) : Prop :=
  ∃ v : Vector K d, (∃ i, v.get i = 1) ∧ ∀ i, |(m.mulVec v).get i| < negligiblePivot

omit [IsStrictOrderedRing K] in
/-- A search that goes on to anything not smaller ends at the largest. -/
theorem le_foldl_larger {ι : Type} (f : ι → K) (rows : List ι) (best : ι) :
    let last := rows.foldl (fun best row =>
      if (Scalar.order (f best) (f row)).isLE then row else best) best
    f best ≤ f last ∧ ∀ row ∈ rows, f row ≤ f last := by
  induction rows generalizing best with
  | nil => simp
  | cons row rest ih =>
    simp only [List.foldl_cons, List.forall_mem_cons]
    split_ifs with h
    · obtain ⟨hrow, hrest⟩ := ih row
      have hle : f best ≤ f row := by
        rwa [Scalar.exact_order, Ordering.isLE_iff_ne_gt, compare_gt_iff_gt, not_lt] at h
      exact ⟨hle.trans hrow, hrow, hrest⟩
    · obtain ⟨hbest, hrest⟩ := ih best
      have hle : f row ≤ f best := by
        rw [Scalar.exact_order, Ordering.isLE_iff_ne_gt, compare_gt_iff_gt, not_not] at h
        exact h.le
      exact ⟨hbest, hle.trans hbest, hrest⟩

omit [IsStrictOrderedRing K] in
/-- No entry on or below the diagonal exceeds the pivot of its column. -/
theorem abs_entry_le_pivotRow (m : Square K d) {col row : Fin d} (h : col ≤ row) :
    |m.entry row col| ≤ |m.entry (pivotRow m col) col| := by
  obtain ⟨hdiagonal, hbelow⟩ := le_foldl_larger (fun row => |m.entry row col|)
    ((List.finRange d).filter (col < ·)) col
  rcases h.eq_or_lt with rfl | hlt
  · exact hdiagonal
  · exact hbelow row (List.mem_filter.mpr ⟨List.mem_finRange row, decide_eq_true hlt⟩)

/-- What a reduced matrix makes of a vector. -/
theorem get_mulVec_eliminate (m : Square K d) (col pivot row : Fin d) (v : Vector K d) :
    ((eliminate (m.swapRows col pivot) (m.swapRows col pivot) col).mulVec v).get row =
      if row = col then (m.mulVec v).get pivot / m.entry pivot col
      else (m.mulVec v).get (Equiv.swap col pivot row) -
        m.entry (Equiv.swap col pivot row) col *
          ((m.mulVec v).get pivot / m.entry pivot col) := by
  simp only [get_mulVec, entry_eliminate_swapRows]
  split_ifs
  · rw [Finset.sum_div]
    exact Finset.sum_congr rfl fun j _ => div_mul_eq_mul_div _ _ _
  · rw [Finset.sum_div, Finset.mul_sum, ← Finset.sum_sub_distrib]
    exact Finset.sum_congr rfl fun j _ => by ring

/-- Up to the order of rows, `a` and `left` make the same of every vector of which the rows of
`left` at `done` make zero. -/
def SameRows (a left : Square K d) (done : List (Fin d)) : Prop :=
  ∃ order : Equiv.Perm (Fin d), ∀ v : Vector K d, (∀ j ∈ done, (left.mulVec v).get j = 0) →
    ∀ i, (a.mulVec v).get (order i) = (left.mulVec v).get i

/-- Clearing a column keeps the rows the same, apart from their order. -/
theorem SameRows.eliminate {a left : Square K d} {done : List (Fin d)} (h : SameRows a left done)
    {col pivot : Fin d} (hdone : ∀ j ∈ done, j < col) (hle : col ≤ pivot)
    (hpivot : left.entry pivot col ≠ 0) :
    SameRows a (eliminate (left.swapRows col pivot) (left.swapRows col pivot) col)
      (done ++ [col]) := by
  obtain ⟨order, hsame⟩ := h
  refine ⟨(Equiv.swap col pivot).trans order, fun v hv i => ?_⟩
  have hzero : (left.mulVec v).get pivot = 0 := by
    have hcol := hv col (List.mem_append_right _ List.mem_cons_self)
    rw [get_mulVec_eliminate, if_pos rfl] at hcol
    exact (div_eq_zero_iff.mp hcol).resolve_right hpivot
  have hrow : ∀ row, ((Square.eliminate (left.swapRows col pivot) (left.swapRows col pivot)
      col).mulVec v).get row = (left.mulVec v).get (Equiv.swap col pivot row) := by
    intro row
    rw [get_mulVec_eliminate, hzero, zero_div, mul_zero, sub_zero]
    split_ifs with hcol
    · rw [hcol, Equiv.swap_apply_left, hzero]
    · rfl
  have hkept : ∀ j ∈ done, (left.mulVec v).get j = 0 := by
    intro j hj
    have hlt := hdone j hj
    have hfixed : Equiv.swap col pivot j = j :=
      Equiv.swap_apply_of_ne_of_ne hlt.ne (hlt.trans_le hle).ne
    rw [← hv j (List.mem_append_left _ hj), hrow, hfixed]
  rw [hrow, Equiv.trans_apply, hsame v hkept]

theorem SameRows.reduceColumn {a : Square K d} {done : List (Fin d)} {col : Fin d}
    {pair next : Square K d × Square K d} (h : SameRows a pair.1 done)
    (hdone : ∀ j ∈ done, j < col) (hstep : Square.reduceColumn pair col = some next) :
    SameRows a next.1 (done ++ [col]) := by
  obtain ⟨hpivot, rfl⟩ := reduceColumn_eq_some hstep
  exact h.eliminate hdone (le_pivotRow pair.1 col) hpivot

omit [IsStrictOrderedRing K] in
theorem abs_pivot_lt_of_reduceColumn {pair : Square K d × Square K d} {col : Fin d}
    (h : reduceColumn pair col = none) :
    |pair.1.entry (pivotRow pair.1 col) col| < negligiblePivot := by
  simp only [reduceColumn] at h
  split at h
  · assumption
  · cases h

/-- The vector that subtracts the columns before from a column. -/
def leftOver (m : Square K d) (col : Fin d) : Vector K d :=
  Vector.ofFn fun k => if k = col then 1 else if k < col then -m.entry k col else 0

/-- With unit columns before it, only the entries of a column on and below the diagonal are left
over. -/
theorem get_mulVec_leftOver {m : Square K d} {col : Fin d}
    (hunit : ∀ j, j < col → ∀ i, m.entry i j = if i = j then 1 else 0) (i : Fin d) :
    (m.mulVec (leftOver m col)).get i = if i < col then 0 else m.entry i col := by
  have hterm : ∀ k, m.entry i k * (leftOver m col).get k =
      (if k = col then m.entry i col else 0) -
        if k = i then (if i < col then m.entry i col else 0) else 0 := by
    intro k
    rw [leftOver, Vector.get_ofFn]
    rcases lt_trichotomy k col with hlt | rfl | hgt
    · rw [if_neg hlt.ne, if_pos hlt, hunit k hlt, if_neg hlt.ne]
      by_cases hik : i = k
      · subst hik
        simp [hlt]
      · simp [hik, Ne.symm hik]
    · by_cases hik : k = i
      · subst hik
        simp
      · simp [hik]
    · rw [if_neg hgt.ne', if_neg hgt.not_gt, if_neg hgt.ne']
      by_cases hik : k = i
      · subst hik
        simp [hgt.not_gt]
      · simp [hik]
  rw [get_mulVec, Finset.sum_congr rfl fun k _ => hterm k, Finset.sum_sub_distrib,
    Finset.sum_ite_eq' , Finset.sum_ite_eq', if_pos (Finset.mem_univ _), if_pos (Finset.mem_univ _)]
  split_ifs
  · exact sub_self _
  · exact sub_zero _

/-- A column without a pivot shows that the matrix is nearly singular. -/
theorem SameRows.isNearlySingular {a left : Square K d} {done : List (Fin d)} {col : Fin d}
    (h : SameRows a left done) (hdone : ∀ j, j ∈ done ↔ j < col)
    (hunit : ∀ j ∈ done, ∀ i, left.entry i j = if i = j then 1 else 0)
    (hsmall : |left.entry (pivotRow left col) col| < negligiblePivot) : a.IsNearlySingular := by
  have hleft := get_mulVec_leftOver fun j hj => hunit j ((hdone j).mpr hj)
  obtain ⟨order, hsame⟩ := h
  refine ⟨leftOver left col, ⟨col, by simp [leftOver]⟩, fun i => ?_⟩
  obtain ⟨i, rfl⟩ := order.surjective i
  rw [hsame _ fun j hj => (hleft j).trans (if_pos ((hdone j).mp hj)), hleft]
  split_ifs with hlt
  · rw [abs_zero]
    exact negligiblePivot_pos
  · exact (abs_entry_le_pivotRow left (not_lt.mp hlt)).trans_lt hsmall

/-- The columns before one of all columns are those to the left of it. -/
theorem mem_iff_lt_of_append {done cols : List (Fin d)} {col : Fin d}
    (h : done ++ col :: cols = List.finRange d) (j : Fin d) : j ∈ done ↔ j < col := by
  have hsorted : (done ++ col :: cols).Pairwise (· < ·) := h ▸ List.pairwise_lt_finRange d
  obtain ⟨-, hright, hacross⟩ := List.pairwise_append.mp hsorted
  refine ⟨fun hj => hacross j hj col List.mem_cons_self, fun hlt => ?_⟩
  have hmem : j ∈ done ++ col :: cols := h ▸ List.mem_finRange j
  rcases List.mem_append.mp hmem with hj | hj
  · exact hj
  · rcases List.mem_cons.mp hj with rfl | hj
    · exact absurd hlt (lt_irrefl j)
    · exact absurd hlt ((List.pairwise_cons.mp hright).1 j hj).not_gt

/-- An elimination that stops at a column shows that the matrix is nearly singular. -/
theorem isNearlySingular_of_foldlM {a : Square K d} {done cols : List (Fin d)}
    {pair : Square K d × Square K d} (h : Reduces a done pair) (hs : SameRows a pair.1 done)
    (hall : done ++ cols = List.finRange d) (hrun : cols.foldlM reduceColumn pair = none) :
    a.IsNearlySingular := by
  induction cols generalizing done pair with
  | nil => cases hrun
  | cons col cols ih =>
    have hdone := mem_iff_lt_of_append hall
    cases hstep : reduceColumn pair col with
    | none => exact hs.isNearlySingular hdone h.unit (abs_pivot_lt_of_reduceColumn hstep)
    | some next =>
      rw [List.foldlM_cons, hstep] at hrun
      have hbefore : ∀ j ∈ done, j < col := fun j hj => (hdone j).mp hj
      exact ih (h.reduceColumn hbefore hstep) (hs.reduceColumn hbefore hstep) (by simpa using hall)
        hrun

theorem isNearlySingular_of_inverse?_eq_none {a : Square K d} (h : a.inverse? = none) :
    a.IsNearlySingular := by
  refine isNearlySingular_of_foldlM (reduces_identity a) ⟨Equiv.refl _, fun v _ i => rfl⟩
    (List.nil_append _) ?_
  exact Option.map_eq_none_iff.mp h

omit [LinearOrder K] [IsStrictOrderedRing K] [Field K] in
theorem toMatrix_injective : Function.Injective (toMatrix : Square K d → _) := by
  intro m m' h
  exact Vector.ext fun i hi => Vector.ext fun j hj => congrFun (congrFun h ⟨i, hi⟩) ⟨j, hj⟩

/-- The identity is its own inverse. -/
theorem inverse?_identity : (identity : Square K d).inverse? = some identity := by
  cases h : (identity : Square K d).inverse? with
  | none =>
    obtain ⟨v, ⟨i, hi⟩, hsmall⟩ := isNearlySingular_of_inverse?_eq_none h
    have hlt := hsmall i
    rw [get_identity_mulVec, hi, abs_one] at hlt
    exact absurd hlt (by norm_num [negligiblePivot])
  | some inv =>
    have hone := mul_inverse? h
    rw [toMatrix_identity, one_mul] at hone
    exact congrArg some (toMatrix_injective (hone.trans toMatrix_identity.symm))

theorem diagonalInverse_identity : (identity : Square K d).diagonalInverse = identity := by
  have hone : (1 : K) / Max.max 1 negligiblePivot = 1 := by norm_num [negligiblePivot]
  refine toMatrix_injective (Matrix.ext fun i j => ?_)
  by_cases hij : i = j <;> simp [diagonalInverse, identity, hij, hone]

/-- Elimination returns an inverse from both sides, and nothing for a singular matrix. What it
refuses is nearly singular. -/
theorem inverse?_correct (a : Square K d) :
    (∀ inv, a.inverse? = some inv →
      a.toMatrix * inv.toMatrix = 1 ∧ inv.toMatrix * a.toMatrix = 1) ∧
      (a.toMatrix.det = 0 → a.inverse? = none) ∧
      (a.inverse? = none → a.IsNearlySingular) := by
  refine ⟨fun inv h => ⟨mul_inverse? h, mul_of_inverse? h⟩, fun hdet => ?_,
    isNearlySingular_of_inverse?_eq_none⟩
  cases h : a.inverse? with
  | none => rfl
  | some inv =>
    have hone := congrArg Matrix.det (mul_inverse? h)
    rw [Matrix.det_mul, hdet, zero_mul, Matrix.det_one] at hone
    exact absurd hone zero_ne_one

/-- A matrix that has to exchange rows, and one whose second row is twice the first. -/
theorem inverse?_correct_two :
    let a : Square ℚ 2 := #v[#v[0, 2], #v[1, 3]]
    let inv : Square ℚ 2 := #v[#v[-3 / 2, 1], #v[1 / 2, 0]]
    let singular : Square ℚ 2 := #v[#v[1, 2], #v[2, 4]]
    a.inverse? = some inv ∧ a.toMatrix * inv.toMatrix = 1 ∧ inv.toMatrix * a.toMatrix = 1 ∧
      singular.inverse? = none ∧ singular.IsNearlySingular := by
  intro a inv singular
  have hinv : a.inverse? = some inv := by decide +kernel
  have hdet : singular.toMatrix.det = 0 := by
    rw [Matrix.det_fin_two]
    decide +kernel
  obtain ⟨hnone, hnearly⟩ := (inverse?_correct singular).2
  exact ⟨hinv, ((inverse?_correct a).1 inv hinv).1, ((inverse?_correct a).1 inv hinv).2, hnone hdet,
    hnearly (hnone hdet)⟩

end ContextAdvisor.Square
