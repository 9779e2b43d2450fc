import ContextAdvisor.Learning.LinUcb
import ContextAdvisor.Proofs.Learning.Elimination
import ContextAdvisor.Proofs.Run
import ContextAdvisor.Proofs.Safeguard.StepLimit

/-!
# Definiteness of the design matrix in exact arithmetic

Fading scales the quadratic form of the design matrix, and the features of an update add a square to
it. So the form stays positive, and with it that of the inverse, as long as the step limit leaves
this update alone. It may still slow down the decay of the diagonal. A limit that holds back other
entries takes each of them for itself: a square that is missing on the diagonal and present beside
it makes the form negative in some direction.
-/
namespace ContextAdvisor

open scoped BigOperators

variable {K : Type} [Field K] [LinearOrder K] [IsStrictOrderedRing K] {d : Nat}

theorem dot_comm (x y : Vector K d) : dot x y = dot y x := by
  simp only [dot_eq_sum, mul_comm]

namespace Square

/-- Is the quadratic form of the matrix positive in every direction? -/
def IsPositive (m : Square K d) : Prop :=
  ∀ v : Vector K d, (∃ i, v.get i ≠ 0) → 0 < dot v (m.mulVec v)

theorem dot_mulVec (m : Square K d) (v : Vector K d) :
    dot v (m.mulVec v) = ∑ i, ∑ j, m.entry i j * (v.get i * v.get j) := by
  rw [dot_eq_sum]
  refine Finset.sum_congr rfl fun i _ => ?_
  rw [get_mulVec, Finset.mul_sum]
  exact Finset.sum_congr rfl fun j _ => by ring

theorem isPositive_of_diagonal {m : Square K d} {f : Fin d → K}
    (hm : ∀ v i, (m.mulVec v).get i = f i * v.get i) (hf : ∀ i, 0 < f i) : m.IsPositive := by
  rintro v ⟨i, hi⟩
  have hterm : ∀ j, v.get j * (m.mulVec v).get j = f j * (v.get j * v.get j) := by
    intro j
    rw [hm]
    ring
  rw [dot_eq_sum]
  refine Finset.sum_pos' (fun j _ => ?_) ⟨i, Finset.mem_univ i, ?_⟩
  · rw [hterm]
    exact mul_nonneg (hf j).le (mul_self_nonneg _)
  · rw [hterm]
    exact mul_pos (hf i) (mul_self_pos.mpr hi)

theorem isPositive_identity : (identity : Square K d).IsPositive :=
  isPositive_of_diagonal (fun v i => by rw [get_identity_mulVec, one_mul]) fun _ => zero_lt_one

/-- The inverse of the diagonal is positive whatever the matrix. -/
theorem isPositive_diagonalInverse (m : Square K d) : m.diagonalInverse.IsPositive :=
  isPositive_of_diagonal (fun v i => by rw [get_diagonalInverse_mulVec, div_eq_inv_mul])
    fun _ => inv_pos.mpr (lt_max_of_lt_right negligiblePivot_pos)

/-- The inverse of a positive matrix is positive: it takes each direction back to one in which the
matrix is. -/
theorem IsPositive.inverse? {a inv : Square K d} (ha : a.IsPositive) (h : a.inverse? = some inv) :
    inv.IsPositive := by
  rintro x ⟨i, hi⟩
  have hback : a.mulVec (inv.mulVec x) = x := by
    refine Vector.ext fun n hn => ?_
    have hx : a.toMatrix.mulVec (inv.toMatrix.mulVec x.get) = x.get := by
      rw [Matrix.mulVec_mulVec, mul_inverse? h, Matrix.one_mulVec]
    rw [toMatrix_mulVec, toMatrix_mulVec] at hx
    exact congrFun hx ⟨n, hn⟩
  have hne : ∃ j, (inv.mulVec x).get j ≠ 0 := by
    by_contra hzero
    push Not at hzero
    refine hi ?_
    rw [← hback, get_mulVec]
    exact Finset.sum_eq_zero fun j _ => by rw [hzero j, mul_zero]
  calc 0 < dot (inv.mulVec x) (a.mulVec (inv.mulVec x)) := ha _ hne
    _ = dot (inv.mulVec x) x := by rw [hback]
    _ = dot x (inv.mulVec x) := dot_comm _ _

theorem IsPositive.inverseBy {a : Square K d} (ha : a.IsPositive) (mode : Inversion) :
    (a.inverseBy mode).IsPositive := by
  cases mode with
  | diagonal => exact isPositive_diagonalInverse a
  | full =>
    show (a.inverse?.getD a.diagonalInverse).IsPositive
    cases h : a.inverse? with
    | none => exact isPositive_diagonalInverse a
    | some inv => exact ha.inverse? h

end Square

namespace LinearArm

/-- Does the step limit leave the update of the design matrix alone, except for a decay of the
diagonal that it slows down? -/
def Unheld (limit : StepLimit K) (fade : K) (arm : LinearArm K d) (x : Vector K d) : Prop :=
  ∀ i j, ((arm.updatedDesign limit fade x).entry i j).2 = true →
    i = j ∧ fade * arm.a.entry i i + x.get i * x.get i < arm.a.entry i i

/-- Small features are never held back, whatever the design matrix. -/
theorem unheld_of_le {limit : StepLimit K} {fade : K} (hfade : fade ≤ 1) {x : Vector K d}
    (h : ∀ i j, 1 - fade + |x.get i * x.get j| ≤ limit.rate) (arm : LinearArm K d) :
    Unheld limit fade arm x := by
  intro i j hheld
  have hfree : (limit.apply (arm.a.entry i j)
      (fade * arm.a.entry i j + x.get i * x.get j)).2 = false :=
    StepLimit.apply_of_le hfade (h i j)
  simp [updatedDesign, hfree] at hheld

omit [IsStrictOrderedRing K] in
theorem entry_update (limit : StepLimit K) (fade : K) (mode : Inversion) (arm : LinearArm K d)
    (x : Vector K d) (reward : K) (i j : Fin d) :
    (arm.update limit fade mode x reward).2.a.entry i j =
      ((arm.updatedDesign limit fade x).entry i j).1 := by
  simp [update, ofParts, Square.entry]

/-- Off the diagonal such an update does what was proposed, on the diagonal at least that. -/
theorem Unheld.le_entry_update {limit : StepLimit K} {fade : K} {arm : LinearArm K d}
    {x : Vector K d} (h : Unheld limit fade arm x) (mode : Inversion) (reward : K) (i j : Fin d) :
    fade * arm.a.entry i j + x.get i * x.get j ≤
        (arm.update limit fade mode x reward).2.a.entry i j ∧
      (i ≠ j → (arm.update limit fade mode x reward).2.a.entry i j =
        fade * arm.a.entry i j + x.get i * x.get j) := by
  have hheld := h i j
  rw [entry_update]
  simp only [updatedDesign, Square.entry_ofFn, Scalar.exact_max] at hheld ⊢
  generalize hp : fade * arm.a.entry i j + x.get i * x.get j = proposed at hheld ⊢
  cases hcut : (limit.apply (arm.a.entry i j) proposed).2 with
  | false =>
    rw [StepLimit.apply_of_not_held hcut]
    split_ifs with hij
    · exact ⟨le_max_left _ _, fun hne => absurd hij hne⟩
    · exact ⟨le_rfl, fun _ => rfl⟩
  | true =>
    obtain ⟨rfl, hfall⟩ := hheld hcut
    rw [hp] at hfall
    rw [if_pos rfl]
    exact ⟨le_max_of_le_left (limit.le_apply_of_falling hfall), fun hne => absurd rfl hne⟩

/-- One update of an arm, for features and a reward. -/
def learn (limit : StepLimit K) (fade : K) (mode : Inversion) (arm : LinearArm K d)
    (experience : Vector K d × K) : Nat × LinearArm K d :=
  arm.update limit fade mode experience.1 experience.2

/-- A positive design matrix stays positive: its form fades, and the square of the features along
the direction is added to it. -/
theorem Unheld.isPositive_update {limit : StepLimit K} {fade : K} {arm : LinearArm K d}
    {x : Vector K d} (h : Unheld limit fade arm x) (hfade : 0 < fade) (ha : arm.a.IsPositive)
    (mode : Inversion) (reward : K) :
    (arm.update limit fade mode x reward).2.a.IsPositive := by
  intro v hv
  have hform : fade * dot v (arm.a.mulVec v) + dot x v * dot x v =
      ∑ i, ∑ j, (fade * arm.a.entry i j + x.get i * x.get j) * (v.get i * v.get j) := by
    rw [Square.dot_mulVec, dot_eq_sum, Finset.sum_mul_sum, Finset.mul_sum,
      ← Finset.sum_add_distrib]
    refine Finset.sum_congr rfl fun i _ => ?_
    rw [Finset.mul_sum, ← Finset.sum_add_distrib]
    exact Finset.sum_congr rfl fun j _ => by ring
  calc 0 < fade * dot v (arm.a.mulVec v) + dot x v * dot x v :=
        add_pos_of_pos_of_nonneg (mul_pos hfade (ha v hv)) (mul_self_nonneg _)
    _ = ∑ i, ∑ j, (fade * arm.a.entry i j + x.get i * x.get j) * (v.get i * v.get j) := hform
    _ ≤ ∑ i, ∑ j, (arm.update limit fade mode x reward).2.a.entry i j * (v.get i * v.get j) := by
        refine Finset.sum_le_sum fun i _ => Finset.sum_le_sum fun j _ => ?_
        obtain ⟨hle, heq⟩ := h.le_entry_update mode reward i j
        by_cases hij : i = j
        · subst hij
          exact mul_le_mul_of_nonneg_right hle (mul_self_nonneg _)
        · exact (congrArg (· * _) (heq hij).symm).le
    _ = dot v ((arm.update limit fade mode x reward).2.a.mulVec v) := (Square.dot_mulVec _ v).symm

/-- After updates that the step limit leaves alone the design matrix is positive, and so is the
term whose root is the width, in every direction. -/
theorem explores_every_direction (limit : StepLimit K) {fade : K} (hfade : 0 < fade)
    (mode : Inversion) {experiences : List (Vector K d × K)}
    (h : Run.Always (learn limit fade mode) (fun arm e => Unheld limit fade arm e.1) fresh
      experiences) :
    let arm := Run.after (learn limit fade mode) fresh experiences
    arm.a.IsPositive ∧ ∀ x : Vector K d, (∃ i, x.get i ≠ 0) →
      0 < dot x (arm.inverse.mulVec x) ∧
        Scalar.max (dot x (arm.inverse.mulVec x)) 0.0 = dot x (arm.inverse.mulVec x) := by
  intro arm
  have hpositive : arm.a.IsPositive ∧ arm.inverse.IsPositive := by
    refine Run.after_of_always
      (Q := fun arm : LinearArm K d => arm.a.IsPositive ∧ arm.inverse.IsPositive)
      (fun arm e hun hboth => ?_) h ⟨Square.isPositive_identity, Square.isPositive_identity⟩
    have ha := hun.isPositive_update hfade hboth.1 mode e.2
    exact ⟨ha, ha.inverseBy mode⟩
  refine ⟨hpositive.1, fun x hx => ⟨hpositive.2 x hx, ?_⟩⟩
  rw [Scalar.exact_max, Scalar.exact_zero, max_eq_left (hpositive.2 x hx).le]

/-- Features between `-1` and `1` are never held back at the rate of `2`. -/
theorem explores_every_direction_two :
    let experiences : List (Vector ℚ 2 × ℚ) := [(#v[1, 1 / 2], 1), (#v[-1 / 2, 1], 0)]
    let arm := Run.after (learn ⟨2⟩ (1 / 2) .full) fresh experiences
    Run.Always (learn ⟨2⟩ (1 / 2) .full) (fun arm e => Unheld ⟨2⟩ (1 / 2) arm e.1) fresh
        experiences ∧
      arm.a.IsPositive ∧ 0 < dot #v[1, 0] (arm.inverse.mulVec #v[1, 0]) := by
  intro experiences arm
  have hsmall : ∀ e ∈ experiences, ∀ i j, 1 - 1 / 2 + |e.1.get i * e.1.get j| ≤ 2 := by
    decide +kernel
  have hunheld : Run.Always (learn ⟨2⟩ (1 / 2) .full) (fun arm e => Unheld ⟨2⟩ (1 / 2) arm e.1)
      fresh experiences :=
    Run.always_of_forall fun e he arm => unheld_of_le (by norm_num) (hsmall e he) arm
  obtain ⟨ha, hwidth⟩ := explores_every_direction ⟨2⟩ (by norm_num) .full hunheld
  exact ⟨hunheld, ha, (hwidth #v[1, 0] ⟨0, by decide +kernel⟩).1⟩

/-- Held back, the square of a large feature is missing on the diagonal: the form of the design
matrix is negative in one direction, and the term whose root is the width in another. -/
theorem indefinite_after_update :
    let arm := ((fresh : LinearArm ℚ 2).update ⟨2⟩ (1 / 2) .full #v[1 / 2, 4] 0).2
    ¬ arm.a.IsPositive ∧ dot #v[1, 0] (arm.inverse.mulVec #v[1, 0]) = -3 := by
  intro arm
  have hform : dot #v[2, -1] (arm.a.mulVec #v[2, -1]) = -1 := by decide +kernel
  have hwidth : dot #v[1, 0] (arm.inverse.mulVec #v[1, 0]) = -3 := by decide +kernel
  refine ⟨fun hpositive => ?_, hwidth⟩
  have hpos := hpositive #v[2, -1] ⟨0, by decide +kernel⟩
  rw [hform] at hpos
  norm_num at hpos

end LinearArm

end ContextAdvisor
