import ContextAdvisor.Proofs.Arithmetic.Extended
import ContextAdvisor.Sensing.Tray

/-!
# How the quality of a value fades

A value keeps its quality for one lifetime and loses it evenly over a second one. The share that is
left depends on the age alone and never grows with it, whether the value is fresh, stale or
worthless; a lifetime that is not positive leaves nothing at any age.
-/
namespace ContextAdvisor

variable {K : Type} [Field K] [LinearOrder K]

/-- The nearest number in `[0, 1]`; nothing for what is no number at all. -/
def clampedQuality : Extended K → K
  | .finite quality => max 0 (min quality 1)
  | .infinite negative => if negative then 0 else 1
  | .undefined => 0

theorem clampedQuality_nonneg [IsStrictOrderedRing K] (quality : Extended K) :
    0 ≤ clampedQuality quality := by
  cases quality with
  | finite quality => exact le_max_left _ _
  | infinite negative => cases negative <;> simp [clampedQuality]
  | undefined => exact le_rfl

theorem clampedQuality_le_one [IsStrictOrderedRing K] (quality : Extended K) :
    clampedQuality quality ≤ 1 := by
  cases quality with
  | finite quality => exact max_le zero_le_one (min_le_right _ _)
  | infinite negative => cases negative <;> simp [clampedQuality]
  | undefined => exact zero_le_one

theorem Tray.admitQuality_eq [IsStrictOrderedRing K] (quality : Extended K) :
    admitQuality quality = .finite (clampedQuality quality) := by
  cases quality with
  | finite quality =>
    simp only [admitQuality, Extended.isUndefined_finite, Bool.false_eq_true, if_false,
      Scalar.clamp, Extended.zero_eq, Extended.one_eq, Extended.finite_lt_finite, clampedQuality]
    split_ifs with hlow hhigh
    · rw [min_eq_left (hlow.le.trans zero_le_one), max_eq_left hlow.le]
    · rw [min_eq_right hhigh.le, max_eq_right zero_le_one]
    · rw [min_eq_left (not_lt.mp hhigh), max_eq_right (not_lt.mp hlow)]
  | infinite negative =>
    cases negative with
    | false => exact Extended.one_eq
    | true => exact Extended.zero_eq
  | undefined => exact Extended.zero_eq

/-- The share of its quality that a value still has at an age, if it has a lifetime or not. The time
that is left of two lifetimes decides, in units of one. -/
def keptShare (lifetime : Option Duration) (age : Duration) : K :=
  match lifetime with
  | none => 1
  | some lifetime =>
    if 0 < lifetime then max 0 (min 1 (((2 * lifetime - age : Int) : K) / (lifetime : K))) else 0

variable [IsStrictOrderedRing K] {lifetime : Option Duration} {span age later : Duration}

theorem keptShare_nonneg : 0 ≤ (keptShare lifetime age : K) := by
  cases lifetime with
  | none => exact zero_le_one
  | some span =>
    rw [keptShare]
    split_ifs
    · exact le_max_left _ _
    · exact le_rfl

theorem keptShare_le_one : (keptShare lifetime age : K) ≤ 1 := by
  cases lifetime with
  | none => exact le_rfl
  | some span =>
    rw [keptShare]
    split_ifs
    · exact max_le zero_le_one (min_le_left _ _)
    · exact zero_le_one

/-- With age the share does not grow. -/
theorem keptShare_antitone (h : age ≤ later) :
    (keptShare lifetime later : K) ≤ keptShare lifetime age := by
  cases lifetime with
  | none => exact le_rfl
  | some span =>
    rw [keptShare, keptShare]
    split_ifs with hspan
    · have hleft : 2 * span - later ≤ 2 * span - age := Int.sub_le_sub_left h _
      have hle : ((2 * span - later : Int) : K) / span ≤ (2 * span - age : Int) / span :=
        div_le_div_of_nonneg_right (Int.cast_le.mpr hleft) (Int.cast_nonneg hspan.le)
      exact max_le_max_left _ (min_le_min_left _ hle)
    · exact le_rfl

/-- A fresh value has all its quality. -/
theorem keptShare_of_fresh (hage : 0 ≤ age) (h : ∀ span ∈ lifetime, age < span) :
    (keptShare lifetime age : K) = 1 := by
  cases lifetime with
  | none => rfl
  | some span =>
    have hfresh : age < span := h span rfl
    have hspan : 0 < span := hage.trans_lt hfresh
    have hleft : span ≤ 2 * span - age := by linarith
    have hone : (1 : K) ≤ (2 * span - age : Int) / span :=
      (one_le_div (Int.cast_pos.mpr hspan)).mpr (Int.cast_le.mpr hleft)
    rw [keptShare, if_pos hspan, min_eq_left hone, max_eq_right zero_le_one]

/-- After two lifetimes no quality is left, and there never was any if the lifetime is not
positive. -/
theorem keptShare_of_expired (h : 2 * span ≤ age ∨ span ≤ 0) :
    (keptShare (some span) age : K) = 0 := by
  rw [keptShare]
  split_ifs with hspan
  · have hlong : 2 * span ≤ age := h.resolve_right hspan.not_ge
    have hnone : ((2 * span - age : Int) : K) / span ≤ 0 :=
      div_nonpos_of_nonpos_of_nonneg (Int.cast_nonpos.mpr (Int.sub_nonpos_of_le hlong))
        (Int.cast_nonneg hspan.le)
    exact max_eq_left ((min_le_right _ _).trans hnone)
  · rfl

namespace TrayEntry

theorem age_nonneg {α : Type} (slot : TrayEntry α) (now : Instant) : 0 ≤ slot.age now :=
  le_max_right _ _

theorem isFresh_eq {α : Type} (slot : TrayEntry α) (now : Instant) :
    slot.isFresh now = decide (∀ span ∈ slot.lifetime, slot.age now < span) := by
  rw [isFresh]
  cases slot.lifetime <;> simp

/-- What a stale value keeps is what is left of its second lifetime. -/
theorem decay_eq (h : span ≤ age) :
    (decay span age : Extended K) = .finite (keptShare (some span) age) := by
  rw [decay, keptShare]
  split_ifs with hspan
  · have hpos : (0 : K) < span := Int.cast_pos.mpr hspan
    have hleft : 1 - ((age - span : Int) : K) / span = (2 * span - age : Int) / span := by
      rw [one_sub_div hpos.ne', ← Int.cast_sub]
      congr 2
      ring
    have hstale : 2 * span - age ≤ span := by linarith
    have hle : ((2 * span - age : Int) : K) / span ≤ 1 :=
      (div_le_one hpos).mpr (Int.cast_le.mpr hstale)
    rw [Extended.ofInt_eq, Extended.ofInt_eq, Extended.finite_div hpos.ne', Extended.one_eq,
      Extended.finite_sub, Extended.zero_eq, Extended.max_finite, hleft, min_eq_right hle, max_comm]
  · exact Extended.zero_eq

theorem qualityAt_eq {slot : TrayEntry (Extended K)} {quality : K}
    (hq : slot.quality = .finite quality) (now : Instant) :
    slot.qualityAt now = .finite (quality * keptShare slot.lifetime (slot.age now)) := by
  rw [qualityAt]
  cases hl : slot.lifetime with
  | none => rw [hq, keptShare, mul_one]
  | some span =>
    dsimp only
    split_ifs with hfresh
    · have hall : ∀ s ∈ some span, slot.age now < s := by simpa using hfresh
      rw [hq, keptShare_of_fresh (slot.age_nonneg now) hall, mul_one]
    · rw [hq, decay_eq (not_lt.mp hfresh), Extended.finite_mul]

end TrayEntry

end ContextAdvisor
