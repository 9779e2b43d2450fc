import ContextAdvisor.Proofs.Rule.Confidence

/-!
# Conditions that compare numbers

The four orders and the range all score the same way: by how far the value lies from the nearer
bound, on a margin that depends on the bounds only. So a value that satisfies the comparison scores
1, one that fails it scores less the further it is away, and 0 from the margin on.

Whether a bound belongs to the demanded side makes no difference to a distance. A value exactly at
the bound of a strict order fails the comparison and still scores 1.
-/
namespace ContextAdvisor

variable {K : Type} [Field K] [LinearOrder K]

/-- What a condition demands of a number. -/
inductive Comparison (K : Type) where
  | above (strict : Bool) (threshold : K)
  | below (strict : Bool) (threshold : K)
  | between (low high : K)
  deriving DecidableEq

namespace Comparison

/-- Does a number satisfy the comparison? -/
def Holds : Comparison K → K → Prop
  | above true threshold, a => threshold < a
  | above false threshold, a => threshold ≤ a
  | below true threshold, a => a < threshold
  | below false threshold, a => a ≤ threshold
  | between low high, a => low ≤ a ∧ a ≤ high

instance decidableHolds : (comparison : Comparison K) → (a : K) → Decidable (comparison.Holds a)
  | above true threshold, a => inferInstanceAs (Decidable (threshold < a))
  | above false threshold, a => inferInstanceAs (Decidable (threshold ≤ a))
  | below true threshold, a => inferInstanceAs (Decidable (a < threshold))
  | below false threshold, a => inferInstanceAs (Decidable (a ≤ threshold))
  | between low high, a => inferInstanceAs (Decidable (low ≤ a ∧ a ≤ high))

/-- Is a number the bound itself, where that is not allowed? -/
def AtOpenBound : Comparison K → K → Prop
  | above true threshold, a => a = threshold
  | below true threshold, a => a = threshold
  | _, _ => False

/-- How far a number lies beyond the nearer bound. -/
def distance : Comparison K → K → K
  | above _ threshold, a => max (threshold - a) 0
  | below _ threshold, a => max (a - threshold) 0
  | between low high, a => max (max (low - a) (a - high)) 0

/-- A tenth of the threshold or of the width of the range, but at least 1. -/
def margin : Comparison K → K
  | above _ threshold => max (|threshold| / (10 : ℕ)) 1
  | below _ threshold => max (|threshold| / (10 : ℕ)) 1
  | between low high => max ((high - low) / (10 : ℕ)) 1

theorem one_le_margin (comparison : Comparison K) : 1 ≤ comparison.margin := by
  cases comparison <;> exact le_max_right _ _

theorem distance_nonneg (comparison : Comparison K) (a : K) : 0 ≤ comparison.distance a := by
  cases comparison <;> exact le_max_right _ _

variable [IsStrictOrderedRing K]

/-- Only numbers that satisfy the comparison, and forbidden bounds, are at no distance. -/
theorem distance_eq_zero_iff (comparison : Comparison K) (a : K) :
    comparison.distance a = 0 ↔ comparison.Holds a ∨ comparison.AtOpenBound a := by
  cases comparison with
  | above strict threshold =>
    cases strict <;> simp [distance, Holds, AtOpenBound, le_iff_lt_or_eq, sub_eq_zero, eq_comm]
  | below strict threshold =>
    cases strict <;> simp [distance, Holds, AtOpenBound, le_iff_lt_or_eq, sub_eq_zero]
  | between low high => simp [distance, Holds, AtOpenBound]

end Comparison

namespace Score

variable [IsStrictOrderedRing K] {distance margin : K}

theorem margin_eq (size : K) : Score.margin size = max (size / 10) 1 := by
  rw [Score.margin, Scalar.exact_max, Scalar.exact_one, div_eq_mul_inv]
  norm_num

theorem decay_eq (distance margin : K) : decay distance margin = max (1 - distance / margin) 0 := by
  rw [decay, Scalar.exact_max, Scalar.exact_one, Scalar.exact_zero]

@[simp] theorem decay_zero (margin : K) : decay 0 margin = 1 := by
  rw [decay_eq, zero_div, sub_zero, max_eq_left zero_le_one]

theorem decay_lt_one (hd : 0 < distance) (hm : 0 < margin) : decay distance margin < 1 := by
  rw [decay_eq]
  exact max_lt (sub_lt_self 1 (div_pos hd hm)) zero_lt_one

theorem decay_le_decay {further : K} (h : distance ≤ further) (hm : 0 < margin) :
    decay further margin ≤ decay distance margin := by
  rw [decay_eq, decay_eq]
  exact max_le_max_right 0 (sub_le_sub_left (div_le_div_of_nonneg_right h hm.le) 1)

theorem decay_eq_zero (h : margin ≤ distance) (hm : 0 < margin) : decay distance margin = 0 := by
  rw [decay_eq, max_eq_right]
  exact sub_nonpos.mpr ((one_le_div hm).mpr h)

end Score

namespace Condition

/-- The comparison that a condition makes, if it is one of numbers. A range has to be in order. -/
def comparison? (c : Condition) : Option (Comparison K) :=
  match c.op with
  | .gt => (readNumber? c.value).map (.above true)
  | .gte => (readNumber? c.value).map (.above false)
  | .lt => (readNumber? c.value).map (.below true)
  | .lte => (readNumber? c.value).map (.below false)
  | .range =>
    match (Text.listed c.value.toList).map Scalar.readFinite? with
    | [some low, some high] => if low ≤ high then some (.between low high) else none
    | _ => none
  | _ => none

variable [IsStrictOrderedRing K]

/-- A number scores by how far it lies beyond a bound, if that is positive only where the comparison
fails. -/
theorem thresholdScore_eq_decay {op : Operator} {actual threshold : String} {a t beyond : K}
    (ha : readNumber? actual = some a) (ht : readNumber? threshold = some t)
    (hsize : |beyond| = |a - t|) (hholds : holds op a t = true → beyond ≤ 0)
    (hfails : holds op a t = false → 0 ≤ beyond) :
    thresholdScore op actual threshold = Score.decay (max beyond 0) (max (|t| / 10) 1) := by
  simp only [thresholdScore, ha, ht, Score.margin_eq, Scalar.exact_abs]
  split_ifs with h
  · rw [max_eq_right (hholds h), Score.decay_zero, Scalar.exact_one]
  · have hbeyond := hfails (Bool.eq_false_iff.mpr h)
    rw [max_eq_left hbeyond, ← hsize, abs_of_nonneg hbeyond]

/-- A lower bound scores by how far the value falls short of it, strict or not. -/
theorem thresholdScore_eq_of_lower {op : Operator} (hop : op = .gt ∨ op = .gte)
    {actual threshold : String} {a t : K} (ha : readNumber? actual = some a)
    (ht : readNumber? threshold = some t) :
    thresholdScore op actual threshold = Score.decay (max (t - a) 0) (max (|t| / 10) 1) := by
  have hhigh : holds op a t = true → t ≤ a := by
    rcases hop with rfl | rfl
    · exact fun h => (of_decide_eq_true h).le
    · exact fun h => of_decide_eq_true h
  have hlow : holds op a t = false → a ≤ t := by
    rcases hop with rfl | rfl
    · exact fun h => not_lt.mp (of_decide_eq_false h)
    · exact fun h => le_of_not_ge (of_decide_eq_false h)
  exact thresholdScore_eq_decay ha ht (abs_sub_comm t a) (fun h => sub_nonpos.mpr (hhigh h))
    fun h => sub_nonneg.mpr (hlow h)

/-- An upper bound scores by how far the value exceeds it, strict or not. -/
theorem thresholdScore_eq_of_upper {op : Operator} (hop : op = .lt ∨ op = .lte)
    {actual threshold : String} {a t : K} (ha : readNumber? actual = some a)
    (ht : readNumber? threshold = some t) :
    thresholdScore op actual threshold = Score.decay (max (a - t) 0) (max (|t| / 10) 1) := by
  have hlow : holds op a t = true → a ≤ t := by
    rcases hop with rfl | rfl
    · exact fun h => (of_decide_eq_true h).le
    · exact fun h => of_decide_eq_true h
  have hhigh : holds op a t = false → t ≤ a := by
    rcases hop with rfl | rfl
    · exact fun h => not_lt.mp (of_decide_eq_false h)
    · exact fun h => le_of_not_ge (of_decide_eq_false h)
  exact thresholdScore_eq_decay ha ht rfl (fun h => sub_nonpos.mpr (hlow h))
    fun h => sub_nonneg.mpr (hhigh h)

theorem rangeScore_eq_decay {actual bounds : String} {a low high : K}
    (ha : readNumber? actual = some a)
    (hb : (Text.listed bounds.toList).map Scalar.readFinite? = [some low, some high])
    (hle : low ≤ high) :
    rangeScore actual bounds =
      Score.decay (max (max (low - a) (a - high)) 0) (max ((high - low) / 10) 1) := by
  simp only [rangeScore, ha, hb, Score.margin_eq]
  split_ifs with hin hlow
  · have hinside : max (low - a) (a - high) ≤ 0 :=
      max_le (sub_nonpos.mpr hin.1) (sub_nonpos.mpr hin.2)
    rw [max_eq_right hinside, Score.decay_zero, Scalar.exact_one]
  · have hbelow : a - high ≤ low - a :=
      (sub_nonpos.mpr (hlow.le.trans hle)).trans (sub_nonneg.mpr hlow.le)
    rw [max_eq_left hbelow, max_eq_left (sub_nonneg.mpr hlow.le)]
  · -- neither below the range nor in it
    have hhigh : high ≤ a := le_of_not_ge fun h => hin ⟨not_lt.mp hlow, h⟩
    have habove : low - a ≤ a - high :=
      (sub_nonpos.mpr (not_lt.mp hlow)).trans (sub_nonneg.mpr hhigh)
    rw [max_eq_right habove, max_eq_left (sub_nonneg.mpr hhigh)]

/-- A condition that compares numbers scores by the distance from the nearer bound. -/
theorem softScore_eq_decay {c : Condition} {comparison : Comparison K}
    (hc : c.comparison? = some comparison) {context : Context} {actual : String} {a : K}
    (hv : context.get? c.key = some actual) (ha : readNumber? actual = some a) :
    c.softScore context = Score.decay (comparison.distance a) comparison.margin := by
  obtain ⟨key, op, value⟩ := c
  simp only [softScore, hv, scoreOf, comparison?] at hc ⊢
  cases op with
  | gt =>
    obtain ⟨t, ht, rfl⟩ := Option.map_eq_some_iff.mp hc
    exact thresholdScore_eq_of_lower (.inl rfl) ha ht
  | gte =>
    obtain ⟨t, ht, rfl⟩ := Option.map_eq_some_iff.mp hc
    exact thresholdScore_eq_of_lower (.inr rfl) ha ht
  | lt =>
    obtain ⟨t, ht, rfl⟩ := Option.map_eq_some_iff.mp hc
    exact thresholdScore_eq_of_upper (.inl rfl) ha ht
  | lte =>
    obtain ⟨t, ht, rfl⟩ := Option.map_eq_some_iff.mp hc
    exact thresholdScore_eq_of_upper (.inr rfl) ha ht
  | range =>
    dsimp only at hc
    split at hc
    · next low high hb =>
      obtain ⟨hle, hc⟩ := Option.ite_none_right_eq_some.mp hc
      cases hc
      exact rangeScore_eq_decay ha hb hle
    · cases hc
  | eq | neq | oneOf | recent | within | unknown => cases hc

/-- Strict orders score like those that allow the bound. -/
theorem thresholdScore_strict (actual threshold : String) :
    (thresholdScore .gt actual threshold : K) = thresholdScore .gte actual threshold ∧
      (thresholdScore .lt actual threshold : K) = thresholdScore .lte actual threshold := by
  cases ha : (readNumber? actual : Option K) with
  | none => simp [thresholdScore, ha]
  | some a =>
    cases ht : (readNumber? threshold : Option K) with
    | none => simp [thresholdScore, ha, ht]
    | some t =>
      rw [thresholdScore_eq_of_lower (.inl rfl) ha ht, thresholdScore_eq_of_lower (.inr rfl) ha ht,
        thresholdScore_eq_of_upper (.inl rfl) ha ht, thresholdScore_eq_of_upper (.inr rfl) ha ht]
      exact ⟨rfl, rfl⟩

/-- What a condition on a number scores, at a value that is not a forbidden bound: 1 if the
comparison holds, less if it does not, never more at a value further away, and 0 from the margin
on. -/
theorem softScore_of_comparison {c : Condition} {comparison : Comparison K}
    (hc : c.comparison? = some comparison) {context : Context} {actual : String} {a : K}
    (hv : context.get? c.key = some actual) (ha : readNumber? actual = some a)
    (hopen : ¬ comparison.AtOpenBound a) :
    ((c.softScore context : K) = 1 ↔ comparison.Holds a) ∧
      (¬ comparison.Holds a → (c.softScore context : K) < 1 ∧
        (comparison.margin ≤ comparison.distance a → (c.softScore context : K) = 0) ∧
        ∀ (other : Context) (actual' : String) (a' : K), other.get? c.key = some actual' →
          readNumber? actual' = some a' → comparison.distance a ≤ comparison.distance a' →
            (c.softScore other : K) ≤ c.softScore context) := by
  have hm : 0 < comparison.margin := zero_lt_one.trans_le comparison.one_le_margin
  have hscore := softScore_eq_decay hc hv ha
  have hholds : comparison.Holds a → (c.softScore context : K) = 1 := fun h => by
    rw [hscore, (comparison.distance_eq_zero_iff a).mpr (.inl h), Score.decay_zero]
  have hfails : ¬ comparison.Holds a → (c.softScore context : K) < 1 := fun h => by
    have hne : comparison.distance a ≠ 0 := fun hzero =>
      ((comparison.distance_eq_zero_iff a).mp hzero).elim h hopen
    rw [hscore]
    exact Score.decay_lt_one ((comparison.distance_nonneg a).lt_of_ne' hne) hm
  refine ⟨⟨fun hone => ?_, hholds⟩, fun h => ⟨hfails h, fun hfar => ?_, ?_⟩⟩
  · by_contra h
    exact (hfails h).ne hone
  · rw [hscore]
    exact Score.decay_eq_zero hfar hm
  · intro other actual' a' hv' ha' hfurther
    rw [hscore, softScore_eq_decay hc hv' ha']
    exact Score.decay_le_decay hfurther hm

/-- Half an hour after a range for the hour, and five hours after it. -/
theorem softScore_of_comparison_hour :
    let c : Condition := ⟨"hour", .range, "7,8"⟩
    let context (hour : String) : Context := Dictionary.empty.insert "hour" hour
    c.comparison? = some (.between 7 8 : Comparison ℚ) ∧
      (c.softScore (context "8.5") : ℚ) < 1 ∧ (c.softScore (context "12") : ℚ) = 0 ∧
      (c.softScore (context "12") : ℚ) ≤ c.softScore (context "8.5") := by
  intro c context
  have hc : c.comparison? = some (.between 7 8 : Comparison ℚ) := by decide +kernel
  have hclose : readNumber? "8.5" = some (17 / 2 : ℚ) := by decide +kernel
  have hfar : readNumber? "12" = some (12 : ℚ) := by decide +kernel
  have hvalue : ∀ hour, (context hour).get? c.key = some hour := fun _ => rfl
  obtain ⟨-, hfails⟩ := softScore_of_comparison hc (hvalue "8.5") hclose id
  obtain ⟨hlt, -, hmono⟩ := hfails (by decide +kernel)
  obtain ⟨-, hfails⟩ := softScore_of_comparison hc (hvalue "12") hfar id
  exact ⟨hc, hlt, (hfails (by decide +kernel)).2.1 (by decide +kernel),
    hmono (context "12") "12" 12 (hvalue "12") hfar (by decide +kernel)⟩

/-- A level of 20 is not above 20, and yet it scores 1. -/
theorem full_score_at_open_bound :
    let c : Condition := ⟨"batteryLevel", .gt, "20"⟩
    let context : Context := Dictionary.empty.insert "batteryLevel" "20"
    c.comparison? = some (.above true 20 : Comparison ℚ) ∧
      context.get? c.key = some "20" ∧ readNumber? "20" = some (20 : ℚ) ∧
      ¬ (Comparison.above true (20 : ℚ)).Holds 20 ∧ c.softScore context = (1 : ℚ) := by
  intro c context
  decide +kernel

end Condition

end ContextAdvisor
