import ContextAdvisor.Proofs.Arithmetic.Exact
import ContextAdvisor.Proofs.DecisionTree.Candidates
import ContextAdvisor.Rule.Scoring

/-!
# Confidence in exact arithmetic

Every score lies between 0 and 1, hence so does every confidence. A score of 0 makes the confidence
negligible, whether the product is cut short before it or not; this is what happens to a rule that
the context rules out.
-/
namespace ContextAdvisor

variable {K : Type} [Field K] [LinearOrder K] [IsStrictOrderedRing K]

namespace Scalar

theorem ofBool_mem_unit (b : Bool) : 0 ≤ (ofBool b : K) ∧ (ofBool b : K) ≤ 1 := by
  cases b <;> norm_num [ofBool]

end Scalar

namespace Score

theorem one_le_margin (size : K) : 1 ≤ margin size := by
  norm_num [margin]

/-- A decay over a distance that is not negative lies between 0 and 1. -/
theorem decay_mem_unit {distance margin : K} (hd : 0 ≤ distance) (hm : 1 ≤ margin) :
    0 ≤ decay distance margin ∧ decay distance margin ≤ 1 := by
  have hq : 0 ≤ distance / margin := div_nonneg hd (zero_le_one.trans hm)
  rw [decay, Scalar.exact_max]
  constructor
  · norm_num
  · refine max_le ?_ (by norm_num)
    norm_num
    exact hq

end Score

namespace Condition

theorem thresholdScore_mem_unit (op : Operator) (actual threshold : String) :
    0 ≤ (thresholdScore op actual threshold : K) ∧
      (thresholdScore op actual threshold : K) ≤ 1 := by
  unfold thresholdScore
  split
  · split_ifs
    · norm_num
    · exact Score.decay_mem_unit (abs_nonneg _) (Score.one_le_margin _)
  · exact Scalar.ofBool_mem_unit _

theorem rangeScore_mem_unit (actual bounds : String) :
    0 ≤ (rangeScore actual bounds : K) ∧ (rangeScore actual bounds : K) ≤ 1 := by
  unfold rangeScore
  split
  · next a low high _ _ =>
    split_ifs with hin hlow
    · norm_num
    · exact Score.decay_mem_unit (sub_nonneg.mpr hlow.le) (Score.one_le_margin _)
    · -- not in the range and not below it
      have habove : high ≤ a := by
        by_contra h
        exact hin ⟨not_lt.mp hlow, (not_le.mp h).le⟩
      exact Score.decay_mem_unit (sub_nonneg.mpr habove) (Score.one_le_margin _)
  · norm_num

theorem scoreOf_mem_unit (c : Condition) (actual : String) :
    0 ≤ (c.scoreOf actual : K) ∧ (c.scoreOf actual : K) ≤ 1 := by
  obtain ⟨key, op, value⟩ := c
  cases op with
  | eq | neq | oneOf => simp only [scoreOf]; exact Scalar.ofBool_mem_unit _
  | gt | gte | lt | lte => simp only [scoreOf]; exact thresholdScore_mem_unit _ _ _
  | range => simp only [scoreOf]; exact rangeScore_mem_unit _ _
  | recent | within | unknown => norm_num [scoreOf]

/-- Every score lies between 0 and 1. -/
theorem score_mem_unit (history : History) (context : Context) (c : Condition) :
    0 ≤ (c.score history context : K) ∧ (c.score history context : K) ≤ 1 := by
  unfold score
  split_ifs
  · split
    · exact Scalar.ofBool_mem_unit _
    · norm_num
  · unfold softScore
    split
    · exact scoreOf_mem_unit _ _
    · split_ifs <;> norm_num [Score.missing]

/-- An equality on a key with another value scores 0. -/
theorem score_eq_zero {history : History} {context : Context} {c : Condition} {actual : String}
    (hop : c.op = .eq) (hv : context.get? c.key = some actual) (hne : actual ≠ c.value) :
    (c.score history context : K) = 0 := by
  simp [score, softScore, scoreOf, hop, hv, hne, Operator.isTemporal, Scalar.ofBool]

end Condition

namespace Score

theorem productFrom_mem_unit {scores : List K} (h : ∀ s ∈ scores, 0 ≤ s ∧ s ≤ 1) {product : K}
    (hp : 0 ≤ product ∧ product ≤ 1) :
    0 ≤ productFrom product scores ∧ productFrom product scores ≤ 1 := by
  induction scores generalizing product with
  | nil => exact hp
  | cons s rest ih =>
    obtain ⟨hs, hr⟩ := List.forall_mem_cons.mp h
    have hn : 0 ≤ product * s ∧ product * s ≤ 1 :=
      ⟨mul_nonneg hp.1 hs.1, mul_le_one₀ hp.2 hs.1 hs.2⟩
    simp only [productFrom]
    split_ifs
    · exact hn
    · exact ih hr hn

/-- A score of 0 makes the product negligible. -/
theorem productFrom_lt_of_zero_mem {scores : List K} (h : 0 ∈ scores) (product : K) :
    productFrom product scores < negligible := by
  induction scores generalizing product with
  | nil => simp at h
  | cons s rest ih =>
    simp only [productFrom]
    split_ifs with hn
    · exact hn
    · rcases List.mem_cons.mp h with rfl | h
      · exact absurd (by norm_num [negligible]) hn
      · exact ih h _

end Score

namespace Rule

/-- The first equality on a key is a condition of the rule. -/
theorem exists_condition_of_fixed {α : Type} {rule : Rule α} {key required : String}
    (h : rule.fixed? key = some required) :
    ∃ c ∈ rule.conditions, c.op = .eq ∧ c.key = key ∧ c.value = required := by
  obtain ⟨c, hc, rfl⟩ := Option.map_eq_some_iff.mp h
  have hp := List.find?_some hc
  simp only [decide_eq_true_eq] at hp
  exact ⟨c, List.mem_of_find?_eq_some hc, hp.1, hp.2, rfl⟩

theorem confidence_mem_unit (history : History) (context : Context)
    (conditions : List Condition) : 0 ≤ (confidence history context conditions : K) ∧
      (confidence history context conditions : K) ≤ 1 := by
  refine Score.productFrom_mem_unit ?_ (by norm_num)
  simp only [List.forall_mem_map]
  exact fun c _ => Condition.score_mem_unit history context c

/-- A rule that the context rules out has a negligible confidence. -/
theorem confidence_lt_of_not_mayFit {rule : Rule K} {context : Context}
    (h : ¬ rule.MayFit context) (history : History) :
    confidence history context rule.conditions < (Score.negligible : K) := by
  simp only [MayFit, not_forall, not_or] at h
  obtain ⟨key, required, hf, hnone, hne⟩ := h
  obtain ⟨actual, hv⟩ := Option.ne_none_iff_exists'.mp hnone
  obtain ⟨c, hc, hop, rfl, rfl⟩ := exists_condition_of_fixed hf
  refine Score.productFrom_lt_of_zero_mem (List.mem_map.mpr ⟨c, hc, ?_⟩) _
  exact Condition.score_eq_zero hop hv fun he => hne (he ▸ hv)

end Rule

end ContextAdvisor
