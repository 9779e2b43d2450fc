import ContextAdvisor.Proofs.Rule.Confidence

/-!
# The confidence and the product of all scores

The confidence stops at the first negligible product and leaves the other conditions unread. They
could only have lowered it, so it is never below the product of all scores, and where the two differ
both are negligible. Compared with a threshold that is not negligible the confidence therefore
decides like the full product, in which the order of the conditions does not matter.
-/
namespace ContextAdvisor

variable {K : Type} [Field K] [LinearOrder K] [IsStrictOrderedRing K]

namespace Score

variable {scores : List K} {product : K}

omit [IsStrictOrderedRing K] in
/-- What is multiplied up is the product of the scores that are taken into account. -/
theorem productFrom_eq_mul_prod_take (scores : List K) (product : K) :
    productFrom product scores = product * (scores.take (examinedFrom product scores)).prod := by
  induction scores generalizing product with
  | nil => simp [productFrom]
  | cons s rest ih =>
    simp only [productFrom, examinedFrom]
    split_ifs with hn
    · simp
    · rw [ih, List.take_succ_cons, List.prod_cons, mul_assoc]

omit [IsStrictOrderedRing K] in
/-- A product to which another score is multiplied is not negligible. -/
theorem negligible_le_mul_prod_take (hp : negligible ≤ product) {n : Nat}
    (hn : n < examinedFrom product scores) : negligible ≤ product * (scores.take n).prod := by
  induction scores generalizing product n with
  | nil => simp [examinedFrom] at hn
  | cons s rest ih =>
    cases n with
    | zero => simpa using hp
    | succ n =>
      simp only [examinedFrom] at hn
      split_ifs at hn with hstop
      · omega
      · rw [List.take_succ_cons, List.prod_cons, ← mul_assoc]
        exact ih (not_lt.mp hstop) (by omega)

omit [IsStrictOrderedRing K] in
/-- Scores are left out only once the product is negligible. -/
theorem productFrom_lt_of_examinedFrom_lt (h : examinedFrom product scores < scores.length) :
    productFrom product scores < negligible := by
  induction scores generalizing product with
  | nil => simp at h
  | cons s rest ih =>
    simp only [productFrom, examinedFrom, List.length_cons] at h ⊢
    split_ifs at h ⊢ with hstop
    · exact hstop
    · exact ih (by omega)

theorem prod_mem_unit (h : ∀ s ∈ scores, 0 ≤ s ∧ s ≤ 1) : 0 ≤ scores.prod ∧ scores.prod ≤ 1 := by
  induction scores with
  | nil => simp
  | cons s rest ih =>
    obtain ⟨hs, hr⟩ := List.forall_mem_cons.mp h
    rw [List.prod_cons]
    exact ⟨mul_nonneg hs.1 (ih hr).1, mul_le_one₀ hs.2 (ih hr).1 (ih hr).2⟩

/-- The scores that are left out could only have lowered the product. -/
theorem mul_prod_le_productFrom (h : ∀ s ∈ scores, 0 ≤ s ∧ s ≤ 1) (hp : 0 ≤ product) :
    product * scores.prod ≤ productFrom product scores := by
  let n := examinedFrom product scores
  have htaken : 0 ≤ product * (scores.take n).prod :=
    mul_nonneg hp (prod_mem_unit fun s hs => h s (List.mem_of_mem_take hs)).1
  have hleft : (scores.drop n).prod ≤ 1 :=
    (prod_mem_unit fun s hs => h s (List.mem_of_mem_drop hs)).2
  calc product * scores.prod = product * (scores.take n).prod * (scores.drop n).prod := by
        rw [mul_assoc, List.prod_take_mul_prod_drop]
    _ ≤ product * (scores.take n).prod := mul_le_of_le_one_right htaken hleft
    _ = productFrom product scores := (productFrom_eq_mul_prod_take scores product).symm

/-- One more score at the end does not raise the product. -/
theorem productFrom_append_singleton_le {last : K} (h : ∀ s ∈ scores, 0 ≤ s) (hp : 0 ≤ product)
    (hlast : last ≤ 1) : productFrom product (scores ++ [last]) ≤ productFrom product scores := by
  induction scores generalizing product with
  | nil =>
    simp only [List.nil_append, productFrom, ite_self]
    exact mul_le_of_le_one_right hp hlast
  | cons s rest ih =>
    obtain ⟨hs, hr⟩ := List.forall_mem_cons.mp h
    simp only [List.cons_append, productFrom]
    split_ifs
    · exact le_rfl
    · exact ih hr (mul_nonneg hp hs)

end Score

namespace Rule

variable (history : History) (context : Context)

/-- The product of the scores of all conditions. -/
def scoreProduct (conditions : List Condition) : K :=
  (conditions.map (Condition.score history context)).prod

/-- Is `read` the shortest beginning of the conditions with a negligible product? -/
structure StopsAfter (K : Type) [Field K] [LinearOrder K] (history : History) (context : Context)
    (conditions read : List Condition) : Prop where
  begins : read <+: conditions
  negligible : scoreProduct history context read < (Score.negligible : K)
  shortest : ∀ other, other <+: conditions →
    scoreProduct history context other < (Score.negligible : K) → read.length ≤ other.length

variable {history context} {conditions : List Condition}

theorem score_mem_unit_of_mem {s : K} (h : s ∈ conditions.map (Condition.score history context)) :
    0 ≤ s ∧ s ≤ 1 := by
  obtain ⟨c, _, rfl⟩ := List.mem_map.mp h
  exact Condition.score_mem_unit history context c

omit [IsStrictOrderedRing K] in
theorem scoreProduct_perm {reordered : List Condition} (h : reordered.Perm conditions) :
    (scoreProduct history context reordered : K) = scoreProduct history context conditions :=
  (h.map _).prod_eq

variable (conditions) in
omit [IsStrictOrderedRing K] in
theorem examined_begins : examined K history context conditions <+: conditions :=
  List.take_prefix _ _

variable (history context conditions)

/-- The confidence is the product over the conditions that are examined. -/
theorem confidence_eq_scoreProduct_examined :
    (confidence history context conditions : K) =
      scoreProduct history context (examined K history context conditions) := by
  rw [confidence, Score.productFrom_eq_mul_prod_take, scoreProduct, examined, List.map_take,
    Scalar.exact_one, one_mul]

variable (K) in
omit [IsStrictOrderedRing K] in
/-- A condition is left unread only if the confidence is negligible. -/
theorem examined_eq_or_confidence_lt :
    examined K history context conditions = conditions ∨
      (confidence history context conditions : K) < Score.negligible := by
  by_cases hall : conditions.length ≤ Score.examinedFrom (1.0 : K)
      (conditions.map (Condition.score history context))
  · exact .inl (List.take_of_length_le hall)
  · refine .inr (Score.productFrom_lt_of_examinedFrom_lt ?_)
    rw [List.length_map]
    exact not_le.mp hall

theorem scoreProduct_le_confidence :
    (scoreProduct history context conditions : K) ≤ confidence history context conditions := by
  have hunit : ∀ s ∈ conditions.map (Condition.score (α := K) history context), 0 ≤ s ∧ s ≤ 1 :=
    fun s hs => score_mem_unit_of_mem hs
  rw [confidence, Scalar.exact_one, scoreProduct]
  exact (one_mul _).symm.trans_le (Score.mul_prod_le_productFrom hunit zero_le_one)

variable {history context conditions}

/-- No beginning that is shorter than what is examined has a negligible product. -/
theorem negligible_le_scoreProduct {other : List Condition} (h : other <+: conditions)
    (hlt : other.length < (examined K history context conditions).length) :
    (Score.negligible : K) ≤ scoreProduct history context other := by
  have hone : (Score.negligible : K) ≤ 1.0 := by norm_num [Score.negligible]
  have hcount : other.length < Score.examinedFrom (1.0 : K)
      (conditions.map (Condition.score history context)) := by
    refine hlt.trans_le ?_
    rw [examined, List.length_take]
    exact min_le_left _ _
  have := Score.negligible_le_mul_prod_take hone hcount
  rwa [Scalar.exact_one, one_mul, ← List.map_take, ← List.prefix_iff_eq_take.mp h] at this

/-- Of a threshold that is not negligible the confidence and the full product say the same. -/
theorem lt_confidence_iff_lt_scoreProduct {threshold : K} (h : Score.negligible ≤ threshold) :
    threshold < confidence history context conditions ↔
      threshold < scoreProduct history context conditions := by
  refine ⟨fun hlt => ?_, fun hlt => hlt.trans_le (scoreProduct_le_confidence _ _ _)⟩
  rcases examined_eq_or_confidence_lt K history context conditions with hall | hnegligible
  · rwa [confidence_eq_scoreProduct_examined, hall] at hlt
  · exact absurd hlt (hnegligible.le.trans h).not_gt

/-- The shortest beginning with a negligible product is what is examined. -/
theorem StopsAfter.eq_examined {read : List Condition}
    (h : StopsAfter K history context conditions read) :
    read = examined K history context conditions := by
  have hge : (examined K history context conditions).length ≤ read.length := by
    by_contra hlt
    exact (negligible_le_scoreProduct h.begins (not_le.mp hlt)).not_gt h.negligible
  have hle : read.length ≤ (examined K history context conditions).length := by
    rcases examined_eq_or_confidence_lt K history context conditions with hall | hnegligible
    · rw [hall]
      exact h.begins.length_le
    · rw [confidence_eq_scoreProduct_examined] at hnegligible
      exact h.shortest _ (examined_begins conditions) hnegligible
  exact (List.prefix_of_prefix_length_le h.begins (examined_begins conditions) hle).eq_of_length
    (le_antisymm hle hge)

/-- A negligible confidence is the product over the shortest beginning that makes it so. -/
theorem stopsAfter_examined
    (h : (confidence history context conditions : K) < Score.negligible) :
    StopsAfter K history context conditions (examined K history context conditions) where
  begins := examined_begins conditions
  negligible := by rwa [← confidence_eq_scoreProduct_examined]
  shortest other hother hlow := by
    by_contra hlt
    exact (negligible_le_scoreProduct hother (not_le.mp hlt)).not_gt hlow

/-- One more condition at the end does not raise the confidence. -/
theorem confidence_append_singleton_le (c : Condition) :
    (confidence history context (conditions ++ [c]) : K) ≤
      confidence history context conditions := by
  rw [confidence, confidence, List.map_append, List.map_singleton, Scalar.exact_one]
  exact Score.productFrom_append_singleton_le (fun s hs => (score_mem_unit_of_mem hs).1)
    zero_le_one (Condition.score_mem_unit history context c).2

/-- The confidence lies between 0 and 1. It is the product over the shortest beginning of the
conditions that makes it negligible, or over all of them if there is none. So it is never below the
product of all scores, and exceeds a threshold that is not negligible exactly if that product does.
One more condition never raises it, and another order never changes which of those thresholds it
exceeds. -/
theorem confidence_agrees_with_product (history : History) (context : Context)
    (conditions : List Condition) :
    let confidence := confidence (α := K) history context
    let product := scoreProduct (K := K) history context
    (0 ≤ confidence conditions ∧ confidence conditions ≤ 1) ∧
      (∀ read, StopsAfter K history context conditions read →
        confidence conditions = product read) ∧
      ((∀ read, ¬ StopsAfter K history context conditions read) →
        confidence conditions = product conditions) ∧
      product conditions ≤ confidence conditions ∧
      (∀ threshold, Score.negligible ≤ threshold →
        (threshold < confidence conditions ↔ threshold < product conditions)) ∧
      (∀ c, confidence (conditions ++ [c]) ≤ confidence conditions) ∧
      ∀ reordered threshold, reordered.Perm conditions → Score.negligible ≤ threshold →
        (threshold < confidence reordered ↔ threshold < confidence conditions) := by
  intro confidence product
  have hexamined : confidence conditions = product (examined K history context conditions) :=
    confidence_eq_scoreProduct_examined history context conditions
  refine ⟨confidence_mem_unit history context conditions, fun read hread => ?_, fun hnone => ?_,
    scoreProduct_le_confidence history context conditions,
    fun _ h => lt_confidence_iff_lt_scoreProduct h, confidence_append_singleton_le,
    fun reordered threshold hperm h => ?_⟩
  · rw [hread.eq_examined, hexamined]
  · rcases examined_eq_or_confidence_lt K history context conditions with hall | hnegligible
    · rw [hexamined, hall]
    · exact absurd (stopsAfter_examined hnegligible) (hnone _)
  · rw [lt_confidence_iff_lt_scoreProduct h, lt_confidence_iff_lt_scoreProduct h,
      scoreProduct_perm hperm]

/-- Seven missing values make the confidence negligible before the wrong hour is read, so it differs
from the full product; neither exceeds a threshold, in any order. -/
theorem confidence_agrees_with_product_unread :
    let missing : List Condition := List.replicate 7 ⟨"level", .gte, "1"⟩
    let conditions := missing ++ [⟨"hour", .eq, "7"⟩]
    let context : Context := Dictionary.empty.insert "hour" "8"
    StopsAfter ℚ History.nothing context conditions missing ∧
      confidence History.nothing context conditions = (1 / 128 : ℚ) ∧
      scoreProduct History.nothing context conditions = (0 : ℚ) ∧
      ¬ (Score.negligible : ℚ) < confidence History.nothing context conditions.reverse := by
  intro missing conditions context
  have hread : examined ℚ History.nothing context conditions = missing := by decide +kernel
  have hstops : StopsAfter ℚ History.nothing context conditions missing := by
    rw [← hread]
    exact stopsAfter_examined (by decide +kernel)
  have hproduct : scoreProduct History.nothing context missing = (1 / 128 : ℚ) := by decide +kernel
  obtain ⟨-, hread', -, -, hexceeds, -, hreorder⟩ :=
    confidence_agrees_with_product (K := ℚ) History.nothing context conditions
  have hzero : scoreProduct History.nothing context conditions = (0 : ℚ) := by decide +kernel
  refine ⟨hstops, (hread' missing hstops).trans hproduct, hzero, fun hlt => ?_⟩
  rw [hreorder _ _ conditions.reverse_perm le_rfl, hexceeds _ le_rfl, hzero] at hlt
  exact absurd hlt (by decide +kernel)

end Rule

end ContextAdvisor
