import ContextAdvisor.Proofs.DecisionTree.Narrowing
import ContextAdvisor.Proofs.Rule.Confidence

/-!
# What the walk leaves out and the score lets through

The walk through a compiled tree looks at the first equality on each key, wherever it stands among
the conditions. The score takes the conditions in order and stops at a negligible product, which may
be positive. So a rule that the context rules out can keep a positive confidence, but only if the
equality at fault lies beyond the conditions that the score examines.
-/
namespace ContextAdvisor

variable {K : Type} [Field K] [LinearOrder K] [IsStrictOrderedRing K]

namespace Score

/-- A score of 0 that is taken into account makes the product 0. -/
theorem productFrom_eq_zero {scores : List K} {product : K}
    (h : 0 ∈ scores.take (examinedFrom product scores)) : productFrom product scores = 0 := by
  induction scores generalizing product with
  | nil => simp at h
  | cons s rest ih =>
    simp only [examinedFrom, productFrom] at h ⊢
    split_ifs at h ⊢ with hn
    · obtain rfl : 0 = s := by simpa using h
      exact mul_zero product
    · rcases List.mem_cons.mp h with rfl | h
      · exact absurd (by norm_num [negligible]) hn
      · exact ih h

end Score

namespace Rule

/-- A rule with the conditions that the score examines. -/
def examinedPart (history : History) (context : Context) (rule : Rule K) : Rule K :=
  { rule with conditions := examined K history context rule.conditions }

/-- No value of the context contradicts an equality on a key that the examined conditions leave
open. -/
def RestFits (history : History) (context : Context) (rule : Rule K) : Prop :=
  ∀ key required, rule.fixed? key = some required →
    (rule.examinedPart history context).fixed? key = none →
    context.get? key = none ∨ context.get? key = some required

variable {history : History} {context : Context} {rule : Rule K}

omit [IsStrictOrderedRing K] in
/-- What the examined conditions fix, the rule fixes. -/
theorem fixed?_of_examinedPart {key value : String}
    (h : (rule.examinedPart history context).fixed? key = some value) :
    rule.fixed? key = some value := by
  obtain ⟨c, hc, rfl⟩ := Option.map_eq_some_iff.mp h
  exact Option.map_eq_some_iff.mpr ⟨c, (List.take_prefix _ _).find?_eq_some hc, rfl⟩

/-- An examined equality with another value makes the confidence 0. -/
theorem confidence_eq_zero {key required actual : String}
    (h : (rule.examinedPart history context).fixed? key = some required)
    (hv : context.get? key = some actual) (hne : actual ≠ required) :
    confidence history context rule.conditions = (0 : K) := by
  obtain ⟨c, hc, hop, rfl, rfl⟩ := exists_condition_of_fixed h
  refine Score.productFrom_eq_zero ?_
  rw [← List.map_take]
  exact List.mem_map.mpr ⟨c, hc, Condition.score_eq_zero hop hv hne⟩

/-- A rule with a positive confidence is ruled out only by what the score does not examine. -/
theorem mayFit_iff_restFits (h : 0 < (confidence history context rule.conditions : K)) :
    rule.MayFit context ↔ rule.RestFits history context := by
  refine ⟨fun hm key required hf _ => hm key required hf, fun hr key required hf => ?_⟩
  cases he : (rule.examinedPart history context).fixed? key with
  | none => exact hr key required hf he
  | some value =>
    obtain rfl : required = value :=
      Option.some.inj (hf.symm.trans (fixed?_of_examinedPart he))
    cases hv : context.get? key with
    | none => exact .inl rfl
    | some actual =>
      refine .inr (congrArg some ?_)
      by_contra hne
      exact h.ne' (confidence_eq_zero he hv hne)

end Rule

namespace DecisionTree

/-- Fewer keys are left once one of them is used. -/
theorem length_unused_lt {keys used : List String} {key : String} (h : key ∈ keys)
    (hfresh : key ∉ used) :
    (keys.filter (· ∉ key :: used)).length < (keys.filter (· ∉ used)).length := by
  have hdrop : keys.filter (· ∉ key :: used) = (keys.filter (· ∉ used)).filter (· ≠ key) := by
    rw [List.filter_filter]
    exact List.filter_congr fun k _ => by simp
  rw [hdrop, List.length_filter_lt_length_iff_exists]
  exact ⟨key, by simp [h, hfresh], by simp⟩

/-- Places that all hold the same rule, more of them than a leaf takes unsplit. -/
structure HoldCopies {α : Type} (rules : Array (Rule α)) (rule : Rule α) (places : List Nat) :
    Prop where
  all : ∀ i ∈ places, rules[i]? = some rule
  many : leafSize < places.length

namespace HoldCopies

variable {α : Type} {rules : Array (Rule α)} {rule : Rule α} {places : List Nat} {key : String}

theorem fixedAt?_eq (h : HoldCopies rules rule places) {i : Nat} (hi : i ∈ places) (key : String) :
    fixedAt? rules key i = rule.fixed? key := by
  simp [DecisionTree.fixedAt?, h.all i hi]

theorem mem_openKeys (h : HoldCopies rules rule places) {used : List String} :
    key ∈ openKeys rules used places ↔ key ∉ used ∧ (rule.fixed? key).isSome := by
  obtain ⟨i, hi⟩ := List.exists_mem_of_length_pos (Nat.zero_lt_of_lt h.many)
  rw [DecisionTree.mem_openKeys]
  refine and_congr_right fun _ => ⟨?_, fun hs => ⟨i, hi, (h.fixedAt?_eq hi key).symm ▸ hs⟩⟩
  rintro ⟨j, hj, hs⟩
  rwa [h.fixedAt?_eq hj key] at hs

theorem compatible_eq (h : HoldCopies rules rule places) {value : String}
    (hv : rule.fixed? key = some value) : compatible rules key value places = places := by
  refine List.filter_eq_self.mpr fun i hi => ?_
  simp [h.fixedAt?_eq hi, hv]

theorem indifferent_eq_nil (h : HoldCopies rules rule places)
    (hv : (rule.fixed? key).isSome) : indifferent rules key places = [] := by
  refine List.filter_eq_nil_iff.mpr fun i hi => ?_
  rw [h.fixedAt?_eq hi]
  simpa [Option.isSome_iff_ne_none] using hv

theorem eq_of_mem_values (h : HoldCopies rules rule places) {value required : String}
    (hr : rule.fixed? key = some required)
    (hv : value ∈ ascendingTexts (places.filterMap (DecisionTree.fixedAt? rules key))) :
    value = required := by
  rw [mem_ascendingTexts, List.mem_filterMap] at hv
  obtain ⟨i, hi, hv⟩ := hv
  exact Option.some.inj (((h.fixedAt?_eq hi key).symm.trans hv).symm.trans hr)

/-- Nothing is left of the copies of a rule that the context rules out, once all keys that the rule
fixes are tested. -/
theorem narrowed_eq_nil [Scalar α] (h : HoldCopies rules rule places) {context : Context}
    {required actual : String} (hr : rule.fixed? key = some required)
    (hv : context.get? key = some actual) (hne : actual ≠ required) {budget : Nat}
    {used : List String} (hused : key ∉ used)
    (hb : (rule.fixedKeys.filter (· ∉ used)).length ≤ budget) :
    narrowed rules context budget used places = [] := by
  induction budget generalizing used with
  | zero =>
    have hkey : key ∈ rule.fixedKeys.filter (· ∉ used) := by simp [Rule.mem_fixedKeys, hr, hused]
    have := List.length_pos_of_mem hkey
    omega
  | succ budget ih =>
    obtain ⟨best, hbest, hsplit⟩ :=
      exists_splitKey (h.mem_openKeys.mpr ⟨hused, Option.isSome_of_eq_some hr⟩)
    obtain ⟨hfresh, hsome⟩ := h.mem_openKeys.mp hbest
    obtain ⟨value, hvalue⟩ := Option.isSome_iff_exists.mp hsome
    have hfallback : narrowed rules context budget (best :: used)
        (indifferent rules best places) = [] := by
      rw [h.indifferent_eq_nil hsome, narrowed_nil]
    simp only [narrowed, if_neg (not_le.mpr h.many), hsplit, hfallback, List.append_nil]
    by_cases hsame : best = key
    · subst hsame
      have hmissing : actual ∉ ascendingTexts (places.filterMap
          (DecisionTree.fixedAt? rules best)) := fun hm => hne (h.eq_of_mem_values hr hm)
      simp [hv, hmissing]
    · -- the test of another key uses up one of the keys that are left
      have hused' : key ∉ best :: used := by simp [hused, Ne.symm hsame]
      have hfewer := length_unused_lt (Rule.mem_fixedKeys.mpr hsome) hfresh
      have hbranch : ∀ v ∈ ascendingTexts (places.filterMap (DecisionTree.fixedAt? rules best)),
          narrowed rules context budget (best :: used) (compatible rules best v places) = [] := by
        intro v hm
        rw [h.eq_of_mem_values hvalue hm, h.compatible_eq hvalue]
        exact ih hused' (by omega)
      cases hc : context.get? best with
      | none => exact List.flatMap_eq_nil_iff.mpr hbranch
      | some v =>
        dsimp only
        split_ifs with hm
        · exact hbranch v hm
        · rfl

end HoldCopies

/-- An enabled rule that the context rules out is missed in a table of three copies of it, if the
tree may test all keys that the rule fixes. -/
theorem notMem_candidates_of_copies {α : Type} [Scalar α] {rule : Rule α} {context : Context}
    (he : rule.enabled) (hm : ¬ rule.MayFit context) :
    0 ∉ (compile [rule, rule, rule] rule.fixedKeys.length).candidates context := by
  simp only [Rule.MayFit, not_forall, not_or] at hm
  obtain ⟨key, required, hr, hnone, hne⟩ := hm
  obtain ⟨actual, hv⟩ := Option.ne_none_iff_exists'.mp hnone
  have hplaces : enabledPlaces [rule, rule, rule] = [0, 1, 2] := by
    simp [enabledPlaces, List.zipIdx_cons, he]
  have hcopies : HoldCopies #[rule, rule, rule] rule [0, 1, 2] :=
    ⟨by simp, by decide⟩
  rw [mem_candidates_compile, hplaces, hcopies.narrowed_eq_nil hr hv (fun h => hne (h ▸ hv))
    List.not_mem_nil (List.length_filter_le _ _)]
  exact List.not_mem_nil

/-- An enabled rule with a positive confidence is a candidate in the tree of every table that holds
it, whatever number of keys the tree tests, exactly if no equality on a key that the examined
conditions leave open is contradicted by the context. -/
theorem mem_candidates_iff_restFits {rule : Rule K} {history : History} {context : Context}
    (he : rule.enabled) (hc : 0 < (Rule.confidence history context rule.conditions : K)) :
    (∀ (rules : List (Rule K)) (maxKeys place : Nat), rules[place]? = some rule →
      place ∈ (compile rules maxKeys).candidates context) ↔ rule.RestFits history context := by
  rw [← Rule.mayFit_iff_restFits hc]
  constructor
  · intro hall
    by_contra hm
    exact notMem_candidates_of_copies he hm (hall _ _ 0 rfl)
  · exact fun hm rules maxKeys place hr => mem_candidates_of_mayFit hr he hm maxKeys

/-- At seven, a rule for seven o'clock that scores above 0 is a candidate beside two others. -/
theorem mem_candidates_iff_restFits_at_seven :
    let hourly (hour : String) : Rule ℚ :=
      { Rule.unconditional hour ⟨hour, "alarm", ""⟩ with conditions := [⟨"hour", .eq, hour⟩] }
    let context : Context := Dictionary.empty.insert "hour" "7"
    (hourly "7").enabled ∧
      0 < (Rule.confidence History.nothing context (hourly "7").conditions : ℚ) ∧
      2 ∈ (compile [hourly "5", hourly "6", hourly "7"] 5).candidates context := by
  intro hourly context
  have hscore : (Condition.score History.nothing context ⟨"hour", .eq, "7"⟩ : ℚ) = 1 := by
    have hv : context.get? "hour" = some "7" := rfl
    norm_num [Condition.score, Condition.softScore, Condition.scoreOf, hv, Scalar.ofBool,
      Operator.isTemporal]
  have hc : 0 < (Rule.confidence History.nothing context (hourly "7").conditions : ℚ) := by
    norm_num [Rule.confidence, hourly, hscore, Score.productFrom, Score.negligible]
  refine ⟨rfl, hc, (mem_candidates_iff_restFits rfl hc).mpr ?_ _ 5 2 rfl⟩
  refine (Rule.mayFit_iff_restFits hc).mp fun key required h => ?_
  by_cases hk : "hour" = key
  · obtain rfl : "7" = required := by simpa [hourly, Rule.fixed?, hk] using h
    exact .inr (hk ▸ rfl)
  · simp [hourly, Rule.fixed?, hk] at h

/-- Seven missing values make the confidence negligible before the wrong hour is examined, so it
stays positive; the walk leaves the rule out for its hour. -/
theorem missed_despite_confidence :
    let hourly (id : String) : Rule ℚ := { Rule.unconditional id ⟨id, "alarm", ""⟩ with
      conditions := List.replicate 7 ⟨"level", .gte, "1"⟩ ++ [⟨"hour", .eq, "7"⟩] }
    let rules := [hourly "a", hourly "b", hourly "c"]
    let context : Context := Dictionary.empty.insert "hour" "8"
    (hourly "a").enabled ∧
      0 < (Rule.confidence History.nothing context (hourly "a").conditions : ℚ) ∧
      0 ∉ (compile rules 5).candidates context := by
  intro hourly rules context
  refine ⟨rfl, ?_, by decide +kernel⟩
  have hscore : (Condition.score History.nothing context ⟨"level", .gte, "1"⟩ : ℚ) = 0.5 := by
    have hv : context.get? "level" = none := rfl
    norm_num [Condition.score, Condition.softScore, hv, Score.missing, Operator.isTemporal,
      Operator.isUnknown]
  norm_num [Rule.confidence, hourly, List.replicate, hscore, Score.productFrom, Score.negligible]

end DecisionTree

end ContextAdvisor
