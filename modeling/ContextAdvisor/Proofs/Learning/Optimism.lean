import ContextAdvisor.Proofs.Learning.Averages
import ContextAdvisor.Proofs.Learning.Selection
import ContextAdvisor.Safeguard.Settings

/-!
# Optimism about what was not tried

A learner that explores nothing selects the first of the candidates with the best average. An action
without rewards counts as if its average were one. So it is selected as long as all rewards are
below one; but a reward may well be larger, and then the action that earned it is preferred to all
that were never tried.
-/
namespace ContextAdvisor.EpsilonGreedy

/-- What fulfils a condition at the front of a list ends before the first entry that does not. -/
theorem mem_front_of_mem_takeWhile {ι : Type} {p : ι → Bool} {front back : List ι} {x y : ι}
    (hx : p x = false) (h : y ∈ (front ++ x :: back).takeWhile p) : y ∈ front := by
  rw [List.takeWhile_append] at h
  split_ifs at h
  · simpa [hx] using h
  · exact List.takeWhile_subset _ h

variable {K : Type} [Field K] [LinearOrder K]

/-- The better one of the best value so far and the value of the next place. -/
def better (best : Option (Nat × K)) (next : K × Nat) : Option (Nat × K) :=
  if isBetter next.1 best then some (next.2, next.1) else best

theorem bestPlace_eq_foldl (values : List K) :
    bestPlace values = ((values.zipIdx.foldl better none).map (·.1)).getD 0 := rfl

theorem better_some (best : Nat × K) (next : K × Nat) :
    better (some best) next = if best.2 < next.1 then some (next.2, next.1) else some best := by
  simp only [better, isBetter, decide_eq_true_eq]

/-- The best value exceeds all before it, and none behind it exceeds it. -/
theorem exists_foldl_better {values : List K} (h : values ≠ []) :
    ∃ front value back, values = front ++ value :: back ∧ (∀ u ∈ front, u < value) ∧
      (∀ u ∈ back, u ≤ value) ∧
      values.zipIdx.foldl better none = some (front.length, value) := by
  induction values using List.reverseRecOn with
  | nil => exact absurd rfl h
  | append_singleton values last ih =>
    have hsnoc : (values ++ [last]).zipIdx.foldl better none =
        better (values.zipIdx.foldl better none) (last, values.length) := by
      rw [List.zipIdx_append, List.foldl_append, Nat.zero_add]
      rfl
    rw [hsnoc]
    by_cases hne : values = []
    · subst hne
      exact ⟨[], last, [], rfl, by simp, by simp, rfl⟩
    · obtain ⟨front, value, back, hsplit, hfront, hback, hfold⟩ := ih hne
      rw [hfold, better_some]
      by_cases hlast : value < last
      · refine ⟨values, last, [], rfl, fun u hu => ?_, by simp, if_pos hlast⟩
        rw [hsplit, List.mem_append, List.mem_cons] at hu
        rcases hu with hu | rfl | hu
        · exact (hfront u hu).trans hlast
        · exact hlast
        · exact (hback u hu).trans_lt hlast
      · refine ⟨front, value, back ++ [last], by simp [hsplit], hfront, fun u hu => ?_,
          if_neg hlast⟩
        rcases List.mem_append.mp hu with hu | hu
        · exact hback u hu
        · rw [List.mem_singleton.mp hu]
          exact not_lt.mp hlast

/-- One update of a learner, for an action and a reward. -/
def learn (limit : StepLimit K) (learner : EpsilonGreedy K) (experience : String × K) :
    Nat × EpsilonGreedy K :=
  learner.update limit experience.1 experience.2

/-- The rewards of an action. -/
def rewardsOf (id : String) (experiences : List (String × K)) : List K :=
  (experiences.filter (·.1 = id)).map (·.2)

theorem arm_learn (limit : StepLimit K) (learner : EpsilonGreedy K) (experience : String × K)
    (id : String) : (learner.learn limit experience).2.arm id =
      if experience.1 = id then ((learner.arm id).learn limit experience.2).2
      else learner.arm id := by
  refine (arm_insert learner experience.1 id _).trans ?_
  by_cases h : experience.1 = id
  · subst h
    rw [if_pos rfl, if_pos rfl]
    rfl
  · rw [if_neg (Ne.symm h), if_neg h]

/-- An arm takes the rewards of its action into account, and nothing else. -/
theorem arm_after (limit : StepLimit K) (learner : EpsilonGreedy K)
    (experiences : List (String × K)) (id : String) :
    (Run.after (learn limit) learner experiences).arm id =
      Run.after (AverageArm.learn limit) (learner.arm id) (rewardsOf id experiences) := by
  induction experiences generalizing learner with
  | nil => rfl
  | cons experience rest ih =>
    rw [Run.after_cons, ih, arm_learn, rewardsOf, rewardsOf]
    by_cases h : experience.1 = id
    · rw [if_pos h, List.filter_cons_of_pos (by simpa using h), List.map_cons, Run.after_cons]
    · rw [if_neg h, List.filter_cons_of_neg (by simpa using h)]

theorem epsilon_after (limit : StepLimit K) (learner : EpsilonGreedy K)
    (experiences : List (String × K)) :
    (Run.after (learn limit) learner experiences).epsilon = learner.epsilon :=
  Run.after_of_kept (Q := fun next : EpsilonGreedy K => next.epsilon = learner.epsilon)
    (fun _ _ h => h) rfl experiences

variable [IsStrictOrderedRing K]

/-- A learner that explores nothing selects a candidate whose average exceeds those of all before it
and is not exceeded by any behind it. -/
theorem exists_select_best {learner : EpsilonGreedy K} (he : learner.epsilon ≤ 0)
    {candidates : List String} (h : candidates ≠ []) :
    ∃ s front back, (learner.select candidates).1 = some s ∧
      candidates = front ++ s.actionId :: back ∧
      (∀ id ∈ front, (learner.arm id).average < (learner.arm s.actionId).average) ∧
      ∀ id ∈ back, (learner.arm id).average ≤ (learner.arm s.actionId).average := by
  have hne : (candidates.map fun id => (learner.arm id).average) ≠ [] :=
    mt List.map_eq_nil_iff.mp h
  obtain ⟨_, _, _, hsplit, hfront, hback, hfold⟩ := exists_foldl_better hne
  obtain ⟨front, rest, rfl, rfl, hrest⟩ := List.map_eq_append_iff.mp hsplit
  obtain ⟨id, back, rfl, rfl, rfl⟩ := List.map_eq_cons_iff.mp hrest
  have hpick : learner.pick (front ++ id :: back) = (front.length, false, learner) := by
    rw [pick, Scalar.exact_zero, if_neg he.not_gt, bestPlace_eq_foldl, hfold, List.length_map]
    rfl
  refine ⟨⟨front.length, id, (learner.arm id).average, (learner.arm id).confidence, false⟩, front,
    back, ?_, rfl, List.forall_mem_map.mp hfront, List.forall_mem_map.mp hback⟩
  simp [select, hpick]

theorem average_of_untried {arm : AverageArm K} (h : arm.pulls = 0) : arm.average = 1 := by
  rw [AverageArm.average, if_pos h, AverageArm.optimisticAverage, Scalar.exact_one]

/-- Of candidates with an untried one among them a learner that explores nothing selects an untried
one exactly if none of them has an average above one, and none in front of the first untried one has
an average of one. -/
theorem exists_select_untried_iff {learner : EpsilonGreedy K} (he : learner.epsilon ≤ 0)
    {candidates : List String} (h : ∃ id ∈ candidates, (learner.arm id).pulls = 0) :
    ∃ s, (learner.select candidates).1 = some s ∧ s.actionId ∈ candidates ∧
      ((learner.arm s.actionId).pulls = 0 ↔
        (∀ id ∈ candidates, (learner.arm id).average ≤ 1) ∧
          ∀ id ∈ candidates.takeWhile fun id => (learner.arm id).pulls ≠ 0,
            (learner.arm id).average < 1) := by
  obtain ⟨untried, hmem, huntried⟩ := h
  obtain ⟨s, front, back, hs, rfl, hfront, hback⟩ :=
    exists_select_best he (List.ne_nil_of_mem hmem)
  have hbest : ∀ id ∈ front ++ s.actionId :: back,
      (learner.arm id).average ≤ (learner.arm s.actionId).average := by
    intro id hid
    rcases List.mem_append.mp hid with hid | hid
    · exact (hfront id hid).le
    · rcases List.mem_cons.mp hid with rfl | hid
      · exact le_rfl
      · exact hback id hid
  refine ⟨s, hs, by simp, fun hp => ?_, fun ⟨hall, hearly⟩ => ?_⟩
  · have hone := average_of_untried hp
    rw [hone] at hfront hbest
    exact ⟨hbest, fun id hid => hfront id (mem_front_of_mem_takeWhile (by simp [hp]) hid)⟩
  · by_contra hp
    have hone : (learner.arm s.actionId).average = 1 := by
      refine le_antisymm (hall _ (by simp)) ?_
      rw [← average_of_untried huntried]
      exact hbest untried hmem
    have htried : ∀ id ∈ front, (learner.arm id).pulls ≠ 0 := by
      intro id hid hzero
      have hlt := hfront id hid
      rw [hone, average_of_untried hzero] at hlt
      exact lt_irrefl _ hlt
    refine (hearly s.actionId ?_).ne hone
    rw [List.takeWhile_append_of_pos (by simpa using htried),
      List.takeWhile_cons_of_pos (by simpa using hp)]
    simp

theorem ofEpsilon_epsilon_le {epsilon : K} (he : epsilon ≤ 0) (generator : Generator K) :
    (ofEpsilon epsilon generator).epsilon ≤ 0 := by
  rw [ofEpsilon, Scalar.clamp, Scalar.exact_zero, Scalar.exact_one]
  split_ifs with hlow hhigh
  · exact le_rfl
  · exact absurd (he.trans zero_le_one) hhigh.not_ge
  · exact he

/-- As long as all rewards are below one, so are the averages of all actions that were tried. -/
theorem average_after_lt_one (rate : K) {learner : EpsilonGreedy K} {id : String}
    (hfresh : learner.arm id = .fresh) {experiences : List (String × K)}
    (hr : ∀ e ∈ experiences, e.2 < 1) :
    let arm := (Run.after (learn (.ofRate rate)) learner experiences).arm id
    arm.pulls ≠ 0 → arm.average < 1 := by
  intro arm hp
  have harm : arm = Run.after (AverageArm.learn (.ofRate rate)) .fresh (rewardsOf id experiences) :=
    (arm_after _ learner experiences id).trans (by rw [hfresh])
  rw [harm, AverageArm.pulls_after, AverageArm.fresh, Nat.zero_add] at hp
  have hne : rewardsOf id experiences ≠ [] := List.ne_nil_of_length_pos (Nat.pos_of_ne_zero hp)
  obtain ⟨reward, hmem, hle⟩ := AverageArm.exists_average_after_le (abs_nonneg rate) hne
  obtain ⟨e, he, rfl⟩ := List.mem_map.mp hmem
  rw [harm]
  exact hle.trans_lt (hr e (List.mem_of_mem_filter he))

/-- After any rewards, of candidates with an untried one among them a learner that explores nothing
selects an untried one exactly if no candidate has an average above one, and none in front of the
first untried one an average of one. So it does as long as all rewards are below one. -/
theorem selects_untried_iff {epsilon : K} (he : epsilon ≤ 0) (generator : Generator K) (rate : K)
    (experiences : List (String × K)) {candidates : List String} :
    let learner := Run.after (learn (.ofRate rate)) (ofEpsilon epsilon generator) experiences
    (∃ id ∈ candidates, (learner.arm id).pulls = 0) →
      ∃ s, (learner.select candidates).1 = some s ∧ s.actionId ∈ candidates ∧
        ((learner.arm s.actionId).pulls = 0 ↔
          (∀ id ∈ candidates, (learner.arm id).average ≤ 1) ∧
            ∀ id ∈ candidates.takeWhile fun id => (learner.arm id).pulls ≠ 0,
              (learner.arm id).average < 1) ∧
        ((∀ e ∈ experiences, e.2 < 1) → (learner.arm s.actionId).pulls = 0) := by
  intro learner huntried
  have hepsilon : learner.epsilon ≤ 0 := by
    rw [epsilon_after]
    exact ofEpsilon_epsilon_le he generator
  obtain ⟨s, hs, hmem, hiff⟩ := exists_select_untried_iff hepsilon huntried
  refine ⟨s, hs, hmem, hiff, fun hr => hiff.mpr ⟨fun id _ => ?_, fun id hid => ?_⟩⟩
  · by_cases hp : (learner.arm id).pulls = 0
    · exact (average_of_untried hp).le
    · exact (average_after_lt_one rate rfl hr hp).le
  · exact average_after_lt_one rate rfl hr (by simpa using List.mem_takeWhile_imp hid)

/-- The larger reward is behind the untried candidate, the smaller one in front of it. -/
theorem selects_untried_iff_three :
    let learner := Run.after (learn (.ofRate (1 / 20 : ℚ))) (ofEpsilon 0 (.steady))
      [("lamp", 1 / 2), ("fan", 9 / 10)]
    let candidates := ["lamp", "alarm", "fan"]
    (0 : ℚ) ≤ 0 ∧ (∃ id ∈ candidates, (learner.arm id).pulls = 0) ∧
      ∃ s, (learner.select candidates).1 = some s ∧ (learner.arm s.actionId).pulls = 0 := by
  intro learner candidates
  have huntried : ∃ id ∈ candidates, (learner.arm id).pulls = 0 :=
    ⟨"alarm", by simp [candidates], by decide +kernel⟩
  obtain ⟨s, hs, -, -, hbelow⟩ := selects_untried_iff le_rfl (.steady) (1 / 20)
    [("lamp", 1 / 2), ("fan", 9 / 10)] huntried
  exact ⟨le_rfl, huntried, s, hs, hbelow (by decide +kernel)⟩

/-- A reward of two, which the usual clip lets pass, makes an action better than what was never
tried. -/
theorem untried_passed_over :
    let learner := Run.after (learn (.ofRate (1 / 20 : ℚ))) (ofEpsilon 0 (.steady))
      [("lamp", 2)]
    |(2 : ℚ)| ≤ GuardSettings.standard.rewardClip ∧ (learner.arm "alarm").pulls = 0 ∧
      (learner.select ["lamp", "alarm"]).1.map (·.actionId) = some "lamp" ∧
      (learner.arm "lamp").pulls = 1 := by
  decide +kernel

end ContextAdvisor.EpsilonGreedy
