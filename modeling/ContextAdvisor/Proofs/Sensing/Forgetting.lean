import ContextAdvisor.Arithmetic.Window
import ContextAdvisor.Proofs.Run
import ContextAdvisor.Sensing.Motion

/-!
# What a motion classifier forgets

A classifier averages a window over the finite magnitudes that it was given, and its last state
follows from this average. So measurements that fill the window make two classifiers equal, whatever
each of them was given before: both average the same magnitudes in the same order.
-/
namespace ContextAdvisor

/-- A use of a motion classifier. -/
inductive MotionUse (α : Type) where
  | measure (sample : Acceleration α) (speed : Option α)
  | reset

namespace MotionClassifier

/-- How many magnitudes are averaged. -/
def windowSize {α : Type} (c : MotionThresholds α) : Nat := max c.history 1

variable {α : Type} [Analytic α] {c : MotionThresholds α}

/-- Carries out a use; only a measurement gives a reading. -/
def perform (classifier : MotionClassifier α) :
    MotionUse α → Option (MotionEstimate α) × MotionClassifier α
  | .measure sample speed =>
    let (reading, next) := classifier.detect sample speed
    (some reading, next)
  | .reset => (none, classifier.reset)

/-- The classifier that some uses leave behind. -/
def after (c : MotionThresholds α) (uses : List (MotionUse α)) : MotionClassifier α :=
  Run.after perform (ofThresholds c) uses

/-- The state of the last reading; unknown if there is none, or none since a reset. -/
def lastState (readings : List (Option (MotionEstimate α))) : Movement :=
  (readings.getLast?.join.map (·.state)).getD .unknown

/-- The measurements as uses. -/
def measurements (samples : List (Acceleration α × Option α)) : List (MotionUse α) :=
  samples.map fun m => .measure m.1 m.2

/-- The magnitudes that are averaged: those that are finite. -/
def magnitudes (samples : List (Acceleration α × Option α)) : List α :=
  (samples.map fun m => m.1.magnitude).filter fun x => Scalar.isFinite x

theorem thresholds_perform (classifier : MotionClassifier α) (use : MotionUse α) :
    (classifier.perform use).2.thresholds = classifier.thresholds := by
  cases use <;> rfl

/-- The window never grows beyond its size. -/
theorem length_remembered_le {classifier : MotionClassifier α}
    (h : classifier.history.length ≤ windowSize classifier.thresholds) (magnitude : α) :
    (classifier.remembered magnitude).length ≤ windowSize classifier.thresholds := by
  rw [remembered]
  split_ifs
  · exact Window.length_push_le _ _ _
  · exact h

theorem after_concat (uses : List (MotionUse α)) (use : MotionUse α) :
    after c (uses ++ [use]) = ((after c uses).perform use).2 := Run.after_append _ _ _

theorem thresholds_after (c : MotionThresholds α) (uses : List (MotionUse α)) :
    (after c uses).thresholds = c :=
  Run.after_of_kept (Q := fun classifier => classifier.thresholds = c)
    (fun classifier use h => (thresholds_perform classifier use).trans h) rfl uses

theorem length_history_after_le (c : MotionThresholds α) (uses : List (MotionUse α)) :
    (after c uses).history.length ≤ windowSize c := by
  induction uses using List.reverseRecOn with
  | nil => exact Nat.zero_le _
  | append_singleton uses use ih =>
    rw [after_concat]
    cases use with
    | measure sample speed =>
      have hc := thresholds_after c uses
      have h := length_remembered_le (by rwa [hc]) sample.magnitude
      rwa [hc] at h
    | reset => exact Nat.zero_le _

/-- A classifier knows the state of its last reading. -/
theorem last_after (c : MotionThresholds α) (uses : List (MotionUse α)) :
    (after c uses).last = lastState (Run.answers perform (ofThresholds c) uses) := by
  induction uses using List.reverseRecOn with
  | nil => rfl
  | append_singleton uses use _ =>
    rw [after_concat, Run.answers_append, lastState, Run.answers, Run.answers,
      List.getLast?_concat]
    cases use <;> rfl

theorem magnitudes_concat (samples : List (Acceleration α × Option α))
    (m : Acceleration α × Option α) : magnitudes (samples ++ [m]) =
      if Scalar.isFinite m.1.magnitude then magnitudes samples ++ [m.1.magnitude]
      else magnitudes samples := by
  rw [magnitudes, List.map_append, List.filter_append, List.map_singleton, ← magnitudes]
  split_ifs with hm
  · rw [List.filter_cons_of_pos hm, List.filter_nil]
  · rw [List.filter_cons_of_neg hm, List.filter_nil, List.append_nil]

omit [Analytic α] in
theorem append_measurements_concat (before : List (MotionUse α))
    (samples : List (Acceleration α × Option α)) (m : Acceleration α × Option α) :
    before ++ measurements (samples ++ [m]) =
      before ++ measurements samples ++ [.measure m.1 m.2] := by
  rw [measurements, List.map_append, ← List.append_assoc]
  rfl

/-- Measurements leave the last magnitudes of the past and their own. -/
theorem history_after_measurements (before : List (MotionUse α))
    (samples : List (Acceleration α × Option α)) :
    (after c (before ++ measurements samples)).history =
      Window.last (windowSize c) ((after c before).history ++ magnitudes samples) := by
  induction samples using List.reverseRecOn with
  | nil =>
    rw [measurements, List.map_nil, List.append_nil, magnitudes, List.map_nil, List.filter_nil,
      List.append_nil, Window.last_of_length_le (length_history_after_le c before)]
  | append_singleton samples m ih =>
    have hnext : (after c (before ++ measurements (samples ++ [m]))).history =
        (after c (before ++ measurements samples)).remembered m.1.magnitude := by
      rw [append_measurements_concat, after_concat]
      rfl
    rw [hnext, remembered, thresholds_after, ih, magnitudes_concat]
    split_ifs
    · rw [← List.append_assoc]
      exact Window.push_last _ _ _
    · rfl

/-- The state that a measurement leaves follows from the magnitudes that it leaves. -/
theorem last_after_measurement (uses : List (MotionUse α)) (m : Acceleration α × Option α) :
    (after c (uses ++ [.measure m.1 m.2])).last =
      (c.classify (soundSpeed m.2)
        (Scalar.mean (after c (uses ++ [.measure m.1 m.2])).history)).1 := by
  have hc := thresholds_after c uses
  rw [after_concat]
  show ((after c uses).thresholds.classify _ _).1 = _
  rw [hc]
  rfl

/-- Measurements that fill the window leave the same classifier behind, whatever came before. -/
theorem after_measurements_eq (before before' : List (MotionUse α))
    {samples : List (Acceleration α × Option α)}
    (h : windowSize c ≤ (magnitudes samples).length) :
    after c (before ++ measurements samples) = after c (before' ++ measurements samples) := by
  have hthresholds := (thresholds_after c (before ++ measurements samples)).trans
    (thresholds_after c (before' ++ measurements samples)).symm
  have hhistory : (after c (before ++ measurements samples)).history =
      (after c (before' ++ measurements samples)).history := by
    rw [history_after_measurements, history_after_measurements, Window.last_append_of_le h,
      Window.last_append_of_le h]
  have hlast : (after c (before ++ measurements samples)).last =
      (after c (before' ++ measurements samples)).last := by
    -- the window has room for one magnitude at least, so there is a last measurement
    rcases List.eq_nil_or_concat' samples with rfl | ⟨front, m, rfl⟩
    · have hpos : 1 ≤ windowSize c := le_max_right _ _
      exact absurd (hpos.trans h) (by simp [magnitudes])
    · rw [append_measurements_concat, append_measurements_concat] at hhistory ⊢
      rw [last_after_measurement, last_after_measurement, hhistory]
  generalize after c (before ++ measurements samples) = classifier at *
  generalize after c (before' ++ measurements samples) = classifier' at *
  cases classifier
  cases classifier'
  cases hthresholds
  cases hhistory
  cases hlast
  rfl

/-- Two classifiers with the same thresholds and any pasts give the same reading, once both were
given the same measurements and enough of these had a finite magnitude. A classifier never keeps
more magnitudes than it averages, and reports a change exactly when the state differs from that of
the reading before, which is unknown at the start and after a reset. -/
theorem readings_forget (c : MotionThresholds α) :
    (∀ (before before' : List (MotionUse α)) (samples : List (Acceleration α × Option α)),
      max 1 c.history ≤ (samples.filter fun m => Scalar.isFinite m.1.magnitude).length →
      ∀ sample speed,
        ((after c (before ++ measurements samples)).detect sample speed).1 =
          ((after c (before' ++ measurements samples)).detect sample speed).1) ∧
    ∀ uses, (after c uses).history.length ≤ max 1 c.history ∧
      ∀ sample speed, let reading := ((after c uses).detect sample speed).1
        reading.changed = true ↔
          reading.state ≠ lastState (Run.answers perform (ofThresholds c) uses) := by
  refine ⟨fun before before' samples h sample speed => ?_, fun uses => ⟨?_, ?_⟩⟩
  · have hfull : windowSize c ≤ (magnitudes samples).length := by
      rw [magnitudes, List.filter_map, List.length_map, windowSize, max_comm]
      exact h
    rw [after_measurements_eq before before' hfull]
  · rw [max_comm]
    exact length_history_after_le c uses
  · intro sample speed reading
    rw [← last_after]
    exact bne_iff_ne

/-- A ride and a rest are both forgotten after two steps, between which one measurement failed. -/
theorem readings_forget_two :
    let c : MotionThresholds Float := { MotionThresholds.standard with history := 2 }
    let along (z : Float) : Acceleration Float := ⟨0.0, 0.0, z⟩
    let steps := [(along 11.0, none), (along (1.0 / 0.0), some 2.0), (along 14.0, none)]
    let ride : List (MotionUse Float) := [.measure (along 16.0) (some 25.0), .reset,
      .measure (along 30.0) (some (-1.0))]
    max 1 c.history ≤ (steps.filter fun m => Scalar.isFinite m.1.magnitude).length ∧
      ((after c (ride ++ measurements steps)).detect (along 9.5) none).1.state = .walking ∧
      ((after c (.measure (along 9.8) none :: measurements steps)).detect (along 9.5) none).1 =
        ((after c (ride ++ measurements steps)).detect (along 9.5) none).1 ∧
      (after c ride).history.length ≤ 2 ∧
      ((after c ride).detect (along 30.0) none).1.changed = false := by
  intro c along steps ride
  have hfull : max 1 c.history ≤ (steps.filter fun m => Scalar.isFinite m.1.magnitude).length := by
    decide +kernel
  obtain ⟨hsame, hkept⟩ := readings_forget c
  have hchange : ((after c ride).detect (along 30.0) none).1.changed = true ↔ _ :=
    (hkept ride).2 (along 30.0) none
  refine ⟨hfull, by decide +kernel, hsame [.measure (along 9.8) none] ride steps hfull _ _,
    (hkept ride).1, ?_⟩
  rw [← Bool.not_eq_true, hchange, not_not]
  decide +kernel

end MotionClassifier

end ContextAdvisor
