import ContextAdvisor.Proofs.Engine.Lessons

/-!
# Starting to learn anew

A reset empties the arms and forgets the features of earlier choices, so from then on the learner
selects and learns like a new one. Its monitor is not reset. It goes on with its window, its count
of rewards and its checkpoint, and sooner or later this shows: a checkpoint can be restored where a
new learner has none yet. Only a learner that never took a reward into account is as good as new.
-/
namespace ContextAdvisor

variable {α : Type}

namespace EpsilonGreedy

variable [Scalar α] (learner : EpsilonGreedy α) (candidates : List String)

/-- A pick may draw random words, and changes nothing else. -/
theorem pick_learner : (learner.pick candidates).2.2 =
    { learner with generator := (learner.pick candidates).2.2.generator } := by
  simp only [pick]
  split_ifs <;> rfl

theorem select_snd : (learner.select candidates).2 =
    { learner with generator := (learner.select candidates).2.generator } := by
  simp only [select]
  split
  · rfl
  · exact learner.pick_learner candidates

end EpsilonGreedy

namespace Bandit

/-- The generator of a learner that draws at random. -/
def generator? [Scalar α] : Bandit α → Option (Generator α)
  | epsilonGreedy learner => some learner.generator
  | linUcb _ => none

/-- The learner without its experience, with a given generator if it needs one. -/
def blank [Scalar α] (generator : Generator α) : Bandit α → Bandit α
  | epsilonGreedy learner => epsilonGreedy { learner with arms := ∅, generator := generator }
  | linUcb learner => linUcb { learner with arms := ∅ }

theorem blank_ofSettings [Scalar α] (settings : BanditSettings α) (generator other : Generator α) :
    (ofSettings settings other).blank generator = ofSettings settings generator := by
  unfold ofSettings
  cases settings.strategy <;> rfl

/-- A reset leaves the learner without experience, and its generator where it is. -/
theorem reset_eq_blank [Scalar α] (bandit : Bandit α) (generator : Generator α) :
    bandit.reset = bandit.blank (bandit.generator?.getD generator) := by
  cases bandit <;> rfl

theorem blank_reset [Scalar α] (generator : Generator α) (bandit : Bandit α) :
    bandit.reset.blank generator = bandit.blank generator := by
  cases bandit <;> rfl

theorem blank_select [Analytic α] (generator : Generator α) (bandit : Bandit α)
    (candidates : List String) (x : Features α) :
    (bandit.select candidates x).2.blank generator = bandit.blank generator := by
  cases bandit with
  | epsilonGreedy learner =>
    show blank generator (epsilonGreedy (learner.select candidates).2) = _
    rw [learner.select_snd]
    rfl
  | linUcb learner => rfl

theorem blank_of_update? [Scalar α] {generator : Generator α} {limit : StepLimit α}
    {bandit next : Bandit α} {id : String} {reward : α} {features : Option (Features α)}
    {held : Nat} (h : bandit.update? limit id reward features = some (held, next)) :
    next.blank generator = bandit.blank generator := by
  cases bandit with
  | epsilonGreedy learner =>
    cases h
    rfl
  | linUcb learner =>
    obtain ⟨x, -, hx⟩ := Option.map_eq_some_iff.mp h
    cases hx
    rfl

theorem blank_of_restore? [Scalar α] {generator : Generator α} {bandit next : Bandit α}
    {table : Arms α} (h : bandit.restore? table = some next) :
    next.blank generator = bandit.blank generator := by
  cases bandit <;> cases table <;> cases h <;> rfl

/-- With features every reward can be taken into account. -/
theorem exists_update? [Scalar α] (limit : StepLimit α) (bandit : Bandit α) (id : String)
    (reward : α) (x : Features α) :
    ∃ held next, bandit.update? limit id reward (some x) = some (held, next) := by
  cases bandit <;> exact ⟨_, _, rfl⟩

end Bandit

namespace Monitor

variable {π : Type} {monitor : Monitor π α}

/-- Is a checkpoint due at an update, if there is none yet? -/
def DueAt (monitor : Monitor π α) (update : Nat) : Prop :=
  monitor.size ≤ update ∧ monitor.interval ∣ update

/-- Every update is followed by one at which a checkpoint is due. -/
theorem exists_dueAt {monitor : Monitor π α} (hsize : 0 < monitor.size)
    (hinterval : 0 < monitor.interval) (update : Nat) : ∃ n, update < n ∧ monitor.DueAt n := by
  have hle : monitor.size + update ≤ monitor.interval * (monitor.size + update) :=
    Nat.le_mul_of_pos_left _ hinterval
  exact ⟨_, by omega, by omega, Nat.dvd_mul_right monitor.interval (monitor.size + update)⟩

/-- Did a monitor without a checkpoint never ask for one? -/
structure Waiting (monitor : Monitor π α) : Prop where
  length : monitor.window.length = min monitor.updates monitor.size
  never : ∀ n ≤ monitor.updates, ¬ monitor.DueAt n

variable [Scalar α]

omit [Scalar α] in
theorem Waiting.length_withReward (h : monitor.Waiting) (reward : α) :
    (monitor.withReward reward).window.length = min (monitor.updates + 1) monitor.size := by
  rw [withReward, Window.length_push, h.length]
  omega

/-- A monitor without a checkpoint asks for one as soon as it is due, and never before. -/
theorem Waiting.observe_eq (h : monitor.Waiting) (hc : monitor.checkpoint = none) (reward : α) :
    (monitor.DueAt (monitor.updates + 1) ∧ monitor.observe reward =
      (.checkpointDue (monitor.withReward reward).average, monitor.withReward reward)) ∨
    (¬ monitor.DueAt (monitor.updates + 1) ∧
      monitor.observe reward = (.nothing, monitor.withReward reward)) := by
  have hlength := h.length_withReward reward
  have hnone : (monitor.withReward reward).regression? = none := by
    simp only [regression?, withReward, hc]
  by_cases hshort : (monitor.withReward reward).window.length < monitor.size
  · refine .inr ⟨fun hdue => ?_, if_pos hshort⟩
    have hsize := hdue.1
    omega
  · have hobserve : monitor.observe reward =
        if (monitor.updates + 1) % monitor.interval = 0 then
          (.checkpointDue (monitor.withReward reward).average, monitor.withReward reward)
        else (.nothing, monitor.withReward reward) := by
      refine (if_neg hshort).trans ?_
      split
      · next signal hsignal => cases hsignal.symm.trans hnone
      · rfl
    rw [hobserve]
    by_cases hdivides : (monitor.updates + 1) % monitor.interval = 0
    · exact .inl ⟨⟨by omega, Nat.dvd_of_mod_eq_zero hdivides⟩, if_pos hdivides⟩
    · exact .inr ⟨fun hdue => hdivides (Nat.mod_eq_zero_of_dvd hdue.2), if_neg hdivides⟩

omit [Scalar α] in
theorem Waiting.withReward (h : monitor.Waiting) (hdue : ¬ monitor.DueAt (monitor.updates + 1))
    (reward : α) : (monitor.withReward reward).Waiting where
  length := h.length_withReward reward
  never n hn := by
    rcases Nat.le_succ_iff.mp hn with hn | rfl
    · exact h.never n hn
    · exact hdue

end Monitor

namespace WatchedLearner

variable [Scalar α] {learner : WatchedLearner α}

/-- A reward is counted, and the settings of the monitor stay as they are. -/
theorem monitored_monitor (reward : α) : (learner.monitored reward).2.monitor =
    { (learner.monitored reward).2.monitor with
      size := learner.monitor.size
      interval := learner.monitor.interval
      updates := learner.monitor.updates + 1 } := by
  unfold monitored
  rcases learner.monitor.observe_cases reward with h | h | ⟨signal, -, h⟩ <;> rw [h] <;> rfl

theorem monitored_size (reward : α) :
    (learner.monitored reward).2.monitor.size = learner.monitor.size :=
  congrArg (·.size) (monitored_monitor reward)

theorem monitored_interval (reward : α) :
    (learner.monitored reward).2.monitor.interval = learner.monitor.interval :=
  congrArg (·.interval) (monitored_monitor reward)

theorem monitored_updates (reward : α) :
    (learner.monitored reward).2.monitor.updates = learner.monitor.updates + 1 :=
  congrArg (·.updates) (monitored_monitor reward)

/-- A checkpoint is kept, or the arms are stored as they are. -/
theorem monitored_checkpoint_cases (learner : WatchedLearner α) (reward : α) :
    (learner.monitored reward).2.monitor.checkpoint = learner.monitor.checkpoint ∨
      ∃ c, (learner.monitored reward).2.monitor.checkpoint = some c ∧
        c.state = learner.bandit.arms := by
  unfold monitored
  rcases learner.monitor.observe_cases reward with h | h | ⟨signal, -, h⟩ <;> rw [h]
  · exact .inl rfl
  · exact .inr ⟨_, rfl, rfl⟩
  · exact .inl rfl

/-- Without a checkpoint a reward leads to one if it is due. -/
theorem monitored_of_waiting (hw : learner.monitor.Waiting)
    (hc : learner.monitor.checkpoint = none) (reward : α) :
    (learner.monitor.DueAt (learner.monitor.updates + 1) ∧
      (learner.monitored reward).2.monitor.checkpoint.isSome) ∨
    (¬ learner.monitor.DueAt (learner.monitor.updates + 1) ∧
      (learner.monitored reward).2.monitor = learner.monitor.withReward reward) := by
  unfold monitored
  rcases hw.observe_eq hc reward with ⟨hdue, h⟩ | ⟨hdue, h⟩ <;> rw [h]
  · exact .inl ⟨hdue, rfl⟩
  · exact .inr ⟨hdue, rfl⟩

theorem dueAt_monitored (reward : α) (update : Nat) :
    (learner.monitored reward).2.monitor.DueAt update ↔ learner.monitor.DueAt update := by
  rw [Monitor.DueAt, Monitor.DueAt, monitored_size, monitored_interval]

/-- After a reward there is a checkpoint if there was one or if one was due. -/
theorem isSome_checkpoint_monitored (learner : WatchedLearner α)
    (hw : learner.monitor.checkpoint = none → learner.monitor.Waiting) (reward : α) :
    (learner.monitored reward).2.monitor.checkpoint.isSome ↔
      learner.monitor.checkpoint.isSome ∨ learner.monitor.DueAt (learner.monitor.updates + 1) := by
  cases hc : learner.monitor.checkpoint with
  | none =>
    rcases monitored_of_waiting (hw hc) hc reward with ⟨hdue, hsome⟩ | ⟨hdue, hm⟩
    · simp [hdue, hsome]
    · simp [hdue, hm, Monitor.withReward, hc]
  | some c =>
    rcases learner.monitored_checkpoint_cases reward with hsame | ⟨d, hd, -⟩
    · simp [hsame, hc]
    · simp [hd]

/-- What is known about the learner of an engine with some settings. -/
structure GrownFrom (settings : Settings α) (learner : WatchedLearner α) : Prop where
  blank : ∀ generator, learner.bandit.blank generator = .ofSettings settings.bandit generator
  size : learner.monitor.size = max settings.guard.monitorWindow 1
  interval : learner.monitor.interval = max settings.guard.checkpointInterval 1
  unused : learner.monitor.updates = 0 → learner.monitor = .ofSettings settings.guard
  waiting : learner.monitor.checkpoint = none → learner.monitor.Waiting
  fits : ∀ c, learner.monitor.checkpoint = some c → c.state.strategy = learner.bandit.strategy

theorem grownFrom_start (settings : Settings α) (clock : Instant) (generator : Generator α) :
    GrownFrom settings (Engine.start settings clock generator).learner where
  blank other := Bandit.blank_ofSettings settings.bandit other generator
  size := rfl
  interval := rfl
  unused _ := rfl
  waiting _ := by
    refine ⟨(Nat.zero_min _).symm, fun n hn hdue => ?_⟩
    have hsize : max settings.guard.monitorWindow 1 ≤ n := hdue.1
    have hzero : n ≤ 0 := hn
    omega
  fits c hc := nomatch hc

variable {settings : Settings α}

/-- The monitor goes on watching when other arms or features take the place of the present ones. -/
theorem GrownFrom.replace (h : GrownFrom settings learner) {bandit : Bandit α}
    (hblank : ∀ generator, bandit.blank generator = learner.bandit.blank generator)
    (hstrategy : bandit.strategy = learner.bandit.strategy)
    (lastFeatures : Dictionary (Features α)) :
    GrownFrom settings ⟨bandit, learner.monitor, lastFeatures⟩ where
  blank generator := (hblank generator).trans (h.blank generator)
  size := h.size
  interval := h.interval
  unused := h.unused
  waiting := h.waiting
  fits c hc := (h.fits c hc).trans hstrategy.symm

theorem GrownFrom.monitored (h : GrownFrom settings learner) (reward : α) :
    GrownFrom settings (learner.monitored reward).2 where
  blank generator := by rw [monitored_bandit, h.blank]
  size := (monitored_size reward).trans h.size
  interval := (monitored_interval reward).trans h.interval
  unused hzero := by
    rw [monitored_updates] at hzero
    exact absurd hzero (Nat.succ_ne_zero _)
  waiting hnone := by
    rcases learner.monitored_checkpoint_cases reward with hsame | ⟨c, hc, -⟩
    · rw [hsame] at hnone
      rcases monitored_of_waiting (h.waiting hnone) hnone reward with ⟨-, hsome⟩ | ⟨hdue, hm⟩
      · rw [hsame, hnone] at hsome
        cases hsome
      · rw [hm]
        exact (h.waiting hnone).withReward hdue reward
    · rw [hc] at hnone
      cases hnone
  fits c hc := by
    rw [monitored_bandit]
    rcases learner.monitored_checkpoint_cases reward with hsame | ⟨d, hd, hstate⟩
    · exact h.fits c (hsame.symm.trans hc)
    · obtain rfl : d = c := Option.some.inj (hd.symm.trans hc)
      rw [hstate, Bandit.strategy_arms]

end WatchedLearner

namespace WatchedLearner

variable [Analytic α] {settings : Settings α} {learner : WatchedLearner α}

theorem GrownFrom.teach (h : GrownFrom settings learner) (limit : StepLimit α)
    (lesson : Lesson α) : GrownFrom settings (learner.teach limit lesson).2 := by
  cases lesson with
  | select candidates features =>
    exact h.replace (fun _ => Bandit.blank_select _ _ _ _) (Bandit.select_snd_strategy _ _ _) _
  | reward id value features =>
    simp only [WatchedLearner.teach]
    split
    · next hu =>
      exact (h.replace (fun _ => Bandit.blank_of_update? hu) (Bandit.strategy_of_update? hu)
        learner.lastFeatures).monitored value
    · exact h
  | restoreCheckpoint =>
    simp only [WatchedLearner.teach]
    split
    · next hb =>
      obtain ⟨c, -, hr⟩ := Option.bind_eq_some_iff.mp hb
      exact h.replace (fun _ => Bandit.blank_of_restore? hr) (Bandit.strategy_of_restore? hr) _
    · exact h
  | load table =>
    cases hr : learner.bandit.restore? table with
    | none =>
      simp only [WatchedLearner.teach, hr]
      exact h
    | some bandit =>
      simp only [WatchedLearner.teach, hr]
      exact h.replace (fun _ => Bandit.blank_of_restore? hr) (Bandit.strategy_of_restore? hr) _
  | reset => exact h.replace (fun _ => Bandit.blank_reset _ _) (Bandit.reset_strategy _) _

/-- There is a checkpoint to restore if there is one at all. -/
theorem GrownFrom.teach_restoreCheckpoint (h : GrownFrom settings learner) (limit : StepLimit α) :
    (learner.teach limit .restoreCheckpoint).1 = .flag learner.monitor.checkpoint.isSome := by
  cases hc : learner.monitor.checkpoint with
  | none => simp only [WatchedLearner.teach, hc, Option.bind_none, Option.isSome_none]
  | some c =>
    obtain ⟨next, hr, -⟩ := Bandit.exists_restore? (h.fits c hc).symm
    simp only [WatchedLearner.teach, hc, Option.bind_some, hr, Option.isSome_some]

/-- Do two learners know the same, however they were watched? -/
def KnowsLike (learner other : WatchedLearner α) : Prop :=
  learner.bandit = other.bandit ∧ learner.lastFeatures = other.lastFeatures

/-- Without restored checkpoints the monitor has no influence on what is learned. -/
theorem KnowsLike.teach {other : WatchedLearner α} (h : KnowsLike learner other)
    (limit : StepLimit α) {lesson : Lesson α} (hl : lesson ≠ .restoreCheckpoint) :
    KnowsLike (learner.teach limit lesson).2 (other.teach limit lesson).2 := by
  obtain ⟨bandit, monitor, lastFeatures⟩ := learner
  obtain ⟨_, watching, _⟩ := other
  obtain ⟨rfl, rfl⟩ := h
  cases lesson with
  | reward id value features =>
    simp only [WatchedLearner.teach]
    split
    · exact ⟨by simp only [monitored_bandit], by simp only [monitored_lastFeatures]⟩
    · exact ⟨rfl, rfl⟩
  | restoreCheckpoint => exact absurd rfl hl
  | _ => exact ⟨rfl, rfl⟩

/-- A reward with features is taken into account. -/
theorem exists_teach_reward (limit : StepLimit α) (learner : WatchedLearner α) (id : String)
    (value : α) (x : Features α) :
    ∃ bandit, (learner.teach limit (.reward id value (some x))).2 =
      ({ learner with bandit := bandit }.monitored value).2 := by
  obtain ⟨held, bandit, hu⟩ := Bandit.exists_update? limit learner.bandit id value x
  have hfeatures : (some x <|> learner.lastFeatures.get? id) = some x := rfl
  exact ⟨bandit, by simp only [teach, hfeatures, hu]⟩

/-- As long as rewards are given a checkpoint is stored when one is due. -/
theorem GrownFrom.isSome_checkpoint_after (h : GrownFrom settings learner) (limit : StepLimit α)
    (id : String) (value : α) (x : Features α) (n : Nat) :
    (Run.after (WatchedLearner.teach limit) learner
        (.replicate n (.reward id value (some x)))).monitor.checkpoint.isSome ↔
      learner.monitor.checkpoint.isSome ∨ ∃ update, learner.monitor.updates < update ∧
        update ≤ learner.monitor.updates + n ∧ learner.monitor.DueAt update := by
  induction n generalizing learner with
  | zero =>
    rw [List.replicate_zero, Run.after_nil]
    refine ⟨.inl, fun hright => hright.resolve_right ?_⟩
    rintro ⟨update, hlow, hhigh, -⟩
    omega
  | succ n ih =>
    obtain ⟨bandit, hb⟩ := exists_teach_reward limit learner id value x
    rw [List.replicate_succ, Run.after_cons, ih (h.teach limit _), hb,
      isSome_checkpoint_monitored { learner with bandit := bandit } h.waiting]
    simp only [monitored_updates, dueAt_monitored]
    rw [or_assoc]
    refine or_congr_right ⟨?_, ?_⟩
    · rintro (hdue | ⟨update, hlow, hhigh, hdue⟩)
      · exact ⟨_, Nat.lt_succ_self _, by omega, hdue⟩
      · exact ⟨update, by omega, by omega, hdue⟩
    · rintro ⟨update, hlow, hhigh, hdue⟩
      rcases Nat.lt_or_eq_of_le (Nat.succ_le_of_lt hlow) with hlater | rfl
      · exact .inr ⟨update, hlater, by omega, hdue⟩
      · exact .inl hdue

theorem GrownFrom.after (h : GrownFrom settings learner) (limit : StepLimit α)
    (lessons : List (Lesson α)) :
    GrownFrom settings (Run.after (WatchedLearner.teach limit) learner lessons) :=
  Run.after_of_kept (fun _ lesson h => h.teach limit lesson) h lessons

/-- Without restored checkpoints the monitor never has any influence on what is learned. -/
theorem KnowsLike.after {other : WatchedLearner α} (h : KnowsLike learner other)
    (limit : StepLimit α) {lessons : List (Lesson α)} (hl : .restoreCheckpoint ∉ lessons) :
    KnowsLike (Run.after (WatchedLearner.teach limit) learner lessons)
      (Run.after (WatchedLearner.teach limit) other lessons) := by
  induction lessons generalizing learner other with
  | nil => exact h
  | cons lesson rest ih =>
    rw [List.mem_cons, not_or] at hl
    exact ih (h.teach limit (Ne.symm hl.1)) hl.2

/-- A learner that took rewards into account before is the first to have a checkpoint, if it and a
new one go on with the same rewards. -/
theorem GrownFrom.exists_rewards (h : GrownFrom settings learner) {other : WatchedLearner α}
    (ho : GrownFrom settings other) (hpos : 0 < learner.monitor.updates)
    (hzero : other.monitor.updates = 0) (limit : StepLimit α) (id : String) (value : α)
    (x : Features α) :
    ∃ n, let rewards := List.replicate n (Lesson.reward id value (some x))
      (Run.after (WatchedLearner.teach limit) learner rewards).monitor.checkpoint.isSome = true ∧
        (Run.after (WatchedLearner.teach limit) other rewards).monitor.checkpoint = none := by
  have hunstored : other.monitor.checkpoint = none := by
    rw [ho.unused hzero]
    rfl
  cases hc : learner.monitor.checkpoint with
  | some c => exact ⟨0, by simp [hc], hunstored⟩
  | none =>
    have hsize : 0 < learner.monitor.size := by
      rw [h.size]
      omega
    have hinterval : 0 < learner.monitor.interval := by
      rw [h.interval]
      omega
    have hsame : ∀ update, other.monitor.DueAt update → learner.monitor.DueAt update := by
      intro update hdue
      rwa [Monitor.DueAt, ho.size, ho.interval, ← h.size, ← h.interval] at hdue
    -- the next update at which a checkpoint is due comes too early for the new learner
    have hexists := Monitor.exists_dueAt hsize hinterval learner.monitor.updates
    classical
    obtain ⟨hlater, hdue⟩ := Nat.find_spec hexists
    refine ⟨Nat.find hexists - learner.monitor.updates,
      (h.isSome_checkpoint_after limit id value x _).mpr (.inr ⟨_, hlater, by omega, hdue⟩), ?_⟩
    rw [← Option.not_isSome_iff_eq_none, ho.isSome_checkpoint_after limit id value x]
    rintro (hsome | ⟨update, -, hle, hdue⟩)
    · rw [hunstored] at hsome
      cases hsome
    · by_cases hearly : update ≤ learner.monitor.updates
      · exact (h.waiting hc).never update hearly (hsame update hdue)
      · exact Nat.find_min hexists (by omega) ⟨by omega, hsame update hdue⟩

end WatchedLearner

namespace Engine

variable [Analytic α]

/-- After a reset the learner has the arms and the features of a new one, and it goes on to learn
and to select like a new one as long as no checkpoint is restored. If no reward was taken into
account before, it is like a new one in every way. Else some number of rewards, whatever they are,
leads to a checkpoint that can be restored where a new learner has none. -/
theorem reset_like_start (settings : Settings α) (clock : Instant) (generator : Generator α)
    (commands : List (Command α)) (limit : StepLimit α) :
    let fresh := start settings clock generator
    let engine := Run.after run fresh commands
    let learner := engine.resetLearning.learner
    let other := (start settings clock (engine.learner.bandit.generator?.getD generator)).learner
    (∀ lessons, .restoreCheckpoint ∉ lessons →
      (Run.after (WatchedLearner.teach limit) learner lessons).KnowsLike
        (Run.after (WatchedLearner.teach limit) other lessons)) ∧
    (rewardsApplied fresh commands = 0 → learner = other) ∧
    (0 < rewardsApplied fresh commands → ∀ id value x, ∃ n,
      let rewards := List.replicate n (Lesson.reward id value (some x))
      ((Run.after (WatchedLearner.teach limit) learner rewards).teach limit
        .restoreCheckpoint).1 = .flag true ∧
      ((Run.after (WatchedLearner.teach limit) other rewards).teach limit
        .restoreCheckpoint).1 = .flag false) := by
  intro fresh engine learner other
  have hengine : WatchedLearner.GrownFrom settings engine.learner :=
    learner_after_run (fun limit _ lesson h => h.teach limit lesson)
      (WatchedLearner.grownFrom_start settings clock generator) commands
  have hlearner : WatchedLearner.GrownFrom settings learner := hengine.teach limit .reset
  have hother : WatchedLearner.GrownFrom settings other :=
    WatchedLearner.grownFrom_start settings clock _
  have hbandit : learner.bandit = other.bandit :=
    (engine.learner.bandit.reset_eq_blank generator).trans (hengine.blank _)
  have hupdates : learner.monitor.updates = rewardsApplied fresh commands :=
    (tracks_run settings clock generator commands).updates
  refine ⟨fun lessons hl => WatchedLearner.KnowsLike.after ⟨hbandit, rfl⟩ limit hl,
    fun hzero => ?_, fun hpos id value x => ?_⟩
  · have hmonitor : learner.monitor = other.monitor := hlearner.unused (hupdates.trans hzero)
    show (⟨learner.bandit, learner.monitor, ∅⟩ : WatchedLearner α) = _
    rw [hbandit, hmonitor]
    rfl
  · obtain ⟨n, hsome, hnone⟩ :=
      hlearner.exists_rewards hother (hupdates ▸ hpos) rfl limit id value x
    refine ⟨n, ?_, ?_⟩
    · rw [(hlearner.after limit _).teach_restoreCheckpoint, hsome]
    · rw [(hother.after limit _).teach_restoreCheckpoint, hnone]
      rfl

/-- A reward and a selection after the reset find the same arms as in a new learner. Before the
monitor stores its first checkpoint, some rewards tell the two apart. -/
theorem reset_like_start_lamp :
    let fresh : Engine Float := start Settings.standard 0 .steadyFloat
    let commands : List (Command Float) := [.reward "lamp" 1]
    let learner := (Run.after run fresh commands).resetLearning.learner
    let limit : StepLimit Float := .standard
    let x : Features Float := .replicate featureCount 0
    let lessons := [.reward "alarm" 0.5 none, .select ["lamp", "alarm"] x]
    rewardsApplied fresh commands = 1 ∧ rewardsApplied fresh [] = 0 ∧
      fresh.resetLearning.learner = fresh.learner ∧
      (Run.after (WatchedLearner.teach limit) learner lessons).KnowsLike
        (Run.after (WatchedLearner.teach limit) fresh.learner lessons) ∧
      ∃ n, let rewards := List.replicate n (.reward "lamp" 1 (some x))
        ((Run.after (WatchedLearner.teach limit) learner rewards).teach limit
          .restoreCheckpoint).1 = .flag true ∧
        ((Run.after (WatchedLearner.teach limit) fresh.learner rewards).teach limit
          .restoreCheckpoint).1 = .flag false := by
  intro fresh commands learner limit x lessons
  have hcount : rewardsApplied fresh commands = 1 := by decide +kernel
  have hpos : 0 < rewardsApplied fresh commands := by
    rw [hcount]
    exact Nat.one_pos
  have hnone : rewardsApplied fresh [] = 0 := rfl
  obtain ⟨-, hequal, -⟩ := reset_like_start Settings.standard 0 .steadyFloat [] limit
  obtain ⟨hlike, -, hdiffers⟩ := reset_like_start Settings.standard 0 .steadyFloat commands limit
  exact ⟨hcount, hnone, hequal hnone, hlike lessons (by simp [lessons]),
    hdiffers hpos "lamp" 1 x⟩

/-- With a checkpoint at every reward, the arms that were forgotten come back. -/
theorem restores_forgotten_arms :
    let settings : Settings Float := { Settings.standard with
      guard := { GuardSettings.standard with monitorWindow := 1, checkpointInterval := 1 } }
    let fresh := start settings 0 .steadyFloat
    let engine := Run.after run fresh [.reward "lamp" 1, .resetLearning]
    engine.learner.bandit.armCount = 0 ∧ fresh.learner.bandit.armCount = 0 ∧
      engine.restoreCheckpoint.1 = true ∧ engine.restoreCheckpoint.2.learner.bandit.armCount = 1 ∧
      fresh.restoreCheckpoint.1 = false := by
  decide +kernel

end Engine

end ContextAdvisor
