import ContextAdvisor.Proofs.Engine.Checkpoints
import ContextAdvisor.Proofs.Learning.Snapshot

/-!
# What was learned survives a restart

However an engine got its arms, by rewards, from a checkpoint or from a snapshot, each stored
inverse is the one that its settings compute from the design matrix. So the snapshot of the arms
holds all there is to know, and an engine that is started anew with the same settings goes on where
the other one stopped.
-/
namespace ContextAdvisor

variable {α : Type}

section

variable [Scalar α] {mode : Inversion}

theorem LinearArm.inverse_ofParts {d : Nat} (mode : Inversion) (a : Square α d) (b : Vector α d)
    (pulls : Nat) : (ofParts mode a b pulls).inverse = (ofParts mode a b pulls).a.inverseBy mode :=
  rfl

theorem Arms.inverse_of_readLinear? {tree : Syntax} {id : String}
    {arm : LinearArm α featureCount} (h : readLinear? mode tree = some (id, arm)) :
    arm.inverse = arm.a.inverseBy mode := by
  simp only [readLinear?, Option.bind_eq_bind, Option.bind_eq_some_iff, Option.pure_def,
    Option.some.injEq, Prod.mk.injEq] at h
  obtain ⟨fields, -, word, -, pulls, -, rows, -, b, -, vectors, -, a, -, vector, -, -, rfl⟩ := h
  rfl

/-- What is read from a snapshot has inverses of the mode in which it is read. -/
theorem Arms.cached_of_importText {expected : Strategy} {text : String} {table : Arms α}
    (h : importText expected mode text = .ok table) : table.Cached mode := by
  unfold importText at h
  split at h
  · next header _ =>
    cases expected with
    | epsilonGreedy =>
      simp only [ofHeader] at h
      split_ifs at h
      cases h
      trivial
    | linUcb =>
      simp only [ofHeader] at h
      split_ifs at h
      cases h
      intro id arm hget
      obtain ⟨record, -, hrecord⟩ := List.mem_filterMap.mp (Dictionary.mem_of_get?_ofList hget)
      exact inverse_of_readLinear? hrecord
  · cases h

namespace Bandit

theorem strategy_ofSettings (settings : BanditSettings α) (generator : Generator α) :
    (ofSettings settings generator).strategy = settings.strategy := by
  unfold ofSettings
  split <;> simp_all [strategy]

/-- Does a learner compute inverses by a mode, and are those of its arms up to date? -/
def Cached (mode : Inversion) : Bandit α → Prop
  | epsilonGreedy _ => True
  | linUcb learner => learner.mode = mode ∧ (Arms.linear learner.arms).Cached mode

theorem cached_ofSettings (settings : BanditSettings α) (generator : Generator α) :
    (ofSettings settings generator).Cached settings.inverse := by
  unfold ofSettings
  cases settings.strategy with
  | epsilonGreedy => trivial
  | linUcb => exact ⟨rfl, fun _ _ h => nomatch h⟩

variable {bandit next : Bandit α}

theorem Cached.arms (h : bandit.Cached mode) : bandit.arms.Cached mode := by
  cases bandit with
  | epsilonGreedy learner => trivial
  | linUcb learner => exact h.2

theorem Cached.reset (h : bandit.Cached mode) : bandit.reset.Cached mode := by
  cases bandit with
  | epsilonGreedy learner => trivial
  | linUcb learner => exact ⟨h.1, fun _ _ hget => nomatch hget⟩

theorem Cached.restore? (h : bandit.Cached mode) {table : Arms α} (ht : table.Cached mode)
    (hr : bandit.restore? table = some next) : next.Cached mode := by
  cases bandit <;> cases table <;> cases hr
  · trivial
  · exact ⟨h.1, ht⟩

/-- An update leaves an arm whose inverse was computed just now. -/
theorem Cached.update? (h : bandit.Cached mode) {limit : StepLimit α} {id : String} {reward : α}
    {features : Option (Features α)} {held : Nat}
    (hu : bandit.update? limit id reward features = some (held, next)) : next.Cached mode := by
  cases bandit with
  | epsilonGreedy learner =>
    cases hu
    trivial
  | linUcb learner =>
    obtain ⟨x, -, hx⟩ := Option.map_eq_some_iff.mp hu
    cases hx
    refine ⟨h.1, fun key arm hget => ?_⟩
    rw [Dictionary.get?_insert] at hget
    split_ifs at hget with hkey
    · obtain rfl := Option.some.inj hget
      show Square.inverseBy learner.mode _ = _
      rw [h.1]
      rfl
    · exact h.2 key arm hget

end Bandit

theorem Bandit.Cached.select {α : Type} [Analytic α] {bandit : Bandit α} (h : bandit.Cached mode)
    (candidates : List String) (x : Features α) :
    (bandit.select candidates x).2.Cached mode := by
  cases bandit with
  | epsilonGreedy learner => trivial
  | linUcb learner => exact h

/-- Are the inverses of the learner and of its checkpoint up to date? -/
structure WatchedLearner.Cached (mode : Inversion) (learner : WatchedLearner α) : Prop where
  bandit : learner.bandit.Cached mode
  checkpoint : ∀ c, learner.monitor.checkpoint = some c → c.state.Cached mode

theorem WatchedLearner.Cached.monitored {learner : WatchedLearner α} (h : learner.Cached mode)
    (reward : α) : (learner.monitored reward).2.Cached mode := by
  refine ⟨by rw [monitored_bandit]; exact h.bandit, fun c hc => ?_⟩
  cases learner.observed_monitored reward with
  | nothing hr hm => exact nomatch hr
  | reward hr hu hcheckpoint hn => exact h.checkpoint c (hcheckpoint ▸ hc)
  | checkpoint average hr hu hcheckpoint hn =>
    obtain rfl := Option.some.inj (hcheckpoint.symm.trans hc)
    show (learner.monitored reward).2.bandit.arms.Cached mode
    rw [monitored_bandit]
    exact h.bandit.arms

end

namespace Engine

/-- What the learner of an engine knows about each action. -/
def arms [Scalar α] (engine : Engine α) : Arms α := engine.learner.bandit.arms

section

variable [Scalar α] [Recorded α] {engine : Engine α} {table : Arms α}

/-- Arms that a snapshot holds are loaded if the strategy fits. -/
theorem loadBandit_exportText (h : table.Storable)
    (hr : ∀ x ∈ table.scalars, Scalar.isFinite x → Scalar.ReadsBack x)
    (hc : table.Cached engine.settings.bandit.inverse)
    (hs : engine.learner.bandit.strategy = table.strategy) :
    (engine.loadBandit table.exportText).1 = .ok table.size ∧
      (engine.loadBandit table.exportText).2.arms = table := by
  obtain ⟨next, hnext, harms⟩ := Bandit.exists_restore? hs
  have himport := Arms.importText_exportText h hr hc
  rw [← hs] at himport
  simp only [loadBandit, himport, hnext, Option.getD_some]
  exact ⟨trivial, harms⟩

/-- Arms of another strategy are refused, and nothing changes. -/
theorem loadBandit_of_ne (h : table.Storable)
    (hr : ∀ x ∈ table.scalars, Scalar.isFinite x → Scalar.ReadsBack x)
    (hs : engine.learner.bandit.strategy ≠ table.strategy) :
    engine.loadBandit table.exportText = (.error (.strategyMismatch
      engine.learner.bandit.strategy.name table.strategy.name), engine) := by
  rw [loadBandit, Arms.importText_of_ne h hr hs]

end

variable [Analytic α] {mode : Inversion}

theorem run_loadBandit_snd (engine : Engine α) (text : String) :
    (engine.run (.loadBandit text)).2 = (engine.loadBandit text).2 :=
  rfl

/-- A reward leaves the learner alone, or it is updated and the monitor sees the reward. -/
theorem applyReward_snd_learner (engine : Engine α) (id : String) (reward : α)
    (features : Option (Features α)) :
    (engine.applyReward id reward features).2.learner = engine.learner ∨
      ∃ limit applied x held bandit,
        engine.learner.bandit.update? limit id applied x = some (held, bandit) ∧
        (engine.applyReward id reward features).2.learner =
          ({ engine.learner with bandit := bandit }.monitored applied).2 := by
  simp only [applyReward]
  split
  · exact .inl rfl
  · split
    · exact .inl rfl
    · split
      · exact .inl rfl
      · next hu => exact .inr ⟨_, _, _, _, _, hu, rfl⟩

theorem cached_applyReward {engine : Engine α} (h : engine.learner.Cached mode) (id : String)
    (reward : α) (features : Option (Features α)) :
    (engine.applyReward id reward features).2.learner.Cached mode := by
  rcases engine.applyReward_snd_learner id reward features with
    hl | ⟨limit, applied, x, held, bandit, hu, hl⟩
  · rw [hl]
    exact h
  · rw [hl]
    have hupdated : WatchedLearner.Cached mode { engine.learner with bandit := bandit } :=
      ⟨h.bandit.update? hu, h.checkpoint⟩
    exact hupdated.monitored applied

theorem cached_select {engine : Engine α} (h : engine.learner.Cached mode)
    (candidates : List String) (context : Context) :
    (engine.select candidates context).2.learner.Cached mode :=
  ⟨h.bandit.select candidates _, h.checkpoint⟩

/-- Every command leaves inverses that are up to date. -/
theorem cached_run (engine : Engine α) (h : engine.learner.Cached engine.settings.bandit.inverse)
    (command : Command α) :
    (engine.run command).2.learner.Cached engine.settings.bandit.inverse := by
  cases command with
  | reward id reward => exact cached_applyReward h id reward none
  | rewardIn id reward context =>
    exact @cached_applyReward _ _ _ (engine.observeFeatures context).2 h id reward _
  | select candidates context => exact cached_select h candidates context
  | decide context =>
    show (engine.decide context).2.learner.Cached _
    rcases engine.decide_snd_learner context with hl | ⟨candidates, hl⟩
    · rw [hl]
      exact h
    · rw [hl]
      exact cached_select h candidates context
  | restoreCheckpoint =>
    show engine.restoreCheckpoint.2.learner.Cached _
    unfold restoreCheckpoint
    split
    · next bandit hb =>
      obtain ⟨c, hc, hr⟩ := Option.bind_eq_some_iff.mp hb
      exact ⟨h.bandit.restore? (h.checkpoint c hc) hr, h.checkpoint⟩
    · exact h
  | resetLearning => exact ⟨h.bandit.reset, h.checkpoint⟩
  | loadBandit text =>
    rw [run_loadBandit_snd]
    unfold loadBandit
    split
    · next table ht =>
      refine ⟨?_, h.checkpoint⟩
      cases hr : engine.learner.bandit.restore? table with
      | none => exact h.bandit
      | some bandit => exact h.bandit.restore? (Arms.cached_of_importText ht) hr
    · exact h
  | _ =>
    rw [run_snd_learner]
    · exact h
    · rfl

/-- In every reachable state the settings are the first ones, the strategy is theirs, and all
inverses are up to date. -/
theorem cached_after_start (settings : Settings α) (clock : Instant) (generator : Generator α)
    (commands : List (Command α)) :
    let engine := Run.after run (start settings clock generator) commands
    engine.settings = settings ∧ engine.learner.Cached settings.bandit.inverse := by
  refine Run.after_of_kept
    (Q := fun e : Engine α => e.settings = settings ∧ e.learner.Cached settings.bandit.inverse)
    (fun engine command h => ?_) ⟨rfl, ?_, ?_⟩ commands
  · obtain ⟨hs, hc⟩ := h
    have hrun := cached_run engine (by rw [hs]; exact hc) command
    rw [hs] at hrun
    exact ⟨(engine.run_snd_settings command).trans hs, hrun⟩
  · exact Bandit.cached_ofSettings settings.bandit generator
  · exact fun c hc => nomatch hc

theorem strategy_after_start (settings : Settings α) (clock : Instant) (generator : Generator α)
    (commands : List (Command α)) :
    (Run.after run (start settings clock generator) commands).learner.bandit.strategy =
      settings.bandit.strategy := by
  rw [(tracks_run settings clock generator commands).strategy]
  exact Bandit.strategy_ofSettings settings.bandit generator

/-- In every reachable state whose parameters are finite, the snapshot brings all arms back into an
engine that is started anew with the same settings, with their pulls and their inverses. An engine
with the other strategy refuses it and stays as it is. -/
theorem arms_survive_restart [Recorded α] (settings : Settings α) (clock : Instant)
    (generator : Generator α) (commands : List (Command α)) :
    let table := (Run.after run (start settings clock generator) commands).arms
    table.Storable → (∀ x ∈ table.scalars, Scalar.isFinite x → Scalar.ReadsBack x) →
      (∀ (restart : Instant) (seeded : Generator α),
        let fresh := start settings restart seeded
        (fresh.loadBandit table.exportText).1 = .ok table.size ∧
          (fresh.loadBandit table.exportText).2.arms = table) ∧
      ∀ other : Engine α, other.learner.bandit.strategy ≠ settings.bandit.strategy →
        other.loadBandit table.exportText = (.error (.strategyMismatch
          other.learner.bandit.strategy.name settings.bandit.strategy.name), other) := by
  intro table hstorable hreads
  have hstrategy : table.strategy = settings.bandit.strategy :=
    (Bandit.strategy_arms _).trans (strategy_after_start settings clock generator commands)
  have hcached : table.Cached settings.bandit.inverse :=
    (cached_after_start settings clock generator commands).2.bandit.arms
  refine ⟨fun restart seeded => ?_, fun other hother => ?_⟩
  · have hfresh := Bandit.strategy_ofSettings settings.bandit seeded
    exact loadBandit_exportText hstorable hreads hcached (hfresh.trans hstrategy.symm)
  · rw [← hstrategy] at hother ⊢
    exact loadBandit_of_ne hstorable hreads hother

/-- Learning with features and full inverses. -/
def inverting : Settings Float := { Settings.standard with
  bandit := { BanditSettings.standard with strategy := .linUcb, inverse := .full } }

/-- One arm with three pulls whose design matrix is not diagonal. -/
def taught : Arms Float :=
  .linear (.ofList [("lamp", .ofParts .full (.ofFn fun i j => if i = j then 2.0 else 0.25)
    (.replicate featureCount 0.5) 3)])

theorem storable_taught : taught.Storable := by decide +kernel

theorem cached_taught : taught.Cached .full := by
  intro id arm h
  have hentry := List.mem_singleton.mp (Dictionary.mem_of_get?_ofList h)
  rw [(Prod.mk.inj hentry).2]
  exact LinearArm.inverse_ofParts ..

theorem readsBack_taught : ∀ x ∈ taught.scalars, Scalar.isFinite x → Scalar.ReadsBack x := by
  decide +kernel

theorem arms_of_taught :
    (Run.after run (start inverting 0 .steadyFloat) [.loadBandit taught.exportText]).arms =
      taught := by
  rw [Run.after_cons, Run.after_nil, run_loadBandit_snd]
  exact (loadBandit_exportText storable_taught readsBack_taught cached_taught rfl).2

/-- Averages come back after a restart, and so does an arm that looks at features, which an engine
that keeps averages refuses. -/
theorem arms_survive_restart_lamp :
    let fresh : Engine Float := start Settings.standard 7 .steadyFloat
    let commands : List (Command Float) :=
      [.reward "lamp" 1.0, .reward "alarm" (-0.5), .reward "lamp" 0.25]
    let averages := (Run.after run (start Settings.standard 0 .steadyFloat) commands).arms
    averages.Storable ∧ taught.Storable ∧
      (fresh.loadBandit averages.exportText).1 = .ok 2 ∧
      (fresh.loadBandit averages.exportText).2.arms = averages ∧
      ((start inverting 7 .steadyFloat).loadBandit taught.exportText).1 = .ok 1 ∧
      ((start inverting 7 .steadyFloat).loadBandit taught.exportText).2.arms = taught ∧
      fresh.loadBandit taught.exportText =
        (.error (.strategyMismatch "epsilon_greedy" "lin_ucb"), fresh) := by
  intro fresh commands averages
  have hstorable : averages.Storable := by decide +kernel
  have hreads : ∀ x ∈ averages.scalars, Scalar.isFinite x → Scalar.ReadsBack x := by
    decide +kernel
  have hsize : averages.size = 2 := by decide +kernel
  obtain ⟨hcount, haverages⟩ :=
    (arms_survive_restart _ 0 _ commands hstorable hreads).1 7 .steadyFloat
  have hlinear := arms_survive_restart inverting 0 .steadyFloat [.loadBandit taught.exportText]
  rw [arms_of_taught] at hlinear
  obtain ⟨hfresh, hother⟩ := hlinear storable_taught readsBack_taught
  obtain ⟨hone, htaught⟩ := hfresh 7 .steadyFloat
  exact ⟨hstorable, storable_taught, hcount.trans (congrArg Except.ok hsize), haverages, hone,
    htaught, hother fresh (by decide)⟩

end Engine

end ContextAdvisor
