import ContextAdvisor.Proofs.Engine.Faults
import ContextAdvisor.Proofs.Engine.RuleTable

/-!
# Table and tree over runs

Whatever commands an engine has taken, its decision tree is the one that compiles from its rules, so
the walk stays in the tree, every candidate is a rule of the table, and no operation faults. The
tree is compiled again only where the flag of a rule has really changed; it is nowhere out of date.
-/
namespace ContextAdvisor.Engine

variable {α : Type} [Analytic α] {settings : Settings α} {engine : Engine α}

/-- What holds of an engine with some settings at any time. -/
structure Sound (settings : Settings α) (engine : Engine α) : Prop where
  constants_eq : engine.constants = (settings, settings.eventMaxAge, settings.guard.rewardClip)
  table_eq : engine.table = .ofRules settings.maxTreeKeys engine.table.rules

theorem Sound.settings_eq (h : engine.Sound settings) : engine.settings = settings :=
  congrArg (·.1) h.constants_eq

theorem Sound.clip_eq (h : engine.Sound settings) :
    engine.guard.rewards.clip = settings.guard.rewardClip :=
  congrArg (·.2.2) h.constants_eq

theorem sound_start (settings : Settings α) (clock : Instant) (generator : Generator α) :
    (start settings clock generator).Sound settings := ⟨rfl, rfl⟩

theorem Sound.run (h : engine.Sound settings) (command : Command α) :
    (engine.run command).2.Sound settings where
  constants_eq := (engine.frame_run command).constants.trans h.constants_eq
  table_eq := by
    rcases engine.table_run_cases command with heq | ⟨rules, heq⟩
    · rw [heq]
      exact h.table_eq
    · rw [heq, h.settings_eq]
      rfl

theorem sound_after_start (settings : Settings α) (clock : Instant) (generator : Generator α)
    (commands : List (Command α)) :
    (Run.after Engine.run (start settings clock generator) commands).Sound settings :=
  Run.after_of_kept (fun _ command h => h.run command) (sound_start settings clock generator)
    commands

/-- Enables or disables the first rule with an identity, and compiles the tree again even if the
flag of the rule is as it should be. -/
def enableAfresh (engine : Engine α) (id : String) (enabled : Bool) : Bool × Engine α :=
  match engine.table.place? id with
  | some place => (true, engine.loadRules
      (engine.table.rules.modify place fun rule => { rule with enabled := enabled }))
  | none => (false, engine)

/-- Carries out a command, and compiles the tree again whether or not the table changes. -/
def runAfresh (engine : Engine α) : Command α → Reply α × Engine α
  | .enableRule id enabled => reply .flag (engine.enableAfresh id enabled)
  | command => engine.run command

/-- If the tree is up to date, nothing is lost by leaving it. -/
theorem Sound.enableAfresh_eq (h : engine.Sound settings) (id : String) (enabled : Bool) :
    engine.enableAfresh id enabled = engine.enableRule id enabled := by
  cases hp : engine.table.place? id with
  | none => simp only [enableAfresh, enableRule, hp]
  | some place =>
    simp only [enableAfresh, enableRule, hp]
    split_ifs with hsame
    · have htable : CompiledRules.ofRules engine.settings.maxTreeKeys engine.table.rules =
          engine.table := by rw [h.settings_eq, ← h.table_eq]
      rw [modify_enabled_eq_self hsame, loadRules, htable]
    · rfl

theorem Sound.runAfresh_eq (h : engine.Sound settings) (command : Command α) :
    engine.runAfresh command = engine.run command := by
  cases command with
  | enableRule id enabled => exact congrArg (reply .flag) (h.enableAfresh_eq id enabled)
  | _ => rfl

/-- No operation of an engine that evaluates, decides, selects or takes a reward into account
faults: told with its faults, it has the answer of the operation, and no reward is left unjudged. -/
structure Faultless (engine : Engine α) : Prop where
  evaluate : ∀ context limit,
    engine.evaluate? context limit = some (engine.evaluate context limit)
  decide : ∀ context, engine.decide? context = some (engine.decide context)
  select : ∀ candidates context,
    engine.select? candidates context = some (engine.select candidates context)
  reward : ∀ id reward, ∃ outcome, (engine.reward id reward).1 = .ok outcome
  rewardIn : ∀ id reward context,
    engine.rewardIn? id reward context = some (engine.rewardIn id reward context) ∧
      ∃ outcome, (engine.rewardIn id reward context).1 = .ok outcome

theorem Sound.faultless (h : engine.Sound settings) (laws : Scalar.SignLaws α)
    (hclip : 0.0 ≤ settings.guard.rewardClip) : engine.Faultless := by
  have hrange : -engine.guard.rewards.clip ≤ engine.guard.rewards.clip := by
    rw [h.clip_eq]
    exact laws.neg_le_self _ hclip
  have hobserved (context : Context) :
      -(engine.observeFeatures context).2.guard.rewards.clip ≤
        (engine.observeFeatures context).2.guard.rewards.clip := hrange
  refine ⟨evaluate?_eq h.table_eq, decide?_eq laws h.table_eq, select?_eq laws engine,
    fun id reward => exists_ok_applyReward hrange id reward none,
    fun id reward context => ⟨?_, exists_ok_applyReward (hobserved context) id reward _⟩⟩
  simp only [rewardIn?, observeFeatures?_eq laws, Option.bind_eq_bind, Option.bind_some]
  rfl

/-- After every run the tree is the one that compiles from the rules with the budget of the
settings, and compiling it more often would make no difference. So every child that the walk may
meet lies in the array, every candidate is the place of an enabled rule, and no operation faults, as
long as the largest reward is not negative. -/
theorem intact_after_start (laws : Scalar.SignLaws α) (hclip : 0.0 ≤ settings.guard.rewardClip)
    (clock : Instant) (generator : Generator α) (commands : List (Command α)) :
    let engine := Run.after run (start settings clock generator) commands
    engine = Run.after runAfresh (start settings clock generator) commands ∧
    engine.table = .ofRules settings.maxTreeKeys engine.table.rules ∧
    (∀ parent child, Relation.ReflTransGen (DecisionTree.Child engine.table.tree.nodes) 0 parent →
      DecisionTree.Child engine.table.tree.nodes parent child →
        child < engine.table.tree.nodes.size) ∧
    (∀ context, ∀ place ∈ engine.table.tree.candidates context,
      ∃ rule, engine.table.rules[place]? = some rule ∧ rule.enabled) ∧
    engine.Faultless := by
  intro engine
  have hafresh : Run.after runAfresh (start settings clock generator) commands = engine :=
    Run.after_congr (fun _ command h => h.runAfresh_eq command) (fun _ command h => h.run command)
      (sound_start settings clock generator) commands
  have hsound : engine.Sound settings := sound_after_start settings clock generator commands
  have htree : engine.table.tree =
      DecisionTree.compile engine.table.rules settings.maxTreeKeys :=
    congrArg CompiledRules.tree hsound.table_eq
  refine ⟨hafresh.symm, hsound.table_eq, ?_, ?_, hsound.faultless laws hclip⟩
  · rw [htree]
    exact fun _ _ => DecisionTree.child_lt_size _ _
  · rw [htree]
    exact fun context place hp => DecisionTree.mem_enabledPlaces.mp
      (DecisionTree.mem_enabledPlaces_of_mem_candidates hp)

/-- A lamp is disabled twice and enabled again beside two other rules. -/
theorem intact_after_start_lamp :
    let rules : List (Rule ℝ) := [.unconditional "a" ⟨"lamp", "light", ""⟩,
      .unconditional "b" ⟨"alarm", "sound", ""⟩, .unconditional "c" ⟨"fan", "air", ""⟩]
    let commands : List (Command ℝ) := [.loadRules rules, .enableRule "a" false,
      .enableRule "a" false, .removeRule "b", .enableRule "a" true]
    let engine := Run.after run (start Settings.standard 0 .steady) commands
    Scalar.SignLaws ℝ ∧ (0.0 : ℝ) ≤ Settings.standard.guard.rewardClip ∧
      engine.table = .ofRules 5 engine.table.rules ∧ engine.Faultless := by
  intro rules commands engine
  have hclip : (0.0 : ℝ) ≤ Settings.standard.guard.rewardClip := by
    show (0.0 : ℝ) ≤ 3.0
    norm_num
  obtain ⟨-, htable, -, -, hfaultless⟩ :=
    intact_after_start Scalar.signLaws_exact hclip 0 .steady commands
  exact ⟨Scalar.signLaws_exact, hclip, htable, hfaultless⟩

end ContextAdvisor.Engine
