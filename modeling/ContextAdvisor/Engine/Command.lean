import ContextAdvisor.Engine.SettingsDocument
import ContextAdvisor.Engine.Feedback
import ContextAdvisor.Learning.Snapshot
import ContextAdvisor.Rule.Document

/-!
# Running an engine

A `Command` is one use of an engine that may change it. `Engine.run` carries it out and gives a
reply, so the behaviour of an engine over time is that of a list of commands.
-/
namespace ContextAdvisor

namespace Engine

variable {α : Type} [Scalar α]

/-- Loads a rule set from its text; the number is that of its rules. -/
def importRules (engine : Engine α) (text : String) : Except DocumentFault Nat × Engine α :=
  match Rule.importText text with
  | .ok rules => (.ok rules.length, engine.loadRules rules)
  | .error fault => (.error fault, engine)

/-- Loads the arms of the learner from their text; the number is that of the arms. -/
def loadBandit (engine : Engine α) (text : String) : Except DocumentFault Nat × Engine α :=
  match Arms.importText engine.learner.bandit.strategy engine.settings.bandit.inverse text with
  | .ok table =>
    let bandit := (engine.learner.bandit.restore? table).getD engine.learner.bandit
    (.ok table.size, { engine with learner := { engine.learner with bandit := bandit } })
  | .error fault => (.error fault, engine)

/-- Loads the known places from their text; the number is that of the places. -/
def loadPlaces (engine : Engine α) (text : String) : Except DocumentFault Nat × Engine α :=
  match Places.importText text with
  | .ok places => (.ok places.size, { engine with places := places })
  | .error fault => (.error fault, engine)

end Engine

/-- A use of an engine that may change it. -/
inductive Command (α : Type) where
  | setClock (time : Instant)
  | advanceClock (span : Duration)
  | loadRules (rules : List (Rule α))
  | addRule (rule : Rule α)
  | removeRule (id : String)
  | enableRule (id : String) (enabled : Bool)
  | pushEvent (kind : String) (snapshot : Context) (time : Option Instant)
  | put (key value : String) (quality : α) (source : Option String)
  | setLifetime (key : String) (lifetime : Duration)
  | observeMotion (sample : Acceleration α) (speed : Option α)
  | learnPlace (place : String) (wifi bluetooth : Option String)
  | observeWifi (ssid : String)
  | forgetPlace (place : String)
  | evaluate (context : Context) (limit : Option Nat)
  | decide (context : Context)
  | select (candidates : List String) (context : Context)
  | reward (id : String) (reward : α)
  | rewardIn (id : String) (reward : α) (context : Context)
  | restoreCheckpoint
  | resetLearning
  | dispatch (result : RuleMatch α)
  | flushPending
  | importRules (text : String)
  | loadBandit (text : String)
  | loadPlaces (text : String)

/-- What a command gives back. -/
inductive Reply (α : Type) where
  | nothing
  | flag (b : Bool)
  | clock (time : Instant)
  | motion (update : MotionReport α)
  | places (ids : List String)
  | results (list : List (RuleMatch α))
  | decision (choice : Option (Decision α))
  | selection (choice : Option (Selection α))
  | reward (outcome : Except RewardFault (RewardOutcome α))
  | delivery (delivery : Option Delivery)
  | loaded (count : Except DocumentFault Nat)

namespace Engine

variable {α : Type} [Analytic α]

/-- The reply that an operation's result makes, with the engine that it leaves. -/
def reply {β : Type} (wrap : β → Reply α) (result : β × Engine α) : Reply α × Engine α :=
  (wrap result.1, result.2)

/-- Carries out a command. -/
def run (engine : Engine α) : Command α → Reply α × Engine α
  | .setClock time => (.clock time, { engine with clock := time })
  | .advanceClock span =>
    (.clock (engine.clock + span), { engine with clock := engine.clock + span })
  | .loadRules rules => (.nothing, engine.loadRules rules)
  | .addRule rule => (.nothing, engine.addRule rule)
  | .removeRule id => reply .flag (engine.removeRule id)
  | .enableRule id enabled => reply .flag (engine.enableRule id enabled)
  | .pushEvent kind snapshot time => (.nothing, engine.pushEvent kind snapshot time)
  | .put key value quality source => (.nothing, engine.put key value quality source)
  | .setLifetime key lifetime => (.nothing, engine.setLifetime key lifetime)
  | .observeMotion sample speed => reply .motion (engine.observeMotion sample speed)
  | .learnPlace place wifi bluetooth => reply .flag (engine.learnPlace place wifi bluetooth)
  | .observeWifi ssid => reply .places (engine.observeWifi ssid)
  | .forgetPlace place => reply .flag (engine.forgetPlace place)
  | .evaluate context limit => reply .results (engine.evaluate context limit)
  | .decide context => reply .decision (engine.decide context)
  | .select candidates context => reply .selection (engine.select candidates context)
  | .reward id reward => reply .reward (engine.reward id reward)
  | .rewardIn id reward context => reply .reward (engine.rewardIn id reward context)
  | .restoreCheckpoint => reply .flag engine.restoreCheckpoint
  | .resetLearning => (.nothing, engine.resetLearning)
  | .dispatch result => reply .delivery (engine.dispatch result)
  | .flushPending => reply .delivery engine.flushPending
  | .importRules text => reply .loaded (engine.importRules text)
  | .loadBandit text => reply .loaded (engine.loadBandit text)
  | .loadPlaces text => reply .loaded (engine.loadPlaces text)

end Engine

end ContextAdvisor
