import ContextAdvisor.Dictionary.Lemmas
import ContextAdvisor.Engine.Command
import ContextAdvisor.Proofs.DecisionTree.Candidates
import ContextAdvisor.Proofs.Engine.Cooldown
import ContextAdvisor.Proofs.Engine.Decide
import ContextAdvisor.Proofs.Engine.Feedback
import ContextAdvisor.Proofs.Engine.Scan
import ContextAdvisor.Proofs.Json.RoundTrip
import ContextAdvisor.Proofs.Pacing.Deliveries
import ContextAdvisor.Proofs.Pacing.FiringLog
import ContextAdvisor.Proofs.Engine.Frame
import ContextAdvisor.Proofs.EventLog
import ContextAdvisor.Proofs.Engine.RuleTable
import ContextAdvisor.Proofs.Engine.Silence
import ContextAdvisor.Proofs.Learning.Elimination
import ContextAdvisor.Proofs.Learning.Design
import ContextAdvisor.Proofs.Engine.Checkpoints
import ContextAdvisor.Proofs.Engine.FiringCaps
import ContextAdvisor.Proofs.Engine.Restart
import ContextAdvisor.Proofs.Rule.Document
import ContextAdvisor.Proofs.Rule.Pruning
import ContextAdvisor.Proofs.Engine.RecordedEvents
import ContextAdvisor.Proofs.Engine.LoadOrder
import ContextAdvisor.Proofs.Engine.Integrity
import ContextAdvisor.Proofs.EventLog.Ceiling
import ContextAdvisor.Proofs.Json.Items
import ContextAdvisor.Proofs.Rule.Isolation
import ContextAdvisor.Proofs.Engine.UnappliedRewards
import ContextAdvisor.Proofs.Engine.Lessons
import ContextAdvisor.Proofs.Engine.Renewal
import ContextAdvisor.Proofs.Rule.ShortCircuit
import ContextAdvisor.Proofs.Rule.Comparison
import ContextAdvisor.Proofs.Learning.Inversion
import ContextAdvisor.Proofs.Learning.Updates
import ContextAdvisor.Proofs.Learning.Optimism
import ContextAdvisor.Proofs.Safeguard.MonitorLog
import ContextAdvisor.Proofs.Safeguard.RewardLog
import ContextAdvisor.Proofs.Pacing.Waiting
import ContextAdvisor.Proofs.EventLog.Sequence
import ContextAdvisor.Proofs.Handover.Course
import ContextAdvisor.Proofs.Sensing.TrayLog
import ContextAdvisor.Proofs.Sensing.Forgetting
import ContextAdvisor.Proofs.Sensing.PlaceLog
import ContextAdvisor.Proofs.DecisionTree.Depth
import ContextAdvisor.Proofs.Engine.SettingsDocument
