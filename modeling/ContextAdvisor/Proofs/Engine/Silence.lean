import ContextAdvisor.Proofs.Engine.Firings
import ContextAdvisor.Proofs.Engine.RuleTable
import ContextAdvisor.Proofs.Run

/-!
# Rules that were removed or disabled

Removing and disabling concern the first rule with an identity. If it is the only one, no command
reports a rule with the identity from then on, until a command brings the identity in again or
enables it. It is the only one as long as no list of rules that is loaded or imported has the
identity twice; of two rules with one identity the second goes on to be reported.
-/
namespace ContextAdvisor

/-- Does a command take the rule with an identity out of use? -/
inductive Command.Withdraws {α : Type} (id : String) : Command α → Prop
  | remove : Withdraws id (.removeRule id)
  | disable : Withdraws id (.enableRule id false)

/-- Does a command bring a rule back into use that another one has taken out of it? -/
def Command.Revives {α : Type} [Scalar α] (id : String) (command withdrawal : Command α) : Prop :=
  (∃ rule ∈ command.broughtIn, rule.id = id) ∨
    withdrawal = .enableRule id false ∧ command = .enableRule id true

namespace Engine

section

variable {α : Type} [Analytic α] {engine : Engine α} {command : Command α} {id : String}
  {results : List (RuleMatch α)} {result : RuleMatch α}

/-- Only a command that brings an identity in puts it into the table. -/
theorem not_mem_ids_run (h : id ∉ engine.table.ids)
    (hin : ∀ rule ∈ command.broughtIn, rule.id ≠ id) :
    id ∉ (engine.run command).2.table.ids := by
  intro hmem
  obtain ⟨rule, hrule, rfl⟩ := List.mem_map.mp hmem
  rcases mem_rules_run hrule with hold | hnew | ⟨hold, -⟩
  · exact h (List.mem_map_of_mem hold)
  · exact hin rule hnew rfl
  · exact h hold

/-- A result has the identity of a rule. -/
theorem ruleId_mem_ids (h : engine.evaluated? command = some results) (hr : result ∈ results) :
    result.ruleId ∈ engine.table.ids := by
  obtain ⟨rule, hrule, hid, -⟩ := exists_rested_of_mem_evaluated h hr
  exact hid ▸ List.mem_map_of_mem hrule

/-- Is every rule with an identity disabled? -/
def Disabled (id : String) (engine : Engine α) : Prop :=
  ∀ rule ∈ engine.table.rules, rule.id = id → rule.enabled = false

/-- Only a command that brings an identity in or enables it ends that its rules are disabled. -/
theorem Disabled.run (h : engine.Disabled id) (hin : ∀ rule ∈ command.broughtIn, rule.id ≠ id)
    (he : command ≠ .enableRule id true) : (engine.run command).2.Disabled id := by
  intro rule hrule hid
  rcases mem_rules_run hrule with hold | hnew | ⟨-, hcommand⟩
  · exact h rule hold hid
  · exact absurd hid (hin rule hnew)
  · rw [hid] at hcommand
    exact Bool.eq_false_iff.mpr fun htrue => he (htrue ▸ hcommand)

/-- Every result stands for a rule that is enabled. -/
theorem exists_enabled_of_mem_evaluated (hr : engine.evaluated? command = some results)
    (hmem : result ∈ results) :
    ∃ rule ∈ engine.table.rules, rule.id = result.ruleId ∧ rule.enabled := by
  have hevaluated : ∀ context limit, result ∈ (engine.evaluate context limit).1 →
      ∃ rule ∈ engine.table.rules, rule.id = result.ruleId ∧ rule.enabled := by
    intro context limit h
    obtain ⟨place, hplace, rule, hrule, -, rfl⟩ := exists_rule_of_mem_evaluate h
    obtain ⟨maxKeys, htree⟩ := engine.table.exists_tree_eq
    rw [htree] at hplace
    obtain ⟨held, hheld, henabled⟩ := DecisionTree.mem_enabledPlaces.mp
      (DecisionTree.mem_enabledPlaces_of_mem_candidates hplace)
    obtain rfl : held = rule := Option.some.inj (hheld.symm.trans hrule)
    exact ⟨held, List.mem_of_getElem? hrule, rfl, henabled⟩
  cases command with
  | evaluate context limit =>
    obtain rfl := Option.some.inj hr
    exact hevaluated context limit hmem
  | decide context =>
    obtain rfl := Option.some.inj hr
    exact hevaluated context none hmem
  | _ => simp [evaluated?] at hr

/-- No command reports a rule that is disabled. -/
theorem Disabled.ruleId_ne (h : engine.Disabled id) (hr : engine.evaluated? command = some results)
    (hmem : result ∈ results) : result.ruleId ≠ id := by
  intro hid
  obtain ⟨rule, hrule, hsame, henabled⟩ := exists_enabled_of_mem_evaluated hr hmem
  exact absurd henabled (by simp [h rule hrule (hsame.trans hid)])

/-- A rule that was the only one with its identity is gone once it is removed. -/
theorem not_mem_ids_removeRule (h : engine.table.ids.count id ≤ 1) :
    id ∉ (engine.removeRule id).2.table.ids := by
  rw [removeRule_snd_ids, ← List.count_eq_zero, List.count_erase_self]
  exact Nat.sub_eq_zero_of_le h

/-- A rule that is the only one with its identity is disabled by its identity. -/
theorem disabled_enableRule (h : engine.table.ids.count id ≤ 1) (hid : id ∈ engine.table.ids) :
    (engine.enableRule id false).2.Disabled id := by
  obtain ⟨place, hplace⟩ : ∃ place, engine.table.place? id = some place :=
    Option.ne_none_iff_exists'.mp fun hnone => CompiledRules.place?_eq_none.mp hnone hid
  intro rule hrule hsame
  obtain ⟨other, hother⟩ := List.mem_iff_getElem?.mp hrule
  rw [engine.getElem?_rules_enableRule hplace] at hother
  obtain ⟨held, hheld, rfl⟩ := Option.map_eq_some_iff.mp hother
  obtain ⟨first, hfirst, hfirstid⟩ := CompiledRules.exists_rule_of_place? hplace
  have hheldid : held.id = id := by
    split_ifs at hsame <;> exact hsame
  rw [if_pos (CompiledRules.place_unique h hfirst hheld hfirstid hheldid)]

/-- A rule is taken out of use for good: if its identity was brought in at most once at a time, no
command reports a rule with it or decides on one from then on, unless a command in between brings
the identity in again or, for a rule that was only disabled, enables it. -/
theorem silent_while_withdrawn {before between : List (Command α)} {withdrawal again : Command α}
    (hone : engine.table.ids.count id ≤ 1)
    (hbefore : ∀ c ∈ before, (c.broughtIn.map (·.id)).count id ≤ 1)
    (hw : withdrawal.Withdraws id) (hbetween : ∀ c ∈ between, ¬ c.Revives id withdrawal) :
    let withdrawn := ((Run.after run engine before).run withdrawal).2
    let later := Run.after run withdrawn between
    (∀ results, later.evaluated? again = some results → ∀ result ∈ results,
        result.ruleId ≠ id) ∧
      ∀ d, (later.run again).1 = .decision (some d) → d.result.ruleId ≠ id := by
  intro withdrawn later
  have hcount : (Run.after run engine before).table.ids.count id ≤ 1 := by
    refine Run.after_of_forall (Q := fun e : Engine α => e.table.ids.count id ≤ 1) ?_ hbefore hone
    exact fun _ _ hin h => count_ids_run h hin
  have hin : ∀ c ∈ between, ∀ rule ∈ c.broughtIn, rule.id ≠ id :=
    fun c hc rule hr hid => hbetween c hc (.inl ⟨rule, hr, hid⟩)
  -- without a rule there are no results for it
  have habsent : id ∉ withdrawn.table.ids → ∀ results, later.evaluated? again = some results →
      ∀ result ∈ results, result.ruleId ≠ id := by
    intro hgone results hr result hmem hid
    have hstill : id ∉ later.table.ids := by
      refine Run.after_of_forall (Q := fun e : Engine α => id ∉ e.table.ids) ?_ hin hgone
      exact fun _ _ hin h => not_mem_ids_run h hin
    exact hstill (hid ▸ ruleId_mem_ids hr hmem)
  have hsilent : ∀ results, later.evaluated? again = some results → ∀ result ∈ results,
      result.ruleId ≠ id := by
    cases hw with
    | remove => exact habsent (not_mem_ids_removeRule hcount)
    | disable =>
      by_cases hid : id ∈ (Run.after run engine before).table.ids
      · have hdisabled : later.Disabled id := by
          refine Run.after_of_forall (P := fun c => (∀ rule ∈ c.broughtIn, rule.id ≠ id) ∧
            c ≠ .enableRule id true) (Q := Disabled id) (fun _ _ hc h => h.run hc.1 hc.2)
            (fun c hc => ?_) (disabled_enableRule hcount hid)
          exact ⟨hin c hc, fun he => hbetween c hc (.inr ⟨rfl, he⟩)⟩
        exact fun results hr result hmem => hdisabled.ruleId_ne hr hmem
      · refine habsent ?_
        rwa [← enableRule_snd_ids _ id false] at hid
  refine ⟨hsilent, fun d hd => ?_⟩
  obtain ⟨results, hr, hresult⟩ := exists_evaluated_of_decision hd
  exact hsilent results hr d.result hresult

end

/-- The lamp is disabled, and adding and enabling other rules does not bring it back. -/
theorem silent_while_withdrawn_lamp :
    let rules : List (Rule ℝ) :=
      [.unconditional "a" ⟨"lamp", "light", ""⟩, .unconditional "b" ⟨"alarm", "sound", ""⟩]
    let engine := (start Settings.standard 0 .steady).loadRules rules
    let between : List (Command ℝ) := [.addRule (.unconditional "c" ⟨"radio", "sound", ""⟩),
      .enableRule "b" true, .evaluate ∅ none]
    let later := Run.after run (engine.enableRule "a" false).2 between
    (engine.enableRule "a" false).1 = true ∧
      (∀ result ∈ (later.evaluate ∅ none).1, result.ruleId ≠ "a") ∧
      ∀ d, (later.decide ∅).1 = some d → d.result.ruleId ≠ "a" := by
  intro rules engine between later
  have hbefore : ∀ c ∈ [Command.loadRules rules],
      (c.broughtIn.map (·.id)).count "a" ≤ 1 := by
    simp [Command.broughtIn, rules, Rule.unconditional]
  have hbetween : ∀ c ∈ between, ¬ c.Revives "a" (.enableRule "a" false) := by
    simp [between, Command.Revives, Command.broughtIn, Rule.unconditional]
  have hone : (start Settings.standard 0 .steady : Engine ℝ).table.ids.count "a" ≤ 1 := by decide
  obtain ⟨hsilent, hundecided⟩ :=
    @silent_while_withdrawn _ _ _ "a" _ between _ (.decide ∅) hone hbefore .disable hbetween
  exact ⟨rfl, hsilent _ rfl, fun d hd => hundecided d (congrArg Reply.decision hd)⟩

/-- Of two rules with one identity that are loaded, the second is reported after the rule was
removed. -/
theorem reported_after_removal :
    let rules : List (Rule ℝ) :=
      [.unconditional "a" ⟨"lamp", "light", ""⟩, .unconditional "a" ⟨"alarm", "sound", ""⟩]
    let engine := (start Settings.standard 0 .steady).loadRules rules
    (engine.removeRule "a").1 = true ∧
      ∃ result ∈ ((engine.removeRule "a").2.evaluate ∅ none).1, result.ruleId = "a" := by
  intro rules engine
  have he : ((engine.removeRule "a").2.evaluate ∅ none).1 =
      [⟨"a", 1, ⟨"alarm", "sound", ""⟩⟩] :=
    evaluate_unconditional [("a", ⟨"alarm", "sound", ""⟩)] rfl (by simp [Ascending]) rfl rfl ∅
  exact ⟨rfl, _, he ▸ List.mem_cons_self, rfl⟩

end Engine

end ContextAdvisor
