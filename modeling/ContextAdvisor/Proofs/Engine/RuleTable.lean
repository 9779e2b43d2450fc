import ContextAdvisor.Proofs.Engine.Frame
import Mathlib.Data.List.Duplicate

/-!
# The table of rules

Each command about the rules is described by what it does to the list of their identities. A rule of
the table was there before the command, was brought in by it, or is one that the command enabled or
disabled.
-/
namespace ContextAdvisor

variable {α : Type}

/-- The rules that a command brings in. -/
def Command.broughtIn [Scalar α] : Command α → List (Rule α)
  | loadRules rules => rules
  | addRule rule => [rule]
  | importRules text =>
    match Rule.importText text with
    | .ok rules => rules
    | .error _ => []
  | _ => []

namespace CompiledRules

variable [Scalar α]

/-- The identities of the rules, in their order. -/
def ids (table : CompiledRules α) : List String := table.rules.map (·.id)

variable {table : CompiledRules α} {id : String} {place : Nat}

theorem place?_eq_idxOf? : table.place? id = table.ids.idxOf? id := by
  rw [ids, List.idxOf?, List.findIdx?_map]
  rfl

theorem place?_eq_none : table.place? id = none ↔ id ∉ table.ids := by
  rw [place?_eq_idxOf?, List.idxOf?_eq_none_iff]

/-- The place of an identity is that of a rule which has it. -/
theorem exists_rule_of_place? (h : table.place? id = some place) :
    ∃ rule, table.rules[place]? = some rule ∧ rule.id = id := by
  obtain ⟨hlt, hid, -⟩ := List.findIdx?_eq_some_iff_getElem.mp h
  exact ⟨table.rules[place], List.getElem?_eq_getElem hlt, by simpa using hid⟩

/-- If no two rules have an identity, there is one place for it. -/
theorem place_unique (h : table.ids.count id ≤ 1) {other : Nat} {a b : Rule α}
    (ha : table.rules[place]? = some a) (hb : table.rules[other]? = some b) (hida : a.id = id)
    (hidb : b.id = id) : place = other := by
  have hduplicate : ∀ m n : Nat, m < n → table.ids[m]? = some id → table.ids[n]? ≠ some id := by
    intro m n hlt hm hn
    obtain ⟨hml, hm⟩ := List.getElem?_eq_some_iff.mp hm
    obtain ⟨hnl, hn⟩ := List.getElem?_eq_some_iff.mp hn
    have htwice := List.duplicate_iff_exists_distinct_get.mpr
      ⟨⟨m, hml⟩, ⟨n, hnl⟩, hlt, hm.symm, hn.symm⟩
    have := List.duplicate_iff_two_le_count.mp htwice
    omega
  have hplace : table.ids[place]? = some id := by simp [ids, ha, hida]
  have hother : table.ids[other]? = some id := by simp [ids, hb, hidb]
  rcases lt_trichotomy place other with hlt | heq | hlt
  · exact absurd hother (hduplicate _ _ hlt hplace)
  · exact heq
  · exact absurd hplace (hduplicate _ _ hlt hother)

end CompiledRules

namespace Engine

/-- To give a rule the flag that it has changes nothing. -/
theorem modify_enabled_eq_self {rules : List (Rule α)} {place : Nat} {enabled : Bool}
    (h : (rules[place]?).map (·.enabled) = some enabled) :
    (rules.modify place fun rule => { rule with enabled := enabled }) = rules := by
  obtain ⟨rule, hrule, rfl⟩ := Option.map_eq_some_iff.mp h
  refine List.ext_getElem? fun other => ?_
  rw [List.getElem?_modify]
  by_cases ho : place = other
  · subst ho
    simp [hrule]
  · simp [ho]

section

variable [Scalar α] (engine : Engine α)

/-- Adding a rule adds its identity, unless it is already there. -/
theorem addRule_ids (rule : Rule α) : (engine.addRule rule).table.ids =
    if rule.id ∈ engine.table.ids then engine.table.ids else engine.table.ids ++ [rule.id] := by
  unfold addRule
  split
  · next place hplace =>
    obtain ⟨held, hheld, hid⟩ := CompiledRules.exists_rule_of_place? hplace
    have hmem : rule.id ∈ engine.table.ids :=
      hid ▸ List.mem_map_of_mem (List.mem_of_getElem? hheld)
    have hself : engine.table.ids.set place rule.id = engine.table.ids := by
      have hat : engine.table.ids[place]? = some rule.id := by
        simp [CompiledRules.ids, hheld, hid]
      obtain ⟨hlt, hat⟩ := List.getElem?_eq_some_iff.mp hat
      rw [← hat, List.set_getElem_self]
    rw [if_pos hmem]
    exact List.map_set.trans hself
  · next hplace =>
    rw [if_neg (CompiledRules.place?_eq_none.mp hplace)]
    exact List.map_append

/-- Removing a rule removes the first occurrence of its identity. -/
theorem removeRule_snd_ids (id : String) :
    (engine.removeRule id).2.table.ids = engine.table.ids.erase id := by
  rw [List.erase_eq_eraseIdx, ← CompiledRules.place?_eq_idxOf?]
  unfold removeRule
  split
  · next place hplace =>
    simp only [hplace]
    exact (List.eraseIdx_map _ _ _).symm
  · next hplace => simp only [hplace]

/-- Enabling and disabling change the first rule with the identity and no other. -/
theorem rules_enableRule {id : String} {place : Nat} (h : engine.table.place? id = some place)
    (enabled : Bool) : (engine.enableRule id enabled).2.table.rules =
      engine.table.rules.modify place fun rule => { rule with enabled := enabled } := by
  simp only [enableRule, h]
  split_ifs with hsame
  · exact (modify_enabled_eq_self hsame).symm
  · rfl

theorem getElem?_rules_enableRule {id : String} {place : Nat}
    (h : engine.table.place? id = some place) (enabled : Bool) (other : Nat) :
    (engine.enableRule id enabled).2.table.rules[other]? = engine.table.rules[other]?.map
      fun rule => if place = other then { rule with enabled := enabled } else rule := by
  rw [engine.rules_enableRule h]
  exact List.getElem?_modify _ _ _ _

/-- Enabling and disabling leave the identities as they are. -/
theorem enableRule_snd_ids (id : String) (enabled : Bool) :
    (engine.enableRule id enabled).2.table.ids = engine.table.ids := by
  cases h : engine.table.place? id with
  | none => simp only [enableRule, h]
  | some place =>
    refine List.ext_getElem? fun n => ?_
    rw [CompiledRules.ids, CompiledRules.ids, List.getElem?_map, List.getElem?_map,
      engine.getElem?_rules_enableRule h, Option.map_map]
    congr 1
    funext rule
    simp only [Function.comp_apply]
    split_ifs <;> rfl

/-- An import changes nothing, or puts the rules that it brings in in the place of the present
ones. -/
theorem importRules_snd_cases (text : String) : (engine.importRules text).2 = engine ∨
    (engine.importRules text).2 =
      engine.loadRules (Command.importRules text : Command α).broughtIn := by
  simp only [importRules, Command.broughtIn]
  cases Rule.importText (α := α) text with
  | ok rules => exact .inr rfl
  | error fault => exact .inl rfl

theorem mem_rules_addRule {rule added : Rule α} (h : rule ∈ (engine.addRule added).table.rules) :
    rule ∈ engine.table.rules ∨ rule = added := by
  unfold addRule at h
  split at h
  · exact List.mem_or_eq_of_mem_set h
  · simpa using List.mem_append.mp h

theorem mem_rules_removeRule {rule : Rule α} {id : String}
    (h : rule ∈ (engine.removeRule id).2.table.rules) : rule ∈ engine.table.rules := by
  unfold removeRule at h
  split at h
  · exact List.mem_of_mem_eraseIdx h
  · exact h

/-- A rule that is new in the table after enabling or disabling is the one that was meant. -/
theorem mem_rules_enableRule {rule : Rule α} {id : String} {enabled : Bool}
    (h : rule ∈ (engine.enableRule id enabled).2.table.rules) : rule ∈ engine.table.rules ∨
      id ∈ engine.table.ids ∧ rule.id = id ∧ rule.enabled = enabled := by
  cases hp : engine.table.place? id with
  | none =>
    simp only [enableRule, hp] at h
    exact .inl h
  | some place =>
    obtain ⟨n, hn⟩ := List.mem_iff_getElem?.mp h
    rw [engine.getElem?_rules_enableRule hp] at hn
    obtain ⟨held, hheld, rfl⟩ := Option.map_eq_some_iff.mp hn
    split_ifs with hsame
    · subst hsame
      obtain ⟨first, hfirst, hid⟩ := CompiledRules.exists_rule_of_place? hp
      obtain rfl : held = first := Option.some.inj (hheld.symm.trans hfirst)
      exact .inr ⟨hid ▸ List.mem_map_of_mem (List.mem_of_getElem? hheld), hid, rfl⟩
    · exact .inl (List.mem_of_getElem? hheld)

end

section

variable [Analytic α] {engine : Engine α} {command : Command α}

/-- Where a rule of the table comes from. -/
theorem mem_rules_run {rule : Rule α} (h : rule ∈ (engine.run command).2.table.rules) :
    rule ∈ engine.table.rules ∨ rule ∈ command.broughtIn ∨
      rule.id ∈ engine.table.ids ∧ command = .enableRule rule.id rule.enabled := by
  cases command with
  | loadRules rules => exact .inr (.inl h)
  | addRule added =>
    exact (engine.mem_rules_addRule h).imp_right fun h => .inl (List.mem_singleton.mpr h)
  | removeRule id => exact .inl (engine.mem_rules_removeRule h)
  | enableRule id enabled =>
    refine (engine.mem_rules_enableRule h).imp_right fun h => .inr ?_
    obtain ⟨hmem, rfl, rfl⟩ := h
    exact ⟨hmem, rfl⟩
  | importRules text =>
    change rule ∈ (engine.importRules text).2.table.rules at h
    rcases engine.importRules_snd_cases text with heq | heq
    · exact .inl (heq ▸ h)
    · rw [heq] at h
      exact .inr (.inl h)
  | _ =>
    rw [run_snd_table] at h
    · exact .inl h
    · rfl

/-- A command leaves the table alone, or compiles a new one as the settings say. -/
theorem table_run_cases (engine : Engine α) (command : Command α) :
    (engine.run command).2.table = engine.table ∨
      ∃ rules, (engine.run command).2.table = .ofRules engine.settings.maxTreeKeys rules := by
  cases command with
  | loadRules rules => exact .inr ⟨rules, rfl⟩
  | addRule rule =>
    change (engine.addRule rule).table = _ ∨ ∃ rules, (engine.addRule rule).table = _
    unfold addRule
    split <;> exact .inr ⟨_, rfl⟩
  | removeRule id =>
    change (engine.removeRule id).2.table = _ ∨ ∃ rules, (engine.removeRule id).2.table = _
    unfold removeRule
    split
    · exact .inr ⟨_, rfl⟩
    · exact .inl rfl
  | enableRule id enabled =>
    change (engine.enableRule id enabled).2.table = _ ∨
      ∃ rules, (engine.enableRule id enabled).2.table = _
    unfold enableRule
    split
    · split_ifs
      · exact .inl rfl
      · exact .inr ⟨_, rfl⟩
    · exact .inl rfl
  | importRules text =>
    change (engine.importRules text).2.table = _ ∨
      ∃ rules, (engine.importRules text).2.table = _
    rcases engine.importRules_snd_cases text with heq | heq
    · exact .inl (by rw [heq])
    · exact .inr ⟨_, by rw [heq]; rfl⟩
  | _ => exact .inl (run_snd_table engine rfl)

/-- An identity that no command brings in twice at once is in the table at most once. -/
theorem count_ids_run {id : String} (h : engine.table.ids.count id ≤ 1)
    (hin : (command.broughtIn.map (·.id)).count id ≤ 1) :
    (engine.run command).2.table.ids.count id ≤ 1 := by
  cases command with
  | loadRules rules => exact hin
  | addRule rule =>
    change (engine.addRule rule).table.ids.count id ≤ 1
    rw [addRule_ids]
    split_ifs with hmem
    · exact h
    · rw [List.count_append]
      by_cases hid : rule.id = id
      · subst hid
        simp [List.count_eq_zero_of_not_mem hmem]
      · simpa [hid] using h
  | removeRule removed =>
    change (engine.removeRule removed).2.table.ids.count id ≤ 1
    rw [removeRule_snd_ids]
    exact (List.erase_sublist.count_le id).trans h
  | enableRule other enabled =>
    change (engine.enableRule other enabled).2.table.ids.count id ≤ 1
    rwa [enableRule_snd_ids]
  | importRules text =>
    change (engine.importRules text).2.table.ids.count id ≤ 1
    rcases engine.importRules_snd_cases text with heq | heq
    · rwa [heq]
    · rw [heq]
      exact hin
  | _ =>
    rw [run_snd_table]
    · exact h
    · rfl

end

end Engine

end ContextAdvisor
