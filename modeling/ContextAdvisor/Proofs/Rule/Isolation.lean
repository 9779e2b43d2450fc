import ContextAdvisor.Proofs.Json.Items
import ContextAdvisor.Proofs.Rule.Document

/-!
# Entries of a rule set are loaded one by one

An array of rules loads to what its entries load to, each in an array of its own, one after the
other. Entries that are no rules do no harm to the others. What spoils the load as a whole is an
entry that has no value, because a number in it is beyond the range of binary64, a string has no
text or its containers nest too deep.
-/
namespace ContextAdvisor

namespace Syntax

/-- A list has values when each item has one. -/
theorem isSome_values?_iff {depth : Nat} {items : List Syntax} :
    (values? depth items).isSome ↔ ∀ item ∈ items, (value? depth item).isSome := by
  induction items with
  | nil => simp [values?]
  | cons item rest ih =>
    rw [List.forall_mem_cons, ← ih, values?]
    cases value? depth item <;> cases values? depth rest <;> simp

/-- Is the text that of an array? -/
def isArrayText (text : String) : Bool :=
  match parse? text with
  | some (.array _) => true
  | _ => false

theorem isArrayText_iff {text : String} :
    isArrayText text = true ↔ ∃ items, parse? text = some (.array items) := by
  unfold isArrayText
  split
  · next items h => exact ⟨fun _ => ⟨items, h⟩, fun _ => rfl⟩
  · next hnot => exact ⟨nofun, fun ⟨items, h⟩ => absurd h (hnot items)⟩

end Syntax

namespace Rule

variable {α : Type} [Scalar α]

/-- What an entry of a rule set loads to. -/
def entryRules (item : Syntax) : Except DocumentFault (List (Rule α)) :=
  match Syntax.value? (Syntax.depthLimit - 1) item with
  | none => .error .invalidJson
  | some entry => .ok (ofEntries [entry])

/-- What the entries of a rule set load to. -/
def entriesRules (items : List Syntax) : Except DocumentFault (List (Rule α)) :=
  match Syntax.values? (Syntax.depthLimit - 1) items with
  | none => .error .invalidJson
  | some entries => .ok (ofEntries entries)

theorem importText_array {text : String} {items : List Syntax}
    (h : Syntax.parse? text = some (.array items)) :
    importText text = (entriesRules items : Except DocumentFault (List (Rule α))) := by
  have hvalue : Json.parse? text = (Syntax.values? (Syntax.depthLimit - 1) items).map .array := by
    rw [Json.parse?, h, Option.bind_some]
    rfl
  rw [importText, hvalue, entriesRules]
  cases Syntax.values? (Syntax.depthLimit - 1) items <;> rfl

theorem entriesRules_singleton (item : Syntax) :
    entriesRules [item] = (entryRules item : Except DocumentFault (List (Rule α))) := by
  rw [entriesRules, entryRules, Syntax.values?, Syntax.values?]
  cases Syntax.value? (Syntax.depthLimit - 1) item <;> rfl

/-- An entry adds its rules in front of those of the later ones, or it spoils the load. -/
theorem entriesRules_cons (item : Syntax) (rest : List Syntax) :
    (entriesRules (item :: rest) : Except DocumentFault (List (Rule α))) =
      (do return (← entryRules item) ++ (← entriesRules rest)) := by
  rw [entriesRules, entriesRules, entryRules, Syntax.values?]
  cases Syntax.value? (Syntax.depthLimit - 1) item with
  | none => rfl
  | some entry =>
    cases Syntax.values? (Syntax.depthLimit - 1) rest with
    | none => rfl
    | some entries =>
      have happend : (ofEntries ([entry] ++ entries) : List (Rule α)) =
          ofEntries [entry] ++ ofEntries entries := List.filterMap_append
      exact congrArg Except.ok happend

theorem entriesRules_eq_flatten (items : List Syntax) :
    (entriesRules items : Except DocumentFault (List (Rule α))) =
      List.flatten <$> items.mapM entryRules := by
  induction items with
  | nil => rfl
  | cons item rest ih =>
    rw [entriesRules_cons, ih, List.mapM_cons]
    cases (entryRules item : Except DocumentFault (List (Rule α))) with
    | error fault => rfl
    | ok rules =>
      cases (rest.mapM entryRules : Except DocumentFault (List (List (Rule α)))) <;> rfl

theorem exists_entriesRules_iff {items : List Syntax} :
    (∃ rules : List (Rule α), entriesRules items = .ok rules) ↔
      ∀ item ∈ items, (Syntax.value? (Syntax.depthLimit - 1) item).isSome := by
  rw [← Syntax.isSome_values?_iff, entriesRules]
  cases Syntax.values? (Syntax.depthLimit - 1) items with
  | none => exact ⟨fun ⟨_, h⟩ => (nomatch h), nofun⟩
  | some entries => exact ⟨fun _ => rfl, fun _ => ⟨_, rfl⟩⟩

/-- Texts that stand for the items load, each in an array of its own, to what the items load to. -/
theorem mapM_importText {parts : List String} {items : List Syntax}
    (h : parts.map Syntax.parse? = items.map some) :
    (parts.mapM fun part => importText ("[" ++ part ++ "]")) =
      items.mapM (entryRules : Syntax → Except DocumentFault (List (Rule α))) := by
  induction items generalizing parts with
  | nil =>
    rw [List.map_eq_nil_iff.mp h]
    rfl
  | cons item rest ih =>
    obtain ⟨part, more, rfl, hpart, hmore⟩ := List.map_eq_cons_iff.mp h
    rw [List.mapM_cons, List.mapM_cons, ih hmore,
      importText_array (Syntax.parse?_singleton hpart), entriesRules_singleton]

/-- An array of rules loads to what its entries load to, each in an array of its own and in their
order. It loads unless an entry has no value. -/
theorem importText_isolates {text : String} {items : List Syntax}
    (h : Syntax.parse? text = some (.array items)) :
    ∃ parts : List String,
      Syntax.WritesArray text.toList (parts.map String.toList) ∧
      parts.map Syntax.parse? = items.map some ∧
      importText text = List.flatten <$> (parts.mapM fun part =>
        (importText ("[" ++ part ++ "]") : Except DocumentFault (List (Rule α)))) ∧
      ((∃ rules : List (Rule α), importText text = .ok rules) ↔
        ∀ item ∈ items, (Syntax.value? (Syntax.depthLimit - 1) item).isSome) := by
  obtain ⟨parts, htext, hparts⟩ := Syntax.exists_parts_of_parse? h
  refine ⟨parts, htext, hparts, ?_, ?_⟩
  · rw [importText_array h, entriesRules_eq_flatten, mapM_importText hparts]
  · rw [importText_array h, exists_entriesRules_iff]

/-- Entries that are no rules between two that are, with a comma and brackets in a text. -/
theorem importText_isolates_lamp :
    let text := r#"[ ["lamp, [\"]"] , 7, [], ["fan", 8] ,["heat"] ]"#
    let rules : List (Rule Float) :=
      [.unconditional "lamp, [\"]" ⟨"", "", ""⟩, .unconditional "heat" ⟨"", "", ""⟩]
    ∃ items, Syntax.parse? text = some (.array items) ∧ importText text = .ok rules ∧
      ∃ parts : List String,
        Syntax.WritesArray text.toList (parts.map String.toList) ∧
        parts.map Syntax.parse? = items.map some ∧
        .ok rules = List.flatten <$> (parts.mapM fun part =>
          (importText ("[" ++ part ++ "]") : Except DocumentFault (List (Rule Float)))) := by
  intro text rules
  have harray : Syntax.isArrayText text = true := by decide +kernel
  obtain ⟨items, hitems⟩ := Syntax.isArrayText_iff.mp harray
  have hrules : importText text = .ok rules := by decide +kernel
  obtain ⟨parts, htext, hparts, hload, -⟩ := importText_isolates (α := Float) hitems
  exact ⟨items, hitems, hrules, parts, htext, hparts, hrules.symm.trans hload⟩

/-- A number beyond the range of binary64 in one entry keeps the others from being loaded. -/
theorem importText_spoilt_by_entry :
    let text := r#"[["lamp", "", [], [], 1e999], ["heat"]]"#
    (∃ items, Syntax.parse? text = some (.array items)) ∧
      importText text = (.error .invalidJson : Except DocumentFault (List (Rule Float))) ∧
      importText r#"[["heat"]]"# = .ok [(.unconditional "heat" ⟨"", "", ""⟩ : Rule Float)] :=
  ⟨Syntax.isArrayText_iff.mp (by decide +kernel), by decide +kernel, by decide +kernel⟩

end Rule

end ContextAdvisor
