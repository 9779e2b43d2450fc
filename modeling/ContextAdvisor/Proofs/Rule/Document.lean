import ContextAdvisor.Proofs.Json.Records
import ContextAdvisor.Rule.Document
import ContextAdvisor.Text.Words

/-!
# Rule documents are read back

Every field of a rule is written in a form that its reader accepts, and no entry of an exported
document is left out. Whatever lenient form a document had, the rules read from it have operators
made from names, cooldowns that fit a word and finite priorities, so writing them in the one form
loses nothing.
-/
namespace ContextAdvisor

theorem Operator.ofName_name_of_mem_named : ∀ entry ∈ named, ofName entry.2.name = entry.2 := by
  decide

/-- The name of an operator that was made from a name leads to the same operator. -/
theorem Operator.ofName_name (word : String) : ofName (ofName word).name = ofName word := by
  cases h : named.lookup word with
  | none =>
    have hunknown : ofName word = unknown word := by rw [ofName, h, Option.getD_none]
    rw [hunknown, name, hunknown]
  | some op =>
    have hop : ofName word = op := by rw [ofName, h, Option.getD_some]
    rw [hop]
    exact ofName_name_of_mem_named (word, op) (Dictionary.mem_of_lookup h)

namespace Reader

@[simp] theorem lenientText_sorted (s : String) :
    lenientText (Json.sorted (.string s)).toSyntax = some s := rfl

theorem int_sorted {n : Int} (h : Text.inWord n) :
    int (Json.sorted (.integer n)).toSyntax = some n := by
  simp only [Text.inWord, Bool.and_eq_true, decide_eq_true_eq] at h
  exact intWithin_integer h.1 (by omega)

theorem inWord_of_int {tree : Syntax} {n : Int} (h : int tree = some n) : Text.inWord n := by
  cases tree with
  | integer m =>
    simp only [int, intWithin, Option.ite_none_right_eq_some, Bool.and_eq_true, decide_eq_true_eq,
      Option.some.injEq] at h
    obtain ⟨⟨hlow, hhigh⟩, rfl⟩ := h
    simp only [Text.inWord, Bool.and_eq_true, decide_eq_true_eq]
    omega
  | _ => cases h

/-- Only finite numbers are read. -/
theorem isFinite_of_scalar {α : Type} [Scalar α] {tree : Syntax} {x : α}
    (h : scalar tree = some x) : Scalar.isFinite x := by
  cases tree with
  | integer n => exact (Option.filter_eq_some_iff.mp h).2
  | decimal d => exact (Option.filter_eq_some_iff.mp h).2
  | _ => exact nomatch h

theorem exists_of_mem_list {β : Type} {read : Reader β} {tree : Syntax} {xs : List β}
    (h : list read tree = some xs) {x : β} (hx : x ∈ xs) : ∃ item, read item = some x := by
  cases tree with
  | array items =>
    replace h : items.mapM read = some xs := h
    induction items generalizing xs with
    | nil =>
      obtain rfl : [] = xs := Option.some.inj h
      exact absurd hx List.not_mem_nil
    | cons item rest ih =>
      simp only [List.mapM_cons, Option.bind_eq_bind, Option.bind_eq_some_iff, Option.pure_def,
        Option.some.injEq] at h
      obtain ⟨first, hfirst, more, hmore, rfl⟩ := h
      rcases List.mem_cons.mp hx with rfl | hx
      · exact ⟨item, hfirst⟩
      · exact ih hx hmore
  | _ => exact nomatch h

end Reader

/-- A field holds its default or what was read for it. -/
theorem Fields.withDefault_cases {β : Type} {fields : Fields} {name : String} {default x : β}
    {read : Reader β} (h : fields.withDefault name default read = some x) :
    x = default ∨ ∃ tree, read tree = some x := by
  unfold withDefault at h
  split at h
  · next tree _ => exact .inr ⟨tree, h⟩
  · exact .inl (Option.some.inj h).symm

/-- Is the operator one that documents can name? -/
def Condition.Regular (c : Condition) : Prop := ∃ word, c.op = Operator.ofName word

theorem Condition.regular_iff {c : Condition} :
    c.Regular ↔ Operator.ofName c.op.name = c.op := by
  refine ⟨?_, fun h => ⟨c.op.name, h.symm⟩⟩
  rintro ⟨word, hword⟩
  rw [hword, Operator.ofName_name]

instance Condition.decidableRegular (c : Condition) : Decidable c.Regular :=
  decidable_of_iff _ regular_iff.symm

/-- Can documents name the operators, and do they hold the numbers? -/
structure Rule.Regular {α : Type} [Scalar α] (r : Rule α) : Prop where
  conditions : ∀ c ∈ r.conditions, c.Regular
  cooldown : Text.inWord r.cooldown
  priority : Scalar.isFinite r.priority

instance Rule.decidableRegular {α : Type} [Scalar α] (r : Rule α) : Decidable r.Regular :=
  decidable_of_iff ((∀ c ∈ r.conditions, c.Regular) ∧ Text.inWord r.cooldown ∧
      Scalar.isFinite r.priority)
    ⟨fun h => ⟨h.1, h.2.1, h.2.2⟩, fun h => ⟨h.conditions, h.cooldown, h.priority⟩⟩

deriving instance DecidableEq for Rule

theorem Condition.read?_toJson {c : Condition} (h : c.Regular) :
    read? c.toJson.sorted.toSyntax = some c := by
  obtain ⟨fields, hread, hfields⟩ := Fields.exists_read?_sorted
    [("key", .string c.key), ("op", .string c.op.name), ("value", .string c.value)]
    (show ["key", "op", "value"].Nodup by decide) ["key", "op", "value"]
  simp only [List.forall_mem_cons] at hfields
  obtain ⟨hkey, hop, hvalue, -⟩ := hfields
  rw [read?, toJson, Fields.bind_read? hread,
    (hkey (by simp)).bind_required (Reader.text_sorted _),
    (hop (by simp)).bind_required (Reader.text_sorted _),
    (hvalue (by simp)).bind_withDefault (Reader.lenientText_sorted _), regular_iff.mp h]
  rfl

/-- Whatever is read as a condition is regular. -/
theorem Condition.regular_of_read? {tree : Syntax} {c : Condition} (h : read? tree = some c) :
    c.Regular := by
  simp only [read?, Option.bind_eq_bind, Option.bind_eq_some_iff, Option.pure_def,
    Option.some.injEq] at h
  obtain ⟨fields, -, key, -, word, -, value, -, rfl⟩ := h
  exact ⟨word, rfl⟩

theorem Action.read?_toJson (a : Action) : read? a.toJson.sorted.toSyntax = some a := by
  obtain ⟨fields, hread, hfields⟩ := Fields.exists_read?_sorted
    [("id", .string a.id), ("type", .string a.kind), ("payload", .string a.payload)]
    (show ["id", "type", "payload"].Nodup by decide) ["id", "type", "payload"]
  simp only [List.forall_mem_cons] at hfields
  obtain ⟨hid, htype, hpayload, -⟩ := hfields
  rw [read?, toJson, Fields.bind_read? hread,
    (hid (by simp)).bind_withDefault (Reader.text_sorted _),
    (htype (by simp)).bind_withDefault (Reader.text_sorted _),
    (hpayload (by simp)).bind_withDefault (Reader.text_sorted _)]
  rfl

namespace Rule

variable {α : Type} [Scalar α]

/-- Whatever is read as a rule is regular. -/
theorem regular_of_read? (hdefault : Scalar.isFinite (1.0 : α)) {tree : Syntax} {r : Rule α}
    (h : read? tree = some r) : r.Regular := by
  simp only [read?, Option.bind_eq_bind, Option.bind_eq_some_iff, Option.pure_def,
    Option.some.injEq] at h
  obtain ⟨fields, -, id, -, name, -, conditions, hconditions, action, -, priority, hpriority,
    cooldown, hcooldown, enabled, -, rfl⟩ := h
  refine ⟨fun c hc => ?_, ?_, ?_⟩
  · rcases Fields.withDefault_cases hconditions with rfl | ⟨list, hlist⟩
    · exact absurd hc List.not_mem_nil
    · obtain ⟨entry, hentry⟩ := Reader.exists_of_mem_list hlist hc
      exact Condition.regular_of_read? hentry
  · rcases Fields.withDefault_cases hcooldown with rfl | ⟨number, hnumber⟩
    · show Text.inWord 0
      decide
    · exact Reader.inWord_of_int hnumber
  · rcases Fields.withDefault_cases hpriority with rfl | ⟨number, hnumber⟩
    · exact hdefault
    · exact Reader.isFinite_of_scalar hnumber

theorem regular_of_importText (hdefault : Scalar.isFinite (1.0 : α)) {text : String}
    {rules : List (Rule α)} (h : importText text = .ok rules) : ∀ r ∈ rules, r.Regular := by
  unfold importText at h
  split at h
  · exact nomatch h
  · next entries _ =>
    obtain rfl : ofEntries entries = rules := Except.ok.inj h
    intro r hr
    obtain ⟨entry, -, hentry⟩ := List.mem_filterMap.mp hr
    exact regular_of_read? hdefault hentry
  · exact nomatch h

variable [Recorded α]

theorem read?_toJson {r : Rule α} (h : r.Regular) (hr : Scalar.ReadsBack r.priority) :
    read? r.toJson.sorted.toSyntax = some r := by
  obtain ⟨fields, hread, hfields⟩ := Fields.exists_read?_sorted
    [("id", .string r.id), ("name", .string r.name),
      ("conditions", .array (r.conditions.map Condition.toJson)), ("action", r.action.toJson),
      ("priority", Json.ofScalar r.priority), ("cooldownMs", .integer r.cooldown),
      ("enabled", .bool r.enabled)]
    (show ["id", "name", "conditions", "action", "priority", "cooldownMs", "enabled"].Nodup by
      decide)
    ["id", "name", "conditions", "action", "priority", "cooldownMs", "enabled"]
  simp only [List.forall_mem_cons] at hfields
  obtain ⟨hid, hname, hconditions, haction, hpriority, hcooldown, henabled, -⟩ := hfields
  have hlist := Reader.list_sorted fun c hc => Condition.read?_toJson (h.conditions c hc)
  rw [read?, toJson, Fields.bind_read? hread,
    (hid (by simp)).bind_required (Reader.text_sorted _),
    (hname (by simp)).bind_withDefault (Reader.text_sorted _),
    (hconditions (by simp)).bind_withDefault hlist,
    (haction (by simp)).bind_withDefault r.action.read?_toJson,
    (hpriority (by simp)).bind_withDefault (Reader.scalar_ofScalar h.priority hr),
    (hcooldown (by simp)).bind_withDefault (Reader.int_sorted h.cooldown),
    (henabled (by simp)).bind_withDefault (Reader.bool_sorted _)]
  rfl

/-- The four containers around a condition's texts fit into a document. -/
theorem kept_toJson {r : Rule α} (h : Text.inWord r.cooldown) (hr : Scalar.ReadsBack r.priority)
    (depth : Nat) : r.toJson.Kept (depth + 3) := by
  have hconditions : Json.KeptItems (depth + 1) (r.conditions.map Condition.toJson) := by
    rw [Json.keptItems_iff]
    intro item hitem
    obtain ⟨c, -, rfl⟩ := List.mem_map.mp hitem
    simp [Condition.toJson, Json.Kept, Json.KeptMembers]
  have hword : Json.fitsWord r.cooldown := by
    simp only [Text.inWord, Bool.and_eq_true, decide_eq_true_eq] at h
    simp only [Json.fitsWord, Bool.and_eq_true, decide_eq_true_eq]
    omega
  have hscalar := Json.kept_ofScalar (fun _ => hr) (depth + 2)
  simp [toJson, Action.toJson, Json.Kept, Json.KeptMembers, hconditions, hword, hscalar]

/-- Regular rules are read back, in their order and without exception. -/
theorem importText_exportText {rules : List (Rule α)} (h : ∀ r ∈ rules, r.Regular)
    (hr : ∀ r ∈ rules, Scalar.ReadsBack r.priority) :
    importText (exportText rules) = .ok rules := by
  have hkept : (listToJson rules).Kept Syntax.depthLimit := by
    refine Json.keptItems_iff.mpr fun item hitem => ?_
    obtain ⟨r, hmem, rfl⟩ := List.mem_map.mp hitem
    exact kept_toJson (h r hmem).cooldown (hr r hmem) (Syntax.depthLimit - 4)
  have hentries : ofEntries (Json.sortedItems (rules.map toJson)) = rules := by
    rw [Json.sortedItems_eq, ofEntries, List.map_map, List.filterMap_map]
    have hread : ∀ r ∈ rules, read? r.toJson.sorted.toSyntax = some r :=
      fun r hmem => read?_toJson (h r hmem) (hr r hmem)
    exact (List.filterMap_congr hread).trans List.filterMap_some
  rw [importText, exportText, Json.parse?_compact hkept]
  exact congrArg Except.ok hentries

/-- Regular rules come back from their document as they were, and what any document was read as
comes back in the same way. -/
theorem importText_restores :
    (∀ rules : List (Rule Float), (∀ r ∈ rules, r.Regular) →
      (∀ r ∈ rules, Scalar.ReadsBack r.priority) → importText (exportText rules) = .ok rules) ∧
    ∀ (text : String) (rules : List (Rule Float)), importText text = .ok rules →
      (∀ r ∈ rules, Scalar.ReadsBack r.priority) → importText (exportText rules) = .ok rules := by
  refine ⟨fun rules h hr => importText_exportText h hr, fun text rules h hr => ?_⟩
  exact importText_exportText (regular_of_importText (by decide +kernel) h) hr

/-- A rule with an operator of its own and one with defaults, and their document as it may be
written by hand, with a number, a list and `null` for the values of conditions and with two entries
that are no rules. -/
theorem importText_restores_lenient :
    let rules : List (Rule Float) := [
      ⟨"warm", "Wärme ☀", [⟨"temperature", .gt, "21.5"⟩, ⟨"place", .oneOf, "home,,7,true"⟩,
        ⟨"mood", .unknown "≈", ""⟩], ⟨"heat", "device", "\"off\"\n"⟩, 2.5, -1, false⟩,
      .unconditional "plain" ⟨"", "", ""⟩]
    let text := r#"[["warm", "W\u00e4rme ☀", [["temperature", "gt", 21.50],
      ["place", "in", ["home", null, 7, true]], ["mood", "≈", null]],
      ["heat", "device", "\"off\"\n"], 25e-1, -1, false], 7, ["number", 8], ["plain"]]"#
    (∀ r ∈ rules, r.Regular) ∧ (∀ r ∈ rules, Scalar.ReadsBack r.priority) ∧
      importText (exportText rules.reverse) = .ok rules.reverse ∧
      importText text = .ok rules ∧ importText (exportText rules) = .ok rules := by
  intro rules text
  have hregular : ∀ r ∈ rules, r.Regular := by decide +kernel
  have hreads : ∀ r ∈ rules, Scalar.ReadsBack r.priority := by decide +kernel
  have htext : importText text = .ok rules := by decide +kernel
  have hreverse : importText (exportText rules.reverse) = .ok rules.reverse :=
    importText_restores.1 rules.reverse (fun r hr => hregular r (List.mem_reverse.mp hr))
      fun r hr => hreads r (List.mem_reverse.mp hr)
  exact ⟨hregular, hreads, hreverse, htext, importText_restores.2 text rules htext hreads⟩

end Rule

end ContextAdvisor
