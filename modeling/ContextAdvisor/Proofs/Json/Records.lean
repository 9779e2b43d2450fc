import ContextAdvisor.Dictionary.Lemmas
import ContextAdvisor.Json.Reader
import ContextAdvisor.Proofs.Json.Decimals

/-!
# Reading records back

A value that is written and read again is the same value with the members of its objects in
ascending order, as long as its integers fit a word, its numbers survive their text and its
containers do not nest too deep. Records are read by the names of their fields, so the order of the
members does not count.
-/
namespace ContextAdvisor

namespace Json

mutual

/-- The value with the members of all its objects in ascending order. -/
def sorted : Json → Json
  | .array items => .array (sortedItems items)
  | .object members => .object (Dictionary.ofList (sortedMembers members)).entries
  | other => other

/-- The items with the members of all their objects in ascending order. -/
def sortedItems : List Json → List Json
  | [] => []
  | item :: rest => sorted item :: sortedItems rest

/-- The members, with the members of all objects in them in ascending order. -/
def sortedMembers : List (String × Json) → List (String × Json)
  | [] => []
  | (key, value) :: rest => (key, sorted value) :: sortedMembers rest

end

mutual

/-- Do all integers fit a word, do all numbers survive their text, and do the containers nest at
most `depth` deep? -/
def Kept : (depth : Nat) → Json → Prop
  | _, .integer n => fitsWord n
  | _, .decimal d => ofDecimal? d.written = some (.decimal d)
  | 0, .array _ => False
  | depth + 1, .array items => KeptItems depth items
  | 0, .object _ => False
  | depth + 1, .object members => KeptMembers depth members
  | _, _ => True

/-- Are all items kept? -/
def KeptItems : (depth : Nat) → List Json → Prop
  | _, [] => True
  | depth, item :: rest => Kept depth item ∧ KeptItems depth rest

/-- Are the values of all members kept? -/
def KeptMembers : (depth : Nat) → List (String × Json) → Prop
  | _, [] => True
  | depth, (_, value) :: rest => Kept depth value ∧ KeptMembers depth rest

end

theorem itemsToSyntax_eq (items : List Json) : itemsToSyntax items = items.map toSyntax := by
  induction items with
  | nil => rfl
  | cons item rest ih => rw [itemsToSyntax, ih, List.map_cons]

theorem membersToSyntax_eq (members : List (String × Json)) :
    membersToSyntax members = members.map fun m => (some m.1, toSyntax m.2) := by
  induction members with
  | nil => rfl
  | cons member rest ih => rw [membersToSyntax, ih, List.map_cons]

theorem writtenItems_eq (items : List Json) : writtenItems items = items.map written := by
  induction items with
  | nil => rfl
  | cons item rest ih => rw [writtenItems, ih, List.map_cons]

theorem writtenMembers_eq (members : List (String × Json)) :
    writtenMembers members = members.map fun m => (m.1, m.2.written) := by
  induction members with
  | nil => rfl
  | cons member rest ih => rw [writtenMembers, ih, List.map_cons]

theorem sortedItems_eq (items : List Json) : sortedItems items = items.map sorted := by
  induction items with
  | nil => rfl
  | cons item rest ih => rw [sortedItems, ih, List.map_cons]

theorem sortedMembers_eq (members : List (String × Json)) :
    sortedMembers members = members.map fun m => (m.1, m.2.sorted) := by
  induction members with
  | nil => rfl
  | cons member rest ih => rw [sortedMembers, ih, List.map_cons]

theorem keptItems_iff {depth : Nat} {items : List Json} :
    KeptItems depth items ↔ ∀ item ∈ items, item.Kept depth := by
  induction items with
  | nil => simp [KeptItems]
  | cons item rest ih => rw [KeptItems, ih, List.forall_mem_cons]

theorem keptMembers_iff {depth : Nat} {members : List (String × Json)} :
    KeptMembers depth members ↔ ∀ m ∈ members, m.2.Kept depth := by
  induction members with
  | nil => simp [KeptMembers]
  | cons member rest ih => rw [KeptMembers, ih, List.forall_mem_cons]

mutual

/-- A value that is kept is read back with its members sorted. -/
theorem value?_written : ∀ (depth : Nat) (v : Json), v.Kept depth →
    Syntax.value? depth v.written.toSyntax = some v.sorted
  | depth, .null, _ => by cases depth <;> rfl
  | depth, .bool b, _ => by cases depth <;> rfl
  | depth, .integer n, h => by
    have hword : fitsWord n = true := by cases depth <;> exact h
    have hvalue : ofInteger? n = some (.integer n) := by rw [ofInteger?, if_pos hword]
    cases depth <;> exact hvalue
  | depth, .decimal d, h => by
    cases depth <;> exact h
  | depth, .string s, _ => by cases depth <;> rfl
  | depth + 1, .array items, h => by
    rw [written, toSyntax, Syntax.value?, values?_writtenItems depth items h]
    rfl
  | depth + 1, .object members, h => by
    rw [written, toSyntax, Syntax.value?, memberValues?_writtenMembers depth members h]
    rfl

theorem values?_writtenItems : ∀ (depth : Nat) (items : List Json), KeptItems depth items →
    Syntax.values? depth (itemsToSyntax (writtenItems items)) = some (sortedItems items)
  | depth, [], _ => by cases depth <;> rfl
  | depth, item :: items, h => by
    rw [writtenItems, itemsToSyntax, Syntax.values?, value?_written depth item h.1,
      values?_writtenItems depth items h.2]
    rfl

theorem memberValues?_writtenMembers : ∀ (depth : Nat) (members : List (String × Json)),
    KeptMembers depth members →
    Syntax.memberValues? depth (membersToSyntax (writtenMembers members)) =
      some (sortedMembers members)
  | depth, [], _ => by cases depth <;> rfl
  | depth, (key, value) :: members, h => by
    rw [writtenMembers, membersToSyntax, Syntax.memberValues?, value?_written depth value h.1,
      memberValues?_writtenMembers depth members h.2]
    rfl

end

/-- The one-line text of a value that is kept is read as this value with its members sorted. -/
theorem parse?_compact {v : Json} (h : v.Kept Syntax.depthLimit) :
    parse? v.compact = some v.sorted := by
  rw [parse?, Syntax.parse?_compact_eq, Option.bind_some, value?_written _ v h]

end Json

/-- If something is taken from what was written for each value, then so it is for the list. -/
theorem mapM_map_eq_some {β γ δ : Type} {read : γ → Option δ} {write : β → γ} {g : β → δ}
    {xs : List β} (h : ∀ x ∈ xs, read (write x) = some (g x)) :
    (xs.map write).mapM read = some (xs.map g) := by
  induction xs with
  | nil => rfl
  | cons x rest ih =>
    obtain ⟨hx, hrest⟩ := List.forall_mem_cons.mp h
    rw [List.map_cons, List.mapM_cons, hx, ih hrest]
    rfl

namespace Fields

open Dictionary (lookup_of_mem)

/-- Does a field hold a tree? -/
def Holds (fields : Fields) (name : String) (tree : Syntax) : Prop :=
  fields.slots.lookup name = some tree

theorem Holds.required {β : Type} {fields : Fields} {name : String} {tree : Syntax}
    (h : fields.Holds name tree) (read : Reader β) : fields.required name read = read tree := by
  rw [Fields.required, h, Option.bind_some]

theorem Holds.withDefault {β : Type} {fields : Fields} {name : String} {tree : Syntax}
    (h : fields.Holds name tree) (default : β) (read : Reader β) :
    fields.withDefault name default read = read tree := by
  rw [Fields.withDefault, h]

section

variable {fields : Fields} {tree : Syntax} {β γ : Type}

theorem bind_read? {names : List String} (h : read? names tree = some fields)
    (next : Fields → Option γ) : (read? names tree >>= next) = next fields := by
  rw [h]
  rfl

variable {name : String} {read : Reader β} {x : β}

theorem Holds.bind_required (h : fields.Holds name tree) (hx : read tree = some x)
    (next : β → Option γ) : (fields.required name read >>= next) = next x := by
  rw [h.required, hx]
  rfl

theorem Holds.bind_withDefault (h : fields.Holds name tree) (hx : read tree = some x) (default : β)
    (next : β → Option γ) : (fields.withDefault name default read >>= next) = next x := by
  rw [h.withDefault, hx]
  rfl

theorem Holds.bind_nullable {x : Option β} (h : fields.Holds name tree)
    (hx : Reader.nullable read tree = some x) (next : Option β → Option γ) :
    (fields.nullable name read >>= next) = next x := by
  have hfield : fields.nullable name read = some x := by
    rw [Fields.nullable, h]
    exact hx
  rw [hfield]
  rfl

end

/-- If no key is repeated, a key occurs once at most. -/
theorem length_filter_le_one {β : Type} {slots : List (String × β)}
    (h : (slots.map (·.1)).Nodup) (name : String) : (slots.filter (·.1 == name)).length ≤ 1 := by
  have hcount := List.nodup_iff_count_le_one.mp h name
  rwa [List.count, List.countP_map, List.countP_eq_length_filter] at hcount

/-- If no key is repeated, every field is found. -/
theorem exists_read? (members : List (String × Json)) (h : (members.map (·.1)).Nodup)
    (names : List String) :
    ∃ fields, read? names (Json.toSyntax (.object members)) = some fields ∧
      ∀ m ∈ members, m.1 ∈ names → fields.Holds m.1 m.2.toSyntax := by
  let slots : List (String × Syntax) := members.map fun m => (m.1, Json.toSyntax m.2)
  have hslots : (slots.map (·.1)).Nodup := by rwa [List.map_map]
  have hwrite : Json.membersToSyntax members = slots.map fun slot => (some slot.1, slot.2) := by
    rw [Json.membersToSyntax_eq, List.map_map]
    rfl
  have hknown : ((slots.filter (names.contains ·.1)).map (·.1)).Nodup :=
    hslots.sublist (List.filter_sublist.map _)
  have hunique : (names.all fun name =>
      ((slots.filter (names.contains ·.1)).filter (·.1 == name)).length ≤ 1) = true :=
    List.all_eq_true.mpr fun name _ => decide_eq_true (length_filter_le_one hknown name)
  have hnamed : named? names (Json.membersToSyntax members) =
      some (slots.filter (names.contains ·.1)) := by
    rw [hwrite, named?, mapM_map_eq_some (g := id), List.map_id]
    · simp only [Option.bind_eq_bind, Option.bind_some, hunique, if_true]
    · exact fun _ _ => rfl
  refine ⟨⟨slots.filter (names.contains ·.1), false⟩, ?_, fun m hm hname => ?_⟩
  · simp only [Json.toSyntax, read?, hnamed, Option.map_some]
  · have hmem : (m.1, m.2.toSyntax) ∈ slots := List.mem_map_of_mem hm
    exact lookup_of_mem hknown
      (List.mem_filter.mpr ⟨hmem, List.contains_iff_mem.mpr hname⟩)

/-- If no key is repeated, every field is found when the value has been written and read. -/
theorem exists_read?_sorted (members : List (String × Json)) (h : (members.map (·.1)).Nodup)
    (names : List String) :
    ∃ fields, read? names (Json.sorted (.object members)).toSyntax = some fields ∧
      ∀ m ∈ members, m.1 ∈ names → fields.Holds m.1 m.2.sorted.toSyntax := by
  have hsorted : ((Json.sortedMembers members).map (·.1)).Nodup := by
    rwa [Json.sortedMembers_eq, List.map_map]
  obtain ⟨fields, hread, hfields⟩ :=
    exists_read? _ (Dictionary.nodup_keys (.ofList (Json.sortedMembers members))) names
  refine ⟨fields, hread, fun m hm hname => ?_⟩
  have hmem : (m.1, m.2.sorted) ∈ Json.sortedMembers members := by
    rw [Json.sortedMembers_eq]
    exact List.mem_map_of_mem hm
  have hfound : (Dictionary.ofList (Json.sortedMembers members)).get? m.1 = some m.2.sorted := by
    rw [Dictionary.get?_ofList hsorted, lookup_of_mem hsorted hmem]
  exact hfields (m.1, m.2.sorted) (Dictionary.mem_entries.mpr hfound) hname

end Fields

namespace Reader

/-- A list is read back if each of its values is. -/
theorem list_sorted {β : Type} {read : Reader β} {write : β → Json} {xs : List β}
    (h : ∀ x ∈ xs, read (write x).sorted.toSyntax = some x) :
    list read (Json.sorted (.array (xs.map write))).toSyntax = some xs := by
  rw [Json.sorted, Json.toSyntax, list, Json.itemsToSyntax_eq, Json.sortedItems_eq, List.map_map,
    List.map_map]
  exact (mapM_map_eq_some h).trans (congrArg some (List.map_id xs))

/-- Values that are kept are read back as they are. -/
theorem list_value?_written {depth : Nat} {items : List Json} (h : Json.KeptItems depth items) :
    list (Syntax.value? depth) (Json.toSyntax (.array (Json.writtenItems items))) =
      some (items.map Json.sorted) := by
  rw [Json.toSyntax, list, Json.itemsToSyntax_eq, Json.writtenItems_eq, List.map_map]
  exact mapM_map_eq_some fun item hitem =>
    Json.value?_written depth item (Json.keptItems_iff.mp h item hitem)

@[simp] theorem text_sorted (s : String) : text (Json.sorted (.string s)).toSyntax = some s := rfl

@[simp] theorem bool_sorted (b : Bool) : bool (Json.sorted (.bool b)).toSyntax = some b := rfl

theorem natBelow_integer {bound n : Nat} (h : n < bound) :
    natBelow bound (.integer n) = some n := by
  simp [natBelow, h]

theorem nat_sorted {n : Nat} (h : n < 18446744073709551616) :
    nat (Json.sorted (.integer n)).toSyntax = some n :=
  natBelow_integer h

theorem intWithin_integer {bound : Nat} {n : Int} (hlow : -bound ≤ n) (hhigh : n < bound) :
    intWithin bound (.integer n) = some n := by
  simp [intWithin, hlow, hhigh]

end Reader

/-- Does the decimal of a number, read from its text, have the same shortest form, and is it read as
the number? -/
structure Scalar.ReadsBack {α : Type} [Scalar α] [Recorded α] (x : α) : Prop where
  decimal : Json.ofDecimal? (Recorded.decimal x).written = some (.decimal (Recorded.decimal x))
  value : Scalar.ofNumeral? (.finite (Recorded.decimal x)) = some x

theorem Json.ofDecimal?_eq_some {d e : Decimal} :
    ofDecimal? d = some (.decimal e) ↔
      (Binary64.ofDecimal d).isFinite ∧ Recorded.decimal (Binary64.ofDecimal d) = e := by
  simp [ofDecimal?]

instance Scalar.decidableReadsBack (x : Float) : Decidable (ReadsBack x) :=
  decidable_of_iff
    (((Binary64.ofDecimal (Recorded.decimal x).written).isFinite ∧
        Recorded.decimal (Binary64.ofDecimal (Recorded.decimal x).written) = Recorded.decimal x) ∧
      Binary64.ofDecimal (Recorded.decimal x) = x)
    ⟨fun h => ⟨Json.ofDecimal?_eq_some.mpr h.1, congrArg some h.2⟩,
      fun h => ⟨Json.ofDecimal?_eq_some.mp h.decimal, Option.some.inj h.value⟩⟩

section

variable {α : Type} [Scalar α] [Recorded α] {x : α}

/-- A number that reads back is kept. What is not finite is written as `null`. -/
theorem Json.kept_ofScalar (h : Scalar.isFinite x → Scalar.ReadsBack x) (depth : Nat) :
    (ofScalar x).Kept depth := by
  rw [ofScalar]
  split_ifs with hx
  · cases depth <;> exact (h hx).decimal
  · cases depth <;> trivial

/-- A finite number that reads back is read as it was written. -/
theorem Reader.scalar_ofScalar (hx : Scalar.isFinite x) (h : Scalar.ReadsBack x) :
    scalar (Json.ofScalar x).sorted.toSyntax = some x := by
  rw [Json.ofScalar, if_pos hx]
  show (Scalar.ofNumeral? (.finite (Recorded.decimal x))).filter Scalar.isFinite = some x
  rw [h.value, Option.filter_some, if_pos hx]

end

end ContextAdvisor
