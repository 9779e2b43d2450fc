/-!
# Dictionaries with text keys

A dictionary is a list of entries in strictly ascending order of their keys. The order makes the
list the only one with its entries, so two dictionaries that answer every look-up alike are equal.
-/
namespace ContextAdvisor

/-- Are the keys of the entries strictly ascending? -/
def Ascending {α : Type} (entries : List (String × α)) : Prop :=
  entries.Pairwise fun p q => p.1 < q.1

/-- A finite map from texts. -/
structure Dictionary (α : Type) where
  entries : List (String × α)
  ascending : Ascending entries

namespace Dictionary

variable {α β : Type}

/-- Puts an entry into its place, replacing one with the same key. -/
def insertEntry (key : String) (value : α) : List (String × α) → List (String × α)
  | [] => [(key, value)]
  | entry :: rest =>
    if key < entry.1 then (key, value) :: entry :: rest
    else if key = entry.1 then (key, value) :: rest
    else entry :: insertEntry key value rest

theorem fst_mem_insertEntry {key : String} {value : α} {entries : List (String × α)}
    {e : String × α} (h : e ∈ insertEntry key value entries) : e = (key, value) ∨ e ∈ entries := by
  induction entries with
  | nil => simpa [insertEntry] using h
  | cons entry rest ih =>
    unfold insertEntry at h
    split at h
    · simpa using h
    · split at h
      · rcases List.mem_cons.1 h with h | h
        · exact .inl h
        · exact .inr (List.mem_cons_of_mem _ h)
      · rcases List.mem_cons.1 h with h | h
        · exact .inr (h ▸ List.mem_cons_self)
        · exact (ih h).imp id (List.mem_cons_of_mem _)

theorem ascending_insertEntry (key : String) (value : α) {entries : List (String × α)}
    (h : Ascending entries) : Ascending (insertEntry key value entries) := by
  induction entries with
  | nil => simp [insertEntry, Ascending]
  | cons entry rest ih =>
    obtain ⟨first, tail⟩ := List.pairwise_cons.1 h
    unfold insertEntry
    split
    · next below =>
      refine List.pairwise_cons.2 ⟨fun e he => ?_, h⟩
      rcases List.mem_cons.1 he with rfl | he
      · exact below
      · exact String.lt_trans below (first e he)
    · next above =>
      split
      · next same => exact List.pairwise_cons.2 ⟨fun e he => same ▸ first e he, tail⟩
      · next other =>
        refine List.pairwise_cons.2 ⟨fun e he => ?_, ih tail⟩
        rcases fst_mem_insertEntry he with rfl | he
        · have := String.not_lt.1 above
          exact String.not_le.1 fun h' => other (String.le_antisymm h' this)
        · exact first e he

/-- The dictionary without entries. -/
def empty : Dictionary α := ⟨[], List.Pairwise.nil⟩

instance : EmptyCollection (Dictionary α) := ⟨empty⟩

instance : Inhabited (Dictionary α) := ⟨empty⟩

instance [BEq α] : BEq (Dictionary α) := ⟨fun a b => a.entries == b.entries⟩

/-- The value of a key. -/
def get? (d : Dictionary α) (key : String) : Option α := d.entries.lookup key

/-- Has the key a value? -/
def contains (d : Dictionary α) (key : String) : Bool := (d.get? key).isSome

/-- Sets the value of a key. -/
def insert (d : Dictionary α) (key : String) (value : α) : Dictionary α :=
  ⟨insertEntry key value d.entries, ascending_insertEntry key value d.ascending⟩

/-- Removes a key and its value. -/
def erase (d : Dictionary α) (key : String) : Dictionary α :=
  ⟨d.entries.filter (·.1 != key), d.ascending.filter _⟩

/-- The entries of a list, a later one replacing an earlier one with the same key. -/
def ofList (entries : List (String × α)) : Dictionary α :=
  entries.foldl (fun d e => d.insert e.1 e.2) empty

/-- The keys in ascending order. -/
def keys (d : Dictionary α) : List String := d.entries.map (·.1)

/-- The number of entries. -/
def size (d : Dictionary α) : Nat := d.entries.length

/-- Has the dictionary no entries? -/
def isEmpty (d : Dictionary α) : Bool := d.entries.isEmpty

/-- Applies a function to every value. -/
def map (f : α → β) (d : Dictionary α) : Dictionary β :=
  ⟨d.entries.map fun e => (e.1, f e.2), by
    rw [Ascending, List.pairwise_map]; exact d.ascending⟩

end Dictionary

/-- A set of names is a dictionary whose values carry nothing. -/
abbrev NameSet := Dictionary Unit

/-- What is known about the situation: a text for each context key. -/
abbrev Context := Dictionary String

end ContextAdvisor
