import ContextAdvisor.Proofs.Json.Decimals
import ContextAdvisor.Proofs.Json.Records
import ContextAdvisor.Text.Words

/-!
# Records read from their own text

What is read from the text of a record is the record, if each of its fields is read from what was
written for it. Integers have to fit the word that the reader takes, and a number is read back as
far as its text keeps it; the order of entries does not count.
-/
namespace ContextAdvisor

/-- A dictionary is made from its entries in any order. -/
theorem Dictionary.ofList_of_perm {β : Type} {d : Dictionary β} {entries : List (String × β)}
    (h : entries.Perm d.entries) : ofList entries = d := by
  have hkeys : (entries.map (·.1)).Nodup := (h.map _).nodup_iff.mpr d.nodup_keys
  refine ext fun k => Option.ext fun v => ?_
  rw [get?_ofList hkeys, ← mem_entries, ← h.mem_iff]
  exact ⟨mem_of_lookup, fun hmem => lookup_of_mem hkeys hmem⟩

namespace Fields

/-- Each field of a record without repeated keys holds what was written for it. -/
theorem exists_read?_written (members : List (String × Json)) (names : List String)
    (hnames : members.map (·.1) = names) (h : names.Nodup) :
    ∃ fields, read? names (Json.written (.object members)).toSyntax = some fields ∧
      ∀ m ∈ members, fields.Holds m.1 m.2.written.toSyntax := by
  have hkeys : (Json.writtenMembers members).map (·.1) = names := by
    rw [Json.writtenMembers_eq, List.map_map]
    exact hnames
  obtain ⟨fields, hread, hfields⟩ := exists_read? (Json.writtenMembers members) (hkeys ▸ h) names
  refine ⟨fields, hread, fun m hm => ?_⟩
  have hwritten : (m.1, m.2.written) ∈ Json.writtenMembers members := by
    rw [Json.writtenMembers_eq]
    exact List.mem_map.mpr ⟨m, hm, rfl⟩
  have hname : m.1 ∈ names := hnames ▸ List.mem_map_of_mem hm
  exact hfields _ hwritten hname

end Fields

namespace Reader

variable {β : Type} {read : Reader β} {write : β → Json}

theorem natBelow_written {bound n : Nat} (h : n < bound) :
    natBelow bound (Json.written (.integer n)).toSyntax = some n := natBelow_integer h

theorem nat_written {n : Nat} (h : n < 18446744073709551616) :
    nat (Json.written (.integer n)).toSyntax = some n := natBelow_written h

theorem intWithin_written {bound : Nat} {n : Int} (hlow : -bound ≤ n) (hhigh : n < bound) :
    intWithin bound (Json.written (.integer n)).toSyntax = some n := intWithin_integer hlow hhigh

theorem int_written {n : Int} (h : Text.inWord n) :
    int (Json.written (.integer n)).toSyntax = some n := by
  simp only [Text.inWord, Bool.and_eq_true, decide_eq_true_eq] at h
  exact intWithin_written h.1 (by omega)

/-- An optional value is read back if it is never written as `null`. -/
theorem nullable_written {x : Option β} (hnull : ∀ y, write y ≠ .null)
    (h : ∀ y ∈ x, read (write y).written.toSyntax = some y) :
    nullable read (Json.ofOption write x).written.toSyntax = some x := by
  cases x with
  | none => rfl
  | some y =>
    have hread := h y rfl
    rw [Json.ofOption]
    cases hwrite : write y with
    | null => exact absurd hwrite (hnull y)
    | _ =>
      rw [hwrite] at hread
      exact congrArg (Option.map some) hread

theorem list_written {xs : List β} (h : ∀ x ∈ xs, read (write x).written.toSyntax = some x) :
    list read (Json.written (.array (xs.map write))).toSyntax = some xs := by
  rw [Json.written, Json.toSyntax, list, Json.itemsToSyntax_eq, Json.writtenItems_eq, List.map_map,
    List.map_map]
  exact (mapM_map_eq_some h).trans (congrArg some (List.map_id xs))

/-- The entries of a dictionary may be written in any order. -/
theorem dictionary_written {d : Dictionary β} {entries : List (String × β)}
    (horder : entries.Perm d.entries)
    (h : ∀ e ∈ d.entries, read (write e.2).written.toSyntax = some e.2) :
    dictionary read (Json.written (.object (entries.map fun e => (e.1, write e.2)))).toSyntax =
      some d := by
  rw [Json.written, Json.toSyntax, dictionary, Json.membersToSyntax_eq, Json.writtenMembers_eq,
    List.map_map, List.map_map, mapM_map_eq_some (g := id)]
  · rw [List.map_id, ← Dictionary.ofList_of_perm horder]
    rfl
  · intro e he
    simp [h e (horder.mem_iff.mp he)]

end Reader

/-- Is the text of the number read as this number? -/
def Scalar.Legible {α : Type} [Scalar α] [Recorded α] (x : α) : Prop :=
  (Syntax.parse? (Json.ofScalar x).compact).bind Reader.scalar = some x

section

variable {α : Type} [Scalar α] [Recorded α] {x : α}

theorem Scalar.legible_iff :
    Legible x ↔ Reader.scalar (Json.ofScalar x).written.toSyntax = some x := by
  rw [Legible, Syntax.parse?_compact_eq, Option.bind_some]

end

/-- A finite binary64 number is read from its text if it is the nearest to the decimal in the
text. -/
theorem Scalar.legible_of_float {x : Float} (hx : x.isFinite)
    (h : Binary64.ofDecimal (Recorded.decimal x).written = x) : Scalar.Legible x := by
  have hfinite : Scalar.isFinite x = true := hx
  rw [legible_iff, Json.ofScalar, if_pos hfinite]
  show (some (Binary64.ofDecimal (Recorded.decimal x).written)).filter Scalar.isFinite = some x
  rw [h, Option.filter_some, if_pos hfinite]

end ContextAdvisor
