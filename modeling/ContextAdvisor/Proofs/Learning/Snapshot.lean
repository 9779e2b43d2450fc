import ContextAdvisor.Learning.Snapshot
import ContextAdvisor.Proofs.Json.Records

/-!
# Snapshots are read back

The record of an arm holds everything but the inverse of its design matrix. Where this inverse is
the one that the engine computes anyway, the arm that is read is the arm that was written, and no
record of a snapshot is left out. A learner with another strategy refuses the snapshot before it
looks at the records.
-/
namespace ContextAdvisor

variable {α : Type} [Scalar α]

/-- Is every stored inverse the one that a mode computes? -/
def Arms.Cached (mode : Inversion) : Arms α → Prop
  | averages _ => True
  | linear arms => ∀ id arm, arms.get? id = some arm → arm.inverse = arm.a.inverseBy mode

/-- Does a snapshot hold the arm? The pulls have to fit a word, and the total has to be finite. -/
structure AverageArm.Storable (arm : AverageArm α) : Prop where
  pulls : arm.pulls < 18446744073709551616
  total : Scalar.isFinite arm.total

/-- Does a snapshot hold the arm? The pulls have to fit a word, and the parameters have to be
finite. -/
structure LinearArm.Storable {d : Nat} (arm : LinearArm α d) : Prop where
  pulls : arm.pulls < 18446744073709551616
  a : ∀ row ∈ arm.a.toList, ∀ x ∈ row.toList, Scalar.isFinite x
  b : ∀ x ∈ arm.b.toList, Scalar.isFinite x

instance AverageArm.decidableStorable (arm : AverageArm α) : Decidable arm.Storable :=
  decidable_of_iff (arm.pulls < 18446744073709551616 ∧ Scalar.isFinite arm.total)
    ⟨fun h => ⟨h.1, h.2⟩, fun h => ⟨h.pulls, h.total⟩⟩

instance LinearArm.decidableStorable {d : Nat} (arm : LinearArm α d) : Decidable arm.Storable :=
  decidable_of_iff (arm.pulls < 18446744073709551616 ∧
      (∀ row ∈ arm.a.toList, ∀ x ∈ row.toList, Scalar.isFinite x) ∧
      ∀ x ∈ arm.b.toList, Scalar.isFinite x)
    ⟨fun h => ⟨h.1, h.2.1, h.2.2⟩, fun h => ⟨h.pulls, h.a, h.b⟩⟩

namespace Arms

/-- Does a snapshot hold every arm? -/
inductive Storable : Arms α → Prop
  | averages {arms : Dictionary (AverageArm α)}
      (h : ∀ entry ∈ arms.entries, entry.2.Storable) : Storable (.averages arms)
  | linear {arms : Dictionary (LinearArm α featureCount)}
      (h : ∀ entry ∈ arms.entries, entry.2.Storable) : Storable (.linear arms)

instance decidableStorable (table : Arms α) : Decidable table.Storable :=
  match table with
  | averages arms =>
    decidable_of_iff (∀ entry ∈ arms.entries, entry.2.Storable) ⟨.averages, fun (.averages h) => h⟩
  | linear arms =>
    decidable_of_iff (∀ entry ∈ arms.entries, entry.2.Storable) ⟨.linear, fun (.linear h) => h⟩

/-- The average that is written for an arm. -/
def writtenAverage (arm : AverageArm α) : α := if arm.pulls = 0 then 0.0 else arm.average

/-- The scalars that a snapshot holds. -/
def scalars : Arms α → List α
  | averages arms => arms.entries.flatMap fun entry => [writtenAverage entry.2, entry.2.total]
  | linear arms => arms.entries.flatMap fun entry =>
    entry.2.a.toList.flatMap Vector.toList ++ entry.2.b.toList

theorem vector?_toList {β : Type} {n : Nat} (v : Vector β n) : vector? n v.toList = some v := by
  have hlength : v.toList.length = n := by simp
  rw [vector?, dif_pos hlength]
  exact congrArg some (Vector.toArray_inj.mp Array.toArray_toList)

variable [Recorded α]

theorem readAverage?_averageRecord {id : String} {arm : AverageArm α} (h : arm.Storable)
    (ht : Scalar.ReadsBack arm.total) :
    readAverage? (averageRecord id arm).sorted.toSyntax = some (id, arm) := by
  obtain ⟨fields, hread, hfields⟩ := Fields.exists_read?_sorted
    [("avg", Json.ofScalar (writtenAverage arm)), ("id", .string id),
      ("pulls", .integer arm.pulls), ("totalReward", Json.ofScalar arm.total)]
    (show ["avg", "id", "pulls", "totalReward"].Nodup by decide) ["id", "pulls", "totalReward"]
  simp only [List.forall_mem_cons] at hfields
  obtain ⟨-, hid, hpulls, htotal, -⟩ := hfields
  have hnat := Reader.nat_sorted h.pulls
  have hscalar := Reader.scalar_ofScalar h.total ht
  have hrecord : averageRecord id arm = .object [("avg", Json.ofScalar (writtenAverage arm)),
      ("id", .string id), ("pulls", .integer arm.pulls),
      ("totalReward", Json.ofScalar arm.total)] := rfl
  simp [readAverage?, hrecord, hread, (hid (by simp)).required, (hpulls (by simp)).required,
    (htotal (by simp)).required, hnat, hscalar]

theorem list_vectorJson {n : Nat} {v : Vector α n}
    (h : ∀ x ∈ v.toList, Scalar.isFinite x ∧ Scalar.ReadsBack x) :
    Reader.list Reader.scalar (vectorJson v).sorted.toSyntax = some v.toList :=
  Reader.list_sorted fun x hx => Reader.scalar_ofScalar (h x hx).1 (h x hx).2

theorem list_list_vectorJson {m : Square α featureCount}
    (h : ∀ row ∈ m.toList, ∀ x ∈ row.toList, Scalar.isFinite x ∧ Scalar.ReadsBack x) :
    Reader.list (Reader.list Reader.scalar)
      (Json.sorted (.array (m.toList.map vectorJson))).toSyntax =
        some (m.toList.map Vector.toList) := by
  have hrows : m.toList.map vectorJson =
      (m.toList.map Vector.toList).map fun row => .array (row.map Json.ofScalar) := by
    rw [List.map_map]
    rfl
  rw [hrows]
  refine Reader.list_sorted fun xs hxs => ?_
  obtain ⟨row, hrow, rfl⟩ := List.mem_map.mp hxs
  exact list_vectorJson (h row hrow)

theorem readLinear?_linearRecord {mode : Inversion} {id : String}
    {arm : LinearArm α featureCount} (h : arm.Storable) (hc : arm.inverse = arm.a.inverseBy mode)
    (ha : ∀ row ∈ arm.a.toList, ∀ x ∈ row.toList, Scalar.ReadsBack x)
    (hb : ∀ x ∈ arm.b.toList, Scalar.ReadsBack x) :
    readLinear? mode (linearRecord id arm).sorted.toSyntax = some (id, arm) := by
  obtain ⟨fields, hread, hfields⟩ := Fields.exists_read?_sorted
    [("a", .array (arm.a.toList.map vectorJson)), ("b", vectorJson arm.b),
      ("id", .string id), ("pulls", .integer arm.pulls)]
    (show ["a", "b", "id", "pulls"].Nodup by decide) ["id", "pulls", "a", "b"]
  simp only [List.forall_mem_cons] at hfields
  obtain ⟨hfa, hfb, hid, hpulls, -⟩ := hfields
  have hnat := Reader.nat_sorted h.pulls
  have hrows := list_list_vectorJson fun row hrow x hx => ⟨h.a row hrow x hx, ha row hrow x hx⟩
  have hvector := list_vectorJson fun x hx => ⟨h.b x hx, hb x hx⟩
  have hmatrix : (arm.a.toList.map Vector.toList).mapM (vector? featureCount) =
      some arm.a.toList :=
    (mapM_map_eq_some fun row _ => vector?_toList row).trans (congrArg some (List.map_id _))
  have hrecord : linearRecord id arm = .object [("a", .array (arm.a.toList.map vectorJson)),
      ("b", vectorJson arm.b), ("id", .string id), ("pulls", .integer arm.pulls)] := rfl
  simp only [readLinear?, hrecord, hread, (hid (by simp)).required, (hpulls (by simp)).required,
    (hfa (by simp)).required, (hfb (by simp)).required, Reader.text_sorted, hnat, hrows, hvector,
    hmatrix, vector?_toList, Option.bind_eq_bind, Option.bind_some, Option.pure_def,
    LinearArm.ofParts, ← hc]

theorem kept_integer_of_word {n : Nat} (h : n < 18446744073709551616) (depth : Nat) :
    Json.Kept depth (.integer n) := by
  have hword : Json.fitsWord n := by
    simp only [Json.fitsWord, Bool.and_eq_true, decide_eq_true_eq]
    omega
  cases depth <;> exact hword

theorem kept_averageRecord {id : String} {arm : AverageArm α} (h : arm.Storable)
    (hr : ∀ x ∈ [writtenAverage arm, arm.total], Scalar.isFinite x → Scalar.ReadsBack x)
    (depth : Nat) : (averageRecord id arm).Kept (depth + 1) := by
  refine Json.keptMembers_iff.mpr fun m hm => ?_
  simp only [List.mem_cons, List.not_mem_nil, or_false] at hm
  rcases hm with rfl | rfl | rfl | rfl
  · exact Json.kept_ofScalar (hr (writtenAverage arm) (by simp)) depth
  · cases depth <;> trivial
  · exact kept_integer_of_word h.pulls depth
  · exact Json.kept_ofScalar (hr arm.total (by simp)) depth

theorem kept_vectorJson {n : Nat} {v : Vector α n}
    (hr : ∀ x ∈ v.toList, Scalar.isFinite x → Scalar.ReadsBack x) (depth : Nat) :
    (vectorJson v).Kept (depth + 1) := by
  refine Json.keptItems_iff.mpr fun item hitem => ?_
  obtain ⟨x, hx, rfl⟩ := List.mem_map.mp hitem
  exact Json.kept_ofScalar (hr x hx) depth

theorem kept_linearRecord {id : String} {arm : LinearArm α featureCount} (h : arm.Storable)
    (hr : ∀ x ∈ arm.a.toList.flatMap Vector.toList ++ arm.b.toList,
      Scalar.isFinite x → Scalar.ReadsBack x) (depth : Nat) :
    (linearRecord id arm).Kept (depth + 3) := by
  have hrows : Json.Kept (depth + 2) (.array (arm.a.toList.map vectorJson)) := by
    refine Json.keptItems_iff.mpr fun item hitem => ?_
    obtain ⟨row, hrow, rfl⟩ := List.mem_map.mp hitem
    refine kept_vectorJson (fun x hx => hr x ?_) depth
    exact List.mem_append_left _ (List.mem_flatMap.mpr ⟨row, hrow, hx⟩)
  refine Json.keptMembers_iff.mpr fun m hm => ?_
  simp only [List.mem_cons, List.not_mem_nil, or_false] at hm
  rcases hm with rfl | rfl | rfl | rfl
  · exact hrows
  · exact kept_vectorJson (fun x hx => hr x (List.mem_append_right _ hx)) (depth + 1)
  · trivial
  · exact kept_integer_of_word h.pulls (depth + 2)

variable {table : Arms α}

theorem keptItems_records (h : table.Storable)
    (hr : ∀ x ∈ table.scalars, Scalar.isFinite x → Scalar.ReadsBack x) (depth : Nat) :
    Json.KeptItems (depth + 3) table.records := by
  refine Json.keptItems_iff.mpr fun item hitem => ?_
  cases h with
  | averages h =>
    obtain ⟨entry, hentry, rfl⟩ := List.mem_map.mp hitem
    exact kept_averageRecord (h entry hentry)
      (fun x hx => hr x (List.mem_flatMap.mpr ⟨entry, hentry, hx⟩)) (depth + 2)
  | linear h =>
    obtain ⟨entry, hentry, rfl⟩ := List.mem_map.mp hitem
    exact kept_linearRecord (h entry hentry)
      (fun x hx => hr x (List.mem_flatMap.mpr ⟨entry, hentry, hx⟩)) depth

/-- The snapshot is read, with all its records. -/
theorem readHeader?_exportText (h : table.Storable)
    (hr : ∀ x ∈ table.scalars, Scalar.isFinite x → Scalar.ReadsBack x) :
    (Syntax.parse? table.exportText).bind readHeader? = some ⟨snapshotVersion,
      table.strategy.name, featureCount, table.records.map Json.sorted⟩ := by
  have hwritten : table.toJson.written = .object [("version", .integer snapshotVersion),
      ("strategy", .string table.strategy.name), ("dim", .integer featureCount),
      ("arms", .array (Json.writtenItems table.records))] := rfl
  obtain ⟨fields, hread, hfields⟩ := Fields.exists_read?
    [("version", .integer snapshotVersion),
      ("strategy", .string table.strategy.name), ("dim", .integer featureCount),
      ("arms", .array (Json.writtenItems table.records))]
    (show ["version", "strategy", "dim", "arms"].Nodup by decide)
    ["version", "strategy", "dim", "arms"]
  simp only [List.forall_mem_cons] at hfields
  obtain ⟨hversion, hstrategy, hdim, harms, -⟩ := hfields
  have hnumber : Reader.natBelow 65536 (Json.toSyntax (.integer snapshotVersion)) =
      some snapshotVersion := Reader.natBelow_integer (by decide)
  have hname : Reader.text (Json.toSyntax (.string table.strategy.name)) =
      some table.strategy.name := rfl
  have hcount : Reader.nat (Json.toSyntax (.integer featureCount)) = some featureCount :=
    Reader.natBelow_integer (by decide)
  have hlist := Reader.list_value?_written (keptItems_records h hr (Syntax.depthLimit - 5))
  rw [exportText, Syntax.parse?_compact_eq, Option.bind_some, hwritten]
  simp only [readHeader?, hread, (hversion (by simp)).required, (hstrategy (by simp)).required,
    (hdim (by simp)).required, (harms (by simp)).required, hnumber, hname, hcount,
    Option.bind_eq_bind, Option.bind_some, Option.pure_def]
  rw [show Syntax.depthLimit - 2 = Syntax.depthLimit - 5 + 3 by decide, hlist]
  rfl

/-- If every record is read as the entry it was written for, then the dictionary comes back. -/
theorem dictionary_eq {β : Type} {arms : Dictionary β} {record : String × β → Json}
    {read : Reader (String × β)}
    (h : ∀ entry ∈ arms.entries, read (record entry).sorted.toSyntax = some entry)
    {header : Header} (hh : header.arms = (arms.entries.map record).map Json.sorted) :
    header.dictionary read = arms := by
  have hentries : header.arms.filterMap (fun arm => read arm.toSyntax) = arms.entries := by
    rw [hh, List.map_map, List.filterMap_map]
    exact (List.filterMap_congr h).trans List.filterMap_some
  rw [Header.dictionary, hentries, Dictionary.ofList_entries]

/-- A learner with another strategy refuses the snapshot. -/
theorem importText_of_ne (h : table.Storable)
    (hr : ∀ x ∈ table.scalars, Scalar.isFinite x → Scalar.ReadsBack x) {other : Strategy}
    (hs : other ≠ table.strategy) (mode : Inversion) :
    importText other mode table.exportText =
      (.error (.strategyMismatch other.name table.strategy.name) : Except _ (Arms α)) := by
  have hname : table.strategy.name ≠ other.name := by
    cases other <;> cases hstrategy : table.strategy <;> simp_all [Strategy.name]
  rw [importText, readHeader?_exportText h hr]
  simp only [ofHeader, lt_irrefl, if_false, if_pos hname]

/-- The arms of a snapshot are those that were written. -/
theorem importText_exportText (h : table.Storable)
    (hr : ∀ x ∈ table.scalars, Scalar.isFinite x → Scalar.ReadsBack x) {mode : Inversion}
    (hc : table.Cached mode) : importText table.strategy mode table.exportText = .ok table := by
  rw [importText, readHeader?_exportText h hr]
  simp only [ofHeader, lt_irrefl, if_false, ne_eq, not_true_eq_false]
  cases h with
  | @averages arms h =>
    have hread : ∀ entry ∈ arms.entries,
        readAverage? (averageRecord entry.1 entry.2).sorted.toSyntax = some entry := by
      intro entry hentry
      have htotal : entry.2.total ∈ scalars (.averages arms) :=
        List.mem_flatMap.mpr ⟨entry, hentry, by simp⟩
      exact readAverage?_averageRecord (h entry hentry) (hr _ htotal (h entry hentry).total)
    exact congrArg (Except.ok ∘ averages) (dictionary_eq hread rfl)
  | @linear arms h =>
    have hread : ∀ entry ∈ arms.entries,
        readLinear? mode (linearRecord entry.1 entry.2).sorted.toSyntax = some entry := by
      intro entry hentry
      have hstorable := h entry hentry
      have hfound : arms.get? entry.1 = some entry.2 := Dictionary.get?_of_mem hentry
      have hscalars : ∀ x ∈ entry.2.a.toList.flatMap Vector.toList ++ entry.2.b.toList,
          x ∈ scalars (.linear arms) := fun x hx => List.mem_flatMap.mpr ⟨entry, hentry, hx⟩
      refine readLinear?_linearRecord hstorable (hc _ _ hfound) (fun row hrow x hx => ?_)
        fun x hx => ?_
      · have hmem := List.mem_append_left entry.2.b.toList (List.mem_flatMap.mpr ⟨row, hrow, hx⟩)
        exact hr x (hscalars x hmem) (hstorable.a row hrow x hx)
      · exact hr x (hscalars x (List.mem_append_right _ hx)) (hstorable.b x hx)
    exact congrArg (Except.ok ∘ linear) (dictionary_eq hread rfl)

end Arms

end ContextAdvisor
