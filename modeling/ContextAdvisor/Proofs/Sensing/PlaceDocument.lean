import ContextAdvisor.Proofs.Json.Reading
import ContextAdvisor.Sensing.Places

/-!
# Place documents are read back

Whatever is known about places is read from the text that is written for it, as long as the numbers
have their usual ranges: hours and visits in 32 bits, times in 64 bits.
-/
namespace ContextAdvisor

namespace PlaceProfile

/-- Do the numbers have the ranges of a document? -/
structure Fits (profile : PlaceProfile) : Prop where
  hours : ∀ hour ∈ profile.typicalHours, hour < 4294967296
  lastSeen : Text.inWord profile.lastSeen
  visits : profile.visits < 4294967296

instance (profile : PlaceProfile) : Decidable profile.Fits :=
  decidable_of_iff ((∀ hour ∈ profile.typicalHours, hour < 4294967296) ∧
      Text.inWord profile.lastSeen ∧ profile.visits < 4294967296)
    ⟨fun h => ⟨h.1, h.2.1, h.2.2⟩, fun h => ⟨h.hours, h.lastSeen, h.visits⟩⟩

theorem read?_namesJson (names : NameSet) :
    Reader.nameSet (namesJson names).written.toSyntax = some names := by
  have hkeys : Reader.list Reader.text (namesJson names).written.toSyntax = some names.keys :=
    Reader.list_written fun _ _ => rfl
  have hentries : names.keys.map (·, ()) = names.entries := by
    rw [Dictionary.keys, List.map_map]
    exact List.map_id _
  rw [Reader.nameSet, hkeys, Option.map_some, hentries, Dictionary.ofList_entries]

theorem read?_toJson {profile : PlaceProfile} (h : profile.Fits) :
    read? profile.toJson.written.toSyntax = some profile := by
  obtain ⟨fields, hread, hfields⟩ := Fields.exists_read?_written
    [("wifi", namesJson profile.wifi), ("bluetooth", namesJson profile.bluetooth),
      ("typicalHours", .array (profile.typicalHours.map fun hour : Nat => .integer hour)),
      ("lastSeenMs", .integer profile.lastSeen), ("visits", .integer profile.visits)]
    ["wifi", "bluetooth", "typicalHours", "lastSeenMs", "visits"] rfl (by decide)
  simp only [List.forall_mem_cons] at hfields
  obtain ⟨hwifi, hbluetooth, hhours, hseen, hvisits, -⟩ := hfields
  have hlist : Reader.list (Reader.natBelow 4294967296) (Json.written
      (.array (profile.typicalHours.map fun hour : Nat => .integer hour))).toSyntax =
        some profile.typicalHours :=
    Reader.list_written fun hour hm => Reader.natBelow_written (h.hours hour hm)
  rw [read?, toJson, Fields.bind_read? hread, hwifi.bind_withDefault (read?_namesJson _),
    hbluetooth.bind_withDefault (read?_namesJson _), hhours.bind_withDefault hlist,
    hseen.bind_withDefault (Reader.int_written h.lastSeen),
    hvisits.bind_withDefault (Reader.natBelow_written h.visits)]
  rfl

end PlaceProfile

/-- The text of some places is read as these places. -/
theorem Places.importText_exportText {places : Places}
    (h : ∀ e ∈ places.entries, e.2.Fits) : importText places.exportText = .ok places := by
  have hread : (Reader.dictionary PlaceProfile.read?) places.toJson.written.toSyntax =
      some places :=
    Reader.dictionary_written (List.Perm.refl _) fun e he => PlaceProfile.read?_toJson (h e he)
  rw [importText, exportText, Syntax.parse?_compact_eq, Option.bind_some, hread]

end ContextAdvisor
