import ContextAdvisor.Dictionary.Lemmas
import ContextAdvisor.Sensing.Places
import Mathlib.Tactic

/-!
# Places and the log of visits

What is known about a place follows from the visits to it since it was last cleared: their names,
their number, and the time and hour of the last one. The typical hours are some of their hours, each
once, and the hour of the last visit is always among them: a new hour is put at the end, and the
oldest one gives way only after that.
-/
namespace ContextAdvisor

/-- What is noted when a place is visited. -/
structure PlaceVisit where
  wifi : Option String
  bluetooth : Option String
  time : Instant
  hour : Nat

/-- A use of the known places that may change them. -/
inductive PlaceUse where
  | learn (place : String) (visit : PlaceVisit)
  | clear (place : String)
  | clearAll

/-- The visits to a place since it was last cleared, oldest first. -/
def PlaceUse.visitsTo (place : String) (uses : List PlaceUse) : List PlaceVisit :=
  uses.foldl (fun visits use => match use with
    | learn p visit => if place = p then visits ++ [visit] else visits
    | clear p => if place = p then [] else visits
    | clearAll => []) []

theorem PlaceUse.visitsTo_concat (place : String) (uses : List PlaceUse) (use : PlaceUse) :
    visitsTo place (uses ++ [use]) = match use with
      | learn p visit =>
        if place = p then visitsTo place uses ++ [visit] else visitsTo place uses
      | clear p => if place = p then [] else visitsTo place uses
      | clearAll => [] := by
  rw [visitsTo, List.foldl_append]
  rfl

/-- Is the name, which must not be empty, one that some visit noted? -/
def PlaceVisit.Noted (noted : PlaceVisit → Option String) (visits : List PlaceVisit)
    (name : String) : Prop :=
  name ≠ "" ∧ ∃ visit ∈ visits, noted visit = some name

theorem PlaceVisit.noted_concat {noted : PlaceVisit → Option String} {visits : List PlaceVisit}
    {visit : PlaceVisit} {name : String} :
    Noted noted (visits ++ [visit]) name ↔
      Noted noted visits name ∨ name ≠ "" ∧ noted visit = some name := by
  simp only [Noted, List.mem_append, List.mem_singleton, or_and_right, exists_or, exists_eq_left,
    and_or_left]

namespace PlaceProfile

theorem contains_addName {names : NameSet} {given : Option String} {name : String} :
    (addName names given).2.contains name = true ↔
      names.contains name = true ∨ name ≠ "" ∧ given = some name := by
  cases given with
  | none => simp [addName]
  | some word =>
    simp only [addName, Bool.or_eq_true, String.isEmpty_iff]
    split_ifs with h
    · refine ⟨.inl, ?_⟩
      rintro (hname | ⟨hne, hgiven⟩)
      · exact hname
      · obtain rfl := Option.some.inj hgiven
        exact h.resolve_left hne
    · have hword : word ≠ "" := fun he => h (.inl he)
      simp only [Dictionary.contains, Dictionary.get?_insert, Option.some.injEq]
      split_ifs with hname
      · simp [hname, hword]
      · simp [Ne.symm hname]

/-- The flag is set exactly when a name was added. -/
theorem addName_fst {names : NameSet} {given : Option String} :
    (addName names given).1 = true ↔ ∃ name, (addName names given).2.contains name = true ∧
      names.contains name = false := by
  simp only [contains_addName]
  cases given with
  | none => simp [addName]
  | some word =>
    simp only [addName, Bool.or_eq_true, String.isEmpty_iff]
    split_ifs with h
    · refine ⟨False.elim, ?_⟩
      rintro ⟨name, hname | ⟨hne, hgiven⟩, hnew⟩
      · simp [hname] at hnew
      · obtain rfl := Option.some.inj hgiven
        simp [h.resolve_left hne] at hnew
    · obtain ⟨hword, hnew⟩ := not_or.mp h
      exact ⟨fun _ => ⟨word, .inr ⟨hword, rfl⟩, Bool.eq_false_of_not_eq_true hnew⟩, fun _ => rfl⟩

theorem mem_addHour_self (hours : List Nat) (hour : Nat) : hour ∈ addHour hours hour := by
  simp only [addHour, List.contains_iff_mem]
  split_ifs with hmem hlong
  · exact hmem
  · -- the list is longer than one, so what gives way is not the hour at its end
    rw [List.length_append, List.length_singleton, maxTypicalHours] at hlong
    obtain ⟨first, rest, rfl⟩ := List.exists_cons_of_length_pos (l := hours) (by omega)
    simp
  · simp

theorem mem_of_mem_addHour {hours : List Nat} {hour h : Nat} (hm : h ∈ addHour hours hour) :
    h = hour ∨ h ∈ hours := by
  simp only [addHour, List.contains_iff_mem] at hm
  split_ifs at hm
  · exact .inr hm
  · have hall := List.mem_of_mem_tail hm
    simpa [or_comm] using hall
  · simpa [or_comm] using hm

theorem nodup_addHour {hours : List Nat} (h : hours.Nodup) (hour : Nat) :
    (addHour hours hour).Nodup := by
  simp only [addHour, List.contains_iff_mem]
  split_ifs with hmem
  · exact h
  · rw [← List.concat_eq_append]
    exact (h.concat hmem).tail
  · rw [← List.concat_eq_append]
    exact h.concat hmem

theorem length_addHour_le {hours : List Nat} (h : hours.length ≤ maxTypicalHours) (hour : Nat) :
    (addHour hours hour).length ≤ maxTypicalHours := by
  simp only [addHour]
  split_ifs with hmem hlong
  · exact h
  · simp only [List.length_tail, List.length_append, List.length_singleton]
    omega
  · exact not_lt.mp hlong

/-- Does a profile hold what some visits noted? -/
structure Records (profile : PlaceProfile) (visits : List PlaceVisit) : Prop where
  wifi : ∀ name, profile.wifi.contains name = true ↔ PlaceVisit.Noted (·.wifi) visits name
  bluetooth : ∀ name,
    profile.bluetooth.contains name = true ↔ PlaceVisit.Noted (·.bluetooth) visits name
  count : profile.visits = min visits.length maxVisits
  lastSeen : ∀ last, visits.getLast? = some last → profile.lastSeen = last.time
  lastHour : ∀ last, visits.getLast? = some last → last.hour ∈ profile.typicalHours
  few : profile.typicalHours.length ≤ maxTypicalHours
  distinct : profile.typicalHours.Nodup
  hours : ∀ hour ∈ profile.typicalHours, ∃ visit ∈ visits, visit.hour = hour

theorem records_unvisited : unvisited.Records [] where
  wifi name := by simp [unvisited, PlaceVisit.Noted, Dictionary.contains]
  bluetooth name := by simp [unvisited, PlaceVisit.Noted, Dictionary.contains]
  count := rfl
  lastSeen _ h := nomatch h
  lastHour _ h := nomatch h
  few := Nat.zero_le _
  distinct := List.nodup_nil
  hours _ h := nomatch h

theorem Records.visit {profile : PlaceProfile} {visits : List PlaceVisit}
    (h : profile.Records visits) (visit : PlaceVisit) :
    (profile.visit visit.wifi visit.bluetooth visit.time visit.hour).2.Records
      (visits ++ [visit]) where
  wifi name := contains_addName.trans ((or_congr_left (h.wifi name)).trans
    PlaceVisit.noted_concat.symm)
  bluetooth name := contains_addName.trans ((or_congr_left (h.bluetooth name)).trans
    PlaceVisit.noted_concat.symm)
  count := by
    show min (profile.visits + 1) maxVisits = _
    rw [h.count, List.length_append, List.length_singleton]
    omega
  lastSeen last hlast := by
    rw [List.getLast?_concat] at hlast
    exact congrArg PlaceVisit.time (Option.some.inj hlast)
  lastHour last hlast := by
    rw [List.getLast?_concat] at hlast
    obtain rfl := Option.some.inj hlast
    exact mem_addHour_self _ _
  few := length_addHour_le h.few _
  distinct := nodup_addHour h.distinct _
  hours hour hmem := by
    rcases mem_of_mem_addHour hmem with rfl | hmem
    · exact ⟨visit, by simp, rfl⟩
    · obtain ⟨earlier, hearlier, hhour⟩ := h.hours hour hmem
      exact ⟨earlier, List.mem_append_left _ hearlier, hhour⟩

end PlaceProfile

namespace Places

/-- What is known about a place, if anything. -/
def profileOf (places : Places) (place : String) : PlaceProfile :=
  (places.get? place).getD .unvisited

/-- Carries out a use of the places. -/
def perform (places : Places) : PlaceUse → Places
  | .learn place visit =>
    (places.learn place visit.wifi visit.bluetooth visit.time visit.hour).2
  | .clear place => (places.forget place).2
  | .clearAll => ∅

theorem get?_learn (places : Places) (p : String) (visit : PlaceVisit) (place : String) :
    (places.perform (.learn p visit)).get? place =
      if place = p then some ((places.profileOf p).visit visit.wifi visit.bluetooth visit.time
        visit.hour).2
      else places.get? place := Dictionary.get?_insert _ _ _ _

theorem get?_clear (places : Places) (p place : String) :
    (places.perform (.clear p)).get? place = if place = p then none else places.get? place :=
  Dictionary.get?_erase _ _ _

/-- Do the places hold what some uses left? -/
structure Follows (places : Places) (uses : List PlaceUse) : Prop where
  known : ∀ place, (places.get? place).isSome ↔ PlaceUse.visitsTo place uses ≠ []
  records : ∀ place, (places.profileOf place).Records (PlaceUse.visitsTo place uses)

theorem follows_empty : Follows ∅ [] where
  known _ := by simp [PlaceUse.visitsTo]
  records _ := PlaceProfile.records_unvisited

theorem Follows.perform {places : Places} {uses : List PlaceUse} (h : places.Follows uses)
    (use : PlaceUse) : (places.perform use).Follows (uses ++ [use]) where
  known place := by
    rw [PlaceUse.visitsTo_concat]
    cases use with
    | learn p visit =>
      rw [get?_learn]
      dsimp only
      split_ifs
      · simp
      · exact h.known place
    | clear p =>
      rw [get?_clear]
      dsimp only
      split_ifs
      · simp
      · exact h.known place
    | clearAll => simp [Places.perform]
  records place := by
    rw [PlaceUse.visitsTo_concat]
    cases use with
    | learn p visit =>
      rw [profileOf, get?_learn]
      dsimp only
      split_ifs with hp
      · rw [hp]
        exact (h.records p).visit visit
      · exact h.records place
    | clear p =>
      rw [profileOf, get?_clear]
      dsimp only
      split_ifs
      · exact PlaceProfile.records_unvisited
      · exact h.records place
    | clearAll => exact PlaceProfile.records_unvisited

theorem follows_foldl (uses : List PlaceUse) : (uses.foldl perform ∅).Follows uses := by
  induction uses using List.reverseRecOn with
  | nil => exact follows_empty
  | append_singleton uses use ih =>
    rw [List.foldl_append]
    exact ih.perform use

theorem mem_withWifi {places : Places} {ssid place : String} :
    place ∈ places.withWifi ssid ↔
      ∃ profile, places.get? place = some profile ∧ profile.wifi.contains ssid = true := by
  simp only [withWifi, List.mem_map, List.mem_filter, Prod.exists, exists_and_right,
    exists_eq_right, Dictionary.mem_entries]

theorem pairwise_withWifi (places : Places) (ssid : String) :
    (places.withWifi ssid).Pairwise (· < ·) :=
  List.pairwise_map.mpr (places.ascending.filter _)

/-- A visit reports something new exactly when it adds a name to one of the sets of the place. -/
theorem learn_fst (places : Places) (place : String) (wifi bluetooth : Option String)
    (now : Instant) (hour : Nat) :
    let before := places.profileOf place
    let after := (places.learn place wifi bluetooth now hour).2.profileOf place
    (places.learn place wifi bluetooth now hour).1 = true ↔
      (∃ name, after.wifi.contains name = true ∧ before.wifi.contains name = false) ∨
        ∃ name, after.bluetooth.contains name = true ∧
          before.bluetooth.contains name = false := by
  intro before after
  have hafter : after = (before.visit wifi bluetooth now hour).2 := by
    have hget := get?_learn places place ⟨wifi, bluetooth, now, hour⟩ place
    rw [if_pos rfl] at hget
    exact congrArg (·.getD PlaceProfile.unvisited) hget
  rw [hafter]
  exact (Bool.or_eq_true_iff).trans (or_congr PlaceProfile.addName_fst PlaceProfile.addName_fst)

/-- A place is known exactly when it was visited since it was last cleared, and what is known about
it are those visits: the sets hold their names, they are counted up to a limit, and the time and
hour of the last one are kept, with a few other hours. A visit reports something new exactly when
one of the sets grows, and a network leads to the places at which a visit noted it, in ascending
order. -/
theorem places_eq_visit_log (uses : List PlaceUse) :
    let places := uses.foldl perform ∅
    (∀ place, places.contains place = true ↔ PlaceUse.visitsTo place uses ≠ []) ∧
      (∀ place profile, places.get? place = some profile →
        profile.Records (PlaceUse.visitsTo place uses)) ∧
      (∀ place wifi bluetooth now hour,
        let before := places.profileOf place
        let learned := places.learn place wifi bluetooth now hour
        let after := learned.2.profileOf place
        learned.1 = true ↔
          (∃ name, after.wifi.contains name = true ∧ before.wifi.contains name = false) ∨
            ∃ name, after.bluetooth.contains name = true ∧
              before.bluetooth.contains name = false) ∧
      ∀ ssid, (places.withWifi ssid).Pairwise (· < ·) ∧
        ∀ place, place ∈ places.withWifi ssid ↔
          PlaceVisit.Noted (·.wifi) (PlaceUse.visitsTo place uses) ssid := by
  intro places
  have h : places.Follows uses := follows_foldl uses
  have hrecords : ∀ place profile, places.get? place = some profile →
      profile.Records (PlaceUse.visitsTo place uses) := by
    intro place profile hprofile
    have hplace := h.records place
    rwa [profileOf, hprofile] at hplace
  refine ⟨h.known, hrecords, places.learn_fst, fun ssid => ⟨pairwise_withWifi _ _, fun place => ?_⟩⟩
  rw [mem_withWifi]
  constructor
  · rintro ⟨profile, hprofile, hssid⟩
    exact ((hrecords place profile hprofile).wifi ssid).mp hssid
  · intro hnoted
    obtain ⟨visit, hvisit, -⟩ := hnoted.2
    obtain ⟨profile, hprofile⟩ :=
      Option.isSome_iff_exists.mp ((h.known place).mpr (List.ne_nil_of_mem hvisit))
    exact ⟨profile, hprofile, ((hrecords place profile hprofile).wifi ssid).mpr hnoted⟩

/-- Nine uses: a place seen at six hours, in a network that another place shares, and a place
cleared. -/
def someUses : List PlaceUse :=
  [.learn "home" ⟨some "net", some "ear", 1, 6⟩, .learn "work" ⟨some "net", none, 2, 9⟩,
    .clear "work", .learn "home" ⟨some "net", some "", 3, 7⟩, .learn "gym" ⟨some "net", none, 4, 8⟩,
    .learn "home" ⟨none, some "car", 5, 8⟩, .learn "home" ⟨none, none, 6, 9⟩,
    .learn "home" ⟨none, none, 7, 10⟩, .learn "home" ⟨none, none, 8, 11⟩]

theorem places_eq_visit_log_nine :
    ∃ profile, (someUses.foldl perform ∅).get? "home" = some profile ∧
      profile.Records (PlaceUse.visitsTo "home" someUses) ∧
      profile.typicalHours = [7, 8, 9, 10, 11] ∧ profile.visits = 6 ∧
      (someUses.foldl perform ∅).contains "work" = false ∧
      (someUses.foldl perform ∅).withWifi "net" = ["gym", "home"] :=
  ⟨_, rfl, (places_eq_visit_log someUses).2.1 "home" _ rfl, by decide, by decide, by decide,
    by decide⟩

end Places

end ContextAdvisor
