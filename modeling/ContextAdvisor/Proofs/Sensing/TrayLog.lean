import ContextAdvisor.Dictionary.Lemmas
import ContextAdvisor.Proofs.Sensing.Fading

/-!
# The tray and the list of its uses

What the tray says about a key follows from two facts of its past: the last value written for the
key since the tray was cleared, and the lifetime that was last set for it at any time. The tray
keeps the lifetime twice, with the value and in its settings, and every use keeps the two alike; so
it does not matter whether a lifetime is set before or after the value is written.
-/
namespace ContextAdvisor

/-- A value that a source writes, with the quality that it claims. -/
structure SensorWrite (α : Type) where
  value : String
  quality : α
  source : Option String
  time : Instant

/-- A use of a tray that may change it. -/
inductive TrayUse (α : Type) where
  | put (key : String) (write : SensorWrite α)
  | setLifetime (key : String) (lifetime : Duration)
  | clear

namespace TrayUse

variable {α : Type}

/-- The last value written for a key since the tray was last cleared. -/
def lastWrite? (key : String) (uses : List (TrayUse α)) : Option (SensorWrite α) :=
  uses.foldl (fun last use => match use with
    | put k write => if key = k then some write else last
    | setLifetime _ _ => last
    | clear => none) none

/-- The lifetime that a use sets for a key. -/
def lifetimeSet? (key : String) : TrayUse α → Option Duration
  | setLifetime k lifetime => if key = k then some lifetime else none
  | _ => none

/-- How long values of a key stay fresh: as long as was last set, else as the settings say, else as
is usual for the key. -/
def lifetimeInForce? (settings : TraySettings) (key : String) (uses : List (TrayUse α)) :
    Option Duration :=
  (uses.filterMap (lifetimeSet? key)).getLast?.or
    ((settings.lifetimes.get? key).or (Vocabulary.lifetime? key))

theorem lastWrite?_concat (key : String) (uses : List (TrayUse α)) (use : TrayUse α) :
    lastWrite? key (uses ++ [use]) = match use with
      | put k write => if key = k then some write else lastWrite? key uses
      | setLifetime _ _ => lastWrite? key uses
      | clear => none := by
  rw [lastWrite?, List.foldl_append]
  rfl

theorem lifetimeInForce?_concat (settings : TraySettings) (key : String)
    (uses : List (TrayUse α)) (use : TrayUse α) :
    lifetimeInForce? settings key (uses ++ [use]) =
      (lifetimeSet? key use).or (lifetimeInForce? settings key uses) := by
  rw [lifetimeInForce?, lifetimeInForce?, List.filterMap_append, List.getLast?_append]
  cases hset : lifetimeSet? key use <;> simp [hset]

end TrayUse

variable {K : Type} [Field K] [LinearOrder K]

namespace SensorWrite

/-- The time since the value was written; a value from the future is new. -/
def age {α : Type} (write : SensorWrite α) (now : Instant) : Duration := max (now - write.time) 0

theorem age_nonneg {α : Type} (write : SensorWrite α) (now : Instant) : 0 ≤ write.age now :=
  le_max_right _ _

/-- The quality that the value still has at an instant. -/
def heldQuality (write : SensorWrite (Extended K)) (lifetime : Option Duration) (now : Instant) :
    K :=
  clampedQuality write.quality * keptShare lifetime (write.age now)

/-- What is read of a key, given the last value written for it, if there is one. -/
def reading (write : Option (SensorWrite (Extended K))) (lifetime : Option Duration)
    (now : Instant) : SensorReading (Extended K) :=
  match write with
  | some w => ⟨some w.value, .finite (w.heldQuality lifetime now),
      ∀ span ∈ lifetime, w.age now < span, w.age now⟩
  | none => ⟨none, .finite 0.5, false, 0⟩

/-- What a tray keeps of a value. -/
def entry {α : Type} [Scalar α] (write : SensorWrite α) (key : String)
    (lifetime : Option Duration) : TrayEntry α :=
  ⟨write.value, write.time, lifetime, Tray.admitQuality write.quality, write.source.getD key⟩

section

variable [IsStrictOrderedRing K] {lifetime : Option Duration} {now later : Instant}

theorem heldQuality_nonneg (write : SensorWrite (Extended K)) :
    0 ≤ write.heldQuality lifetime now :=
  mul_nonneg (clampedQuality_nonneg _) keptShare_nonneg

theorem heldQuality_le_one (write : SensorWrite (Extended K)) :
    write.heldQuality lifetime now ≤ 1 :=
  mul_le_one₀ (clampedQuality_le_one _) keptShare_nonneg keptShare_le_one

theorem heldQuality_antitone (write : SensorWrite (Extended K)) (h : now ≤ later) :
    write.heldQuality lifetime later ≤ write.heldQuality lifetime now := by
  have hage : write.age now ≤ write.age later := max_le_max_right _ (Int.sub_le_sub_right h _)
  exact mul_le_mul_of_nonneg_left (keptShare_antitone hage) (clampedQuality_nonneg _)

theorem heldQuality_of_fresh (write : SensorWrite (Extended K))
    (h : ∀ span ∈ lifetime, write.age now < span) :
    write.heldQuality lifetime now = clampedQuality write.quality := by
  rw [heldQuality, keptShare_of_fresh (write.age_nonneg now) h, mul_one]

theorem heldQuality_of_expired (write : SensorWrite (Extended K)) {span : Duration}
    (h : 2 * span ≤ write.age now ∨ span ≤ 0) : write.heldQuality (some span) now = 0 := by
  rw [heldQuality, keptShare_of_expired h, mul_zero]

/-- A reading without a value has half the quality at all times. -/
theorem quality_reading_mem (write : Option (SensorWrite (Extended K))) :
    .finite 0 ≤ (reading write lifetime now).quality ∧
      (reading write lifetime now).quality ≤ .finite 1 := by
  cases write with
  | none =>
    exact ⟨Extended.finite_le_finite.mpr (by norm_num), Extended.finite_le_finite.mpr (by norm_num)⟩
  | some write =>
    exact ⟨Extended.finite_le_finite.mpr write.heldQuality_nonneg,
      Extended.finite_le_finite.mpr write.heldQuality_le_one⟩

theorem quality_reading_antitone (write : Option (SensorWrite (Extended K))) (h : now ≤ later) :
    (reading write lifetime later).quality ≤ (reading write lifetime now).quality := by
  cases write with
  | none => exact Extended.finite_le_finite.mpr le_rfl
  | some write => exact Extended.finite_le_finite.mpr (write.heldQuality_antitone h)

end

end SensorWrite

namespace Tray

variable {α : Type}

theorem lifetime?_eq (tray : Tray α) (key : String) : tray.lifetime? key =
    (tray.settings.lifetimes.get? key).or (Vocabulary.lifetime? key) := by
  rw [lifetime?]
  cases tray.settings.lifetimes.get? key <;> rfl

theorem lifetime?_setLifetime (tray : Tray α) (k : String) (lifetime : Duration) (key : String) :
    (tray.setLifetime k lifetime).lifetime? key =
      if key = k then some lifetime else tray.lifetime? key := by
  rw [lifetime?_eq, lifetime?_eq, setLifetime, Dictionary.get?_insert]
  split_ifs <;> rfl

/-- A lifetime that is set changes the value that is there, too. -/
theorem get?_slots_setLifetime (tray : Tray α) (k : String) (lifetime : Duration) (key : String) :
    (tray.setLifetime k lifetime).slots.get? key =
      if key = k then (tray.slots.get? key).map fun slot => { slot with lifetime := some lifetime }
      else tray.slots.get? key := by
  rw [setLifetime]
  cases hk : tray.slots.get? k with
  | none =>
    split_ifs with hkey
    · rw [hkey, hk, Option.map_none]
    · rfl
  | some slot =>
    rw [Dictionary.get?_insert]
    split_ifs with hkey
    · rw [hkey, hk, Option.map_some]
    · rfl

variable [Scalar α]

/-- Carries out a use of a tray. -/
def perform (tray : Tray α) : TrayUse α → Tray α
  | .put key write => tray.put key write.value write.quality write.source write.time
  | .setLifetime key lifetime => tray.setLifetime key lifetime
  | .clear => tray.clear

theorem get?_slots_put (tray : Tray α) (k : String) (write : SensorWrite α) (key : String) :
    (tray.perform (.put k write)).slots.get? key =
      if key = k then some (write.entry k (tray.lifetime? k)) else tray.slots.get? key :=
  Dictionary.get?_insert _ _ _ _

/-- A lifetime may be set before or after a value is written. -/
theorem put_setLifetime (tray : Tray α) (key : String) (write : SensorWrite α)
    (lifetime : Duration) :
    (tray.perform (.put key write)).perform (.setLifetime key lifetime) =
      (tray.perform (.setLifetime key lifetime)).perform (.put key write) := by
  have hslots : ∀ k, ((tray.perform (.put key write)).setLifetime key lifetime).slots.get? k =
      ((tray.setLifetime key lifetime).perform (.put key write)).slots.get? k := by
    intro k
    rw [get?_slots_setLifetime, get?_slots_put, get?_slots_put, get?_slots_setLifetime,
      lifetime?_setLifetime, if_pos rfl]
    split_ifs <;> rfl
  exact congrArg₂ Tray.mk (Dictionary.ext hslots) rfl

/-- Does a tray hold what some uses left, the values with the lifetimes in force? -/
structure Follows (tray : Tray α) (settings : TraySettings) (uses : List (TrayUse α)) : Prop where
  lifetime? : ∀ key, tray.lifetime? key = TrayUse.lifetimeInForce? settings key uses
  slot? : ∀ key, tray.slots.get? key = (TrayUse.lastWrite? key uses).map fun write =>
    write.entry key (TrayUse.lifetimeInForce? settings key uses)

theorem follows_ofSettings (settings : TraySettings) :
    (ofSettings settings : Tray α).Follows settings [] where
  lifetime? key := lifetime?_eq _ key
  slot? _ := rfl

theorem Follows.perform {tray : Tray α} {settings : TraySettings} {uses : List (TrayUse α)}
    (h : tray.Follows settings uses) (use : TrayUse α) :
    (tray.perform use).Follows settings (uses ++ [use]) where
  lifetime? key := by
    rw [TrayUse.lifetimeInForce?_concat, ← h.lifetime?]
    cases use with
    | put k write => rfl
    | setLifetime k lifetime =>
      rw [Tray.perform, lifetime?_setLifetime, TrayUse.lifetimeSet?]
      split_ifs <;> rfl
    | clear => rfl
  slot? key := by
    rw [TrayUse.lifetimeInForce?_concat, TrayUse.lastWrite?_concat]
    cases use with
    | put k write =>
      rw [get?_slots_put, h.lifetime?, h.slot?]
      dsimp only
      split_ifs with hkey
      · rw [hkey]
        rfl
      · rfl
    | setLifetime k lifetime =>
      rw [Tray.perform, get?_slots_setLifetime, h.slot?, TrayUse.lifetimeSet?]
      split_ifs with hkey
      · rw [Option.map_map]
        rfl
      · rfl
    | clear => rfl

theorem follows_after (settings : TraySettings) (uses : List (TrayUse α)) :
    (uses.foldl Tray.perform (ofSettings settings)).Follows settings uses := by
  induction uses using List.reverseRecOn with
  | nil => exact follows_ofSettings settings
  | append_singleton uses use ih =>
    rw [List.foldl_append]
    exact ih.perform use

/-- The readings follow from the last value and the lifetime in force. -/
theorem Follows.get_eq [IsStrictOrderedRing K] {tray : Tray (Extended K)}
    {settings : TraySettings} {uses : List (TrayUse (Extended K))} (h : tray.Follows settings uses)
    (key : String) (now : Instant) : tray.get key now =
      SensorWrite.reading (TrayUse.lastWrite? key uses)
        (TrayUse.lifetimeInForce? settings key uses) now := by
  rw [get, h.slot?]
  cases TrayUse.lastWrite? key uses with
  | none => rfl
  | some write =>
    rw [Option.map_some]
    dsimp only
    rw [TrayEntry.qualityAt_eq (admitQuality_eq write.quality), TrayEntry.isFresh_eq]
    rfl

theorem map_key_status (tray : Tray α) (now : Instant) :
    (tray.status now).map (·.key) = tray.slots.keys := by
  rw [status, List.map_map]
  rfl

/-- A row of the overview says what is read of its key. -/
theorem get_of_mem_status {tray : Tray α} {now : Instant} {row : TrayRow α}
    (h : row ∈ tray.status now) :
    tray.get row.key now = ⟨some row.value, row.quality, row.fresh, row.age⟩ := by
  obtain ⟨⟨key, slot⟩, he, rfl⟩ := List.mem_map.mp h
  have hslot : tray.slots.get? key = some slot := Dictionary.get?_of_mem he
  rw [get, hslot]

/-- A row of the overview names the lifetime in force. -/
theorem Follows.lifetime_of_mem_status {tray : Tray α} {settings : TraySettings}
    {uses : List (TrayUse α)} (h : tray.Follows settings uses) {now : Instant} {row : TrayRow α}
    (hr : row ∈ tray.status now) :
    row.lifetime = TrayUse.lifetimeInForce? settings row.key uses := by
  obtain ⟨⟨key, slot⟩, he, rfl⟩ := List.mem_map.mp hr
  have hslot := h.slot? key
  rw [Dictionary.get?_of_mem he] at hslot
  obtain ⟨write, -, rfl⟩ := Option.map_eq_some_iff.mp hslot.symm
  rfl

theorem Follows.mem_keys_status {tray : Tray α} {settings : TraySettings}
    {uses : List (TrayUse α)} (h : tray.Follows settings uses) (now : Instant) (key : String) :
    key ∈ (tray.status now).map (·.key) ↔ (TrayUse.lastWrite? key uses).isSome := by
  rw [map_key_status, Dictionary.mem_keys, h.slot?, Option.isSome_map]

variable [IsStrictOrderedRing K]

/-- The readings of a key follow from the last value written for it since the tray was cleared and
from the lifetime that was last set for it, before or after; the overview has one row for each key
with such a value, in ascending order, and agrees with the readings. Their quality is a number in
`[0, 1]` and never rises. It is the quality on record as long as the value is fresh, and none is
left after two lifetimes or if the lifetime is not positive. -/
theorem readings_follow_uses (settings : TraySettings) (uses : List (TrayUse (Extended K))) :
    let tray := uses.foldl perform (ofSettings settings)
    let write? := fun key => TrayUse.lastWrite? key uses
    let lifetime? := fun key => TrayUse.lifetimeInForce? settings key uses
    (∀ key now, tray.get key now = SensorWrite.reading (write? key) (lifetime? key) now) ∧
      (∀ key write lifetime,
        (tray.perform (.put key write)).perform (.setLifetime key lifetime) =
          (tray.perform (.setLifetime key lifetime)).perform (.put key write)) ∧
      (∀ now, ((tray.status now).map (·.key)).Pairwise (· < ·) ∧
        (∀ key, key ∈ (tray.status now).map (·.key) ↔ (write? key).isSome) ∧
        ∀ row ∈ tray.status now, row.lifetime = lifetime? row.key ∧
          tray.get row.key now = ⟨some row.value, row.quality, row.fresh, row.age⟩) ∧
      ∀ key now, let reading := tray.get key now
        .finite 0 ≤ reading.quality ∧ reading.quality ≤ .finite 1 ∧
          (∀ later, now ≤ later → (tray.get key later).quality ≤ reading.quality) ∧
          ∀ write ∈ write? key,
            ((∀ span ∈ lifetime? key, reading.age < span) →
              reading.quality = .finite (clampedQuality write.quality)) ∧
            ∀ span ∈ lifetime? key, 2 * span ≤ reading.age ∨ span ≤ 0 →
              reading.quality = .finite 0 := by
  intro tray write? lifetime?
  have h : tray.Follows settings uses := follows_after settings uses
  refine ⟨h.get_eq, tray.put_setLifetime, fun now => ⟨?_, h.mem_keys_status now, ?_⟩,
    fun key now => ?_⟩
  · rw [map_key_status]
    exact List.pairwise_map.mpr tray.slots.ascending
  · exact fun row hr => ⟨h.lifetime_of_mem_status hr, get_of_mem_status hr⟩
  · rw [h.get_eq]
    refine ⟨(SensorWrite.quality_reading_mem _).1, (SensorWrite.quality_reading_mem _).2,
      fun later hlater => ?_, fun write hwrite => ?_⟩
    · rw [h.get_eq]
      exact SensorWrite.quality_reading_antitone _ hlater
    · have hw : TrayUse.lastWrite? key uses = some write := hwrite
      rw [hw]
      refine ⟨fun hfresh => congrArg _ (write.heldQuality_of_fresh hfresh),
        fun span hspan hexpired => ?_⟩
      have hl : TrayUse.lifetimeInForce? settings key uses = some span := hspan
      rw [hl]
      exact congrArg _ (write.heldQuality_of_expired hexpired)

/-- A lifetime that was set before the tray was cleared holds for the next value, whose claimed
quality of two counts as one. -/
theorem readings_follow_uses_work :
    let uses : List (TrayUse (Extended ℚ)) :=
      [.put "geofence" ⟨"home", .finite 0.8, some "gps", 0⟩, .setLifetime "geofence" 1000, .clear,
        .put "geofence" ⟨"work", .finite 2, none, 500⟩]
    let tray := uses.foldl perform (ofSettings .standard)
    (tray.status 0).map (·.key) = ["geofence"] ∧
      (tray.get "geofence" 1499).quality = .finite 1 ∧
      (tray.get "geofence" 2000).quality = .finite 0.5 ∧
      (tray.get "geofence" 2500).quality = .finite 0 := by
  intro uses tray
  let work : SensorWrite (Extended ℚ) := ⟨"work", .finite 2, none, 500⟩
  obtain ⟨hget, -, -, hquality⟩ := readings_follow_uses .standard uses
  have hwrite : TrayUse.lastWrite? "geofence" uses = some work := rfl
  have hlifetime : TrayUse.lifetimeInForce? .standard "geofence" uses = some 1000 := rfl
  have hread : ∀ now, tray.get "geofence" now =
      SensorWrite.reading (some work) (some 1000) now := hget "geofence"
  have hclamped : clampedQuality work.quality = 1 := by norm_num [clampedQuality, work]
  refine ⟨by decide +kernel, ?_, ?_, ?_⟩
  · obtain ⟨-, -, -, hlaws⟩ := hquality "geofence" 1499
    rw [(hlaws work hwrite).1 ?_, hclamped]
    intro span hspan
    obtain rfl : 1000 = span := Option.some.inj (hlifetime.symm.trans hspan)
    rw [hread]
    decide
  · have hhalf : work.heldQuality (some 1000) 2000 = 0.5 := by
      norm_num [SensorWrite.heldQuality, SensorWrite.age, hclamped, keptShare, work]
    rw [hread]
    exact congrArg Extended.finite hhalf
  · obtain ⟨-, -, -, hlaws⟩ := hquality "geofence" 2500
    refine (hlaws work hwrite).2 1000 hlifetime (.inl ?_)
    rw [hread]
    decide

end Tray

end ContextAdvisor
