import ContextAdvisor.Engine.Command
import ContextAdvisor.Engine.SettingsDocument
import ContextAdvisor.Proofs.Json.Indented
import ContextAdvisor.Proofs.Json.Reading
import ContextAdvisor.Proofs.Sensing.PlaceDocument

/-!
# Configuration documents are read back

Every group of settings is written in a form that its reader accepts, field by field, so no setting
falls back to its usual value. Integers have the ranges of a document, and a number is read back as
far as its text keeps it. The lifetimes of the tray may be written in any order.
-/
namespace ContextAdvisor

namespace FiringLimits

/-- Do the numbers have the ranges of a document? -/
def Fits (c : FiringLimits) : Prop :=
  c.categoryMax < 18446744073709551616 ∧ Text.inWord c.categoryWindow ∧
    c.globalMaxPerHour < 18446744073709551616

instance (c : FiringLimits) : Decidable c.Fits := inferInstanceAs (Decidable (_ ∧ _))

theorem read?_toJson {c : FiringLimits} (h : c.Fits) :
    read? c.toJson.written.toSyntax = some c := by
  obtain ⟨hmax, hwindow, hglobal⟩ := h
  obtain ⟨fields, hread, hfields⟩ := Fields.exists_read?_written
    [("categoryMax", .integer c.categoryMax), ("categoryWindowMs", .integer c.categoryWindow),
      ("globalMaxPerHour", .integer c.globalMaxPerHour)]
    ["categoryMax", "categoryWindowMs", "globalMaxPerHour"] rfl (by decide)
  simp only [List.forall_mem_cons] at hfields
  obtain ⟨hmaxField, hwindowField, hglobalField, -⟩ := hfields
  rw [read?, toJson, Fields.bind_read? hread,
    hmaxField.bind_withDefault (Reader.nat_written hmax),
    hwindowField.bind_withDefault (Reader.int_written hwindow),
    hglobalField.bind_withDefault (Reader.nat_written hglobal)]
  rfl

end FiringLimits

namespace DigestPolicy

/-- Do the numbers have the ranges of a document? -/
def Fits (c : DigestPolicy) : Prop :=
  Text.inWord c.window ∧ c.threshold < 18446744073709551616

instance (c : DigestPolicy) : Decidable c.Fits := inferInstanceAs (Decidable (_ ∧ _))

theorem read?_toJson {c : DigestPolicy} (h : c.Fits) :
    read? c.toJson.written.toSyntax = some c := by
  obtain ⟨hwindow, hthreshold⟩ := h
  obtain ⟨fields, hread, hfields⟩ := Fields.exists_read?_written
    [("windowMs", .integer c.window), ("threshold", .integer c.threshold)]
    ["windowMs", "threshold"] rfl (by decide)
  simp only [List.forall_mem_cons] at hfields
  obtain ⟨hwindowField, hthresholdField, -⟩ := hfields
  rw [read?, toJson, Fields.bind_read? hread,
    hwindowField.bind_withDefault (Reader.int_written hwindow),
    hthresholdField.bind_withDefault (Reader.nat_written hthreshold)]
  rfl

end DigestPolicy

theorem Strategy.read?_name (s : Strategy) :
    read? (Json.written (.string s.name)).toSyntax = some s := by
  cases s <;> decide

theorem Inversion.read?_name (mode : Inversion) :
    read? (Json.written (.string mode.name)).toSyntax = some mode := by
  cases mode <;> decide

section

variable {α : Type} [Scalar α]

namespace BanditSettings

/-- Does the seed have the range of a document? -/
def Fits (c : BanditSettings α) : Prop := ∀ seed ∈ c.seed, seed < 18446744073709551616

instance (c : BanditSettings α) : Decidable c.Fits :=
  inferInstanceAs (Decidable (∀ seed ∈ c.seed, seed < 18446744073709551616))

/-- The scalars among the settings. -/
def scalars (c : BanditSettings α) : List α := [c.epsilon, c.alpha, c.gamma]

theorem read?_toJson [Recorded α] {c : BanditSettings α} (h : c.Fits)
    (hscalars : ∀ x ∈ c.scalars, Scalar.Legible x) :
    read? c.toJson.written.toSyntax = some c := by
  simp only [scalars, List.forall_mem_cons, Scalar.legible_iff] at hscalars
  obtain ⟨hepsilon, halpha, hgamma, -⟩ := hscalars
  have hwrite : Json.ofOption (.integer ·) c.seed =
      Json.ofOption (fun n : Nat => Tree.integer n) c.seed := by
    cases c.seed <;> rfl
  have hseed : Reader.nullable Reader.nat
      (Json.ofOption (fun n : Nat => Tree.integer n) c.seed).written.toSyntax = some c.seed :=
    Reader.nullable_written (fun _ hnull => nomatch hnull) fun n hn => Reader.nat_written (h n hn)
  obtain ⟨fields, hread, hfields⟩ := Fields.exists_read?_written
    [("strategy", .string c.strategy.name), ("epsilon", Json.ofScalar c.epsilon),
      ("alpha", Json.ofScalar c.alpha), ("gamma", Json.ofScalar c.gamma),
      ("inverse", .string c.inverse.name),
      ("seed", Json.ofOption (fun n : Nat => Tree.integer n) c.seed)]
    ["strategy", "epsilon", "alpha", "gamma", "inverse", "seed"] rfl (by decide)
  simp only [List.forall_mem_cons] at hfields
  obtain ⟨hstrategyField, hepsilonField, halphaField, hgammaField, hinverseField, hseedField, -⟩ :=
    hfields
  rw [read?, toJson, hwrite, Fields.bind_read? hread,
    hstrategyField.bind_withDefault (Strategy.read?_name _),
    hepsilonField.bind_withDefault hepsilon, halphaField.bind_withDefault halpha,
    hgammaField.bind_withDefault hgamma, hinverseField.bind_withDefault (Inversion.read?_name _),
    hseedField.bind_withDefault hseed]
  rfl

end BanditSettings

namespace InputRange

/-- The scalars of the range. -/
def scalars (range : InputRange α) : List α := [range.min, range.max, range.fallback]

theorem fromJson?_toJson [Recorded α] {range : InputRange α}
    (hscalars : ∀ x ∈ range.scalars, Scalar.Legible x) :
    fromJson? range.toJson.written.toSyntax = some range := by
  simp only [scalars, List.forall_mem_cons, Scalar.legible_iff] at hscalars
  obtain ⟨hmin, hmax, hfallback, -⟩ := hscalars
  have hkey : Reader.text (Json.written (.string range.key)).toSyntax = some range.key := rfl
  obtain ⟨fields, hread, hfields⟩ := Fields.exists_read?_written
    [("key", .string range.key), ("min", Json.ofScalar range.min),
      ("max", Json.ofScalar range.max), ("default", Json.ofScalar range.fallback)]
    ["key", "min", "max", "default"] rfl (by decide)
  simp only [List.forall_mem_cons] at hfields
  obtain ⟨hkeyField, hminField, hmaxField, hfallbackField, -⟩ := hfields
  rw [fromJson?, toJson, Fields.bind_read? hread, hkeyField.bind_required hkey,
    hminField.bind_required hmin, hmaxField.bind_required hmax,
    hfallbackField.bind_required hfallback]
  rfl

end InputRange

namespace GuardSettings

/-- Do the numbers of rewards have the range of a document? -/
def Fits (c : GuardSettings α) : Prop :=
  c.rewardHistory < 18446744073709551616 ∧ c.rewardMinSamples < 18446744073709551616 ∧
    c.monitorWindow < 18446744073709551616 ∧ c.checkpointInterval < 18446744073709551616

instance (c : GuardSettings α) : Decidable c.Fits := inferInstanceAs (Decidable (_ ∧ _))

/-- The scalars among the settings. -/
def scalars (c : GuardSettings α) : List α :=
  c.ranges.flatMap InputRange.scalars ++
    [c.rewardSigma, c.rewardClip, c.paramRate, c.uncertaintyThreshold, c.rollbackDrop]

theorem read?_toJson [Recorded α] {c : GuardSettings α} (h : c.Fits)
    (hscalars : ∀ x ∈ c.scalars, Scalar.Legible x) :
    read? c.toJson.written.toSyntax = some c := by
  obtain ⟨hhistory, hsamples, hwindow, hinterval⟩ := h
  obtain ⟨hranges, hothers⟩ := List.forall_mem_append.mp hscalars
  simp only [List.forall_mem_cons, Scalar.legible_iff] at hothers
  obtain ⟨hsigma, hclip, hrate, hthreshold, hdrop, -⟩ := hothers
  have hbounds : Reader.list InputRange.fromJson?
      (Json.written (.array (c.ranges.map InputRange.toJson))).toSyntax = some c.ranges :=
    Reader.list_written fun range hrange => InputRange.fromJson?_toJson fun x hx =>
      hranges x (List.mem_flatMap.mpr ⟨range, hrange, hx⟩)
  obtain ⟨fields, hread, hfields⟩ := Fields.exists_read?_written
    [("bounds", .array (c.ranges.map InputRange.toJson)),
      ("rewardHistory", .integer c.rewardHistory),
      ("rewardMinSamples", .integer c.rewardMinSamples),
      ("rewardSigma", Json.ofScalar c.rewardSigma), ("rewardClip", Json.ofScalar c.rewardClip),
      ("paramRate", Json.ofScalar c.paramRate),
      ("uncertaintyThreshold", Json.ofScalar c.uncertaintyThreshold),
      ("monitorWindow", .integer c.monitorWindow),
      ("checkpointInterval", .integer c.checkpointInterval),
      ("rollbackDrop", Json.ofScalar c.rollbackDrop)]
    ["bounds", "rewardHistory", "rewardMinSamples", "rewardSigma", "rewardClip", "paramRate",
      "uncertaintyThreshold", "monitorWindow", "checkpointInterval", "rollbackDrop"]
    rfl (by decide)
  simp only [List.forall_mem_cons] at hfields
  obtain ⟨hboundsField, hhistoryField, hsamplesField, hsigmaField, hclipField, hrateField,
    hthresholdField, hwindowField, hintervalField, hdropField, -⟩ := hfields
  rw [read?, toJson, Fields.bind_read? hread, hboundsField.bind_withDefault hbounds,
    hhistoryField.bind_withDefault (Reader.nat_written hhistory),
    hsamplesField.bind_withDefault (Reader.nat_written hsamples),
    hsigmaField.bind_withDefault hsigma, hclipField.bind_withDefault hclip,
    hrateField.bind_withDefault hrate, hthresholdField.bind_withDefault hthreshold,
    hwindowField.bind_withDefault (Reader.nat_written hwindow),
    hintervalField.bind_withDefault (Reader.nat_written hinterval),
    hdropField.bind_withDefault hdrop]
  rfl

end GuardSettings

end

namespace TraySettings

/-- Do the lifetimes and the offset have the ranges of a document? -/
def Fits (c : TraySettings) : Prop :=
  (∀ e ∈ c.lifetimes.entries, Text.inWord e.2) ∧
    ∀ offset ∈ c.utcOffsetMinutes, -2147483648 ≤ offset ∧ offset < 2147483648

instance (c : TraySettings) : Decidable c.Fits :=
  inferInstanceAs (Decidable ((∀ e ∈ c.lifetimes.entries, Text.inWord e.2) ∧
    ∀ offset ∈ c.utcOffsetMinutes, -2147483648 ≤ offset ∧ offset < 2147483648))

/-- The document with the lifetimes in a given order. -/
def document (c : TraySettings) (lifetimes : List (String × Duration)) : Json :=
  .object [
    ("ttlOverrides", .object (lifetimes.map fun e => (e.1, .integer e.2))),
    ("utcOffsetMinutes", Json.ofOption .integer c.utcOffsetMinutes)]

theorem toJson_eq (c : TraySettings) : c.toJson = c.document c.lifetimes.entries := rfl

theorem read?_document {c : TraySettings} (h : c.Fits) {lifetimes : List (String × Duration)}
    (horder : lifetimes.Perm c.lifetimes.entries) :
    read? (c.document lifetimes).written.toSyntax = some c := by
  have hlifetimes : Reader.dictionary Reader.int (Json.written
      (.object (lifetimes.map fun e => (e.1, .integer e.2)))).toSyntax = some c.lifetimes :=
    Reader.dictionary_written horder fun e he => Reader.int_written (h.1 e he)
  have hoffset : Reader.nullable (Reader.intWithin 2147483648)
      (Json.ofOption .integer c.utcOffsetMinutes).written.toSyntax = some c.utcOffsetMinutes :=
    Reader.nullable_written (fun _ hnull => nomatch hnull) fun n hn =>
      Reader.intWithin_written (h.2 n hn).1 (h.2 n hn).2
  obtain ⟨fields, hread, hfields⟩ := Fields.exists_read?_written
    [("ttlOverrides", .object (lifetimes.map fun e => (e.1, .integer e.2))),
      ("utcOffsetMinutes", Json.ofOption .integer c.utcOffsetMinutes)]
    ["ttlOverrides", "utcOffsetMinutes"] rfl (by decide)
  simp only [List.forall_mem_cons] at hfields
  obtain ⟨hlifetimesField, hoffsetField, -⟩ := hfields
  rw [read?, document, Fields.bind_read? hread, hlifetimesField.bind_withDefault hlifetimes,
    hoffsetField.bind_withDefault hoffset]
  rfl

end TraySettings

section

variable {α : Type} [Scalar α]

namespace MotionThresholds

/-- Does the length of the history have the range of a document? -/
def Fits (c : MotionThresholds α) : Prop := c.history < 18446744073709551616

instance (c : MotionThresholds α) : Decidable c.Fits :=
  inferInstanceAs (Decidable (c.history < 18446744073709551616))

/-- The scalars among the settings. -/
def scalars (c : MotionThresholds α) : List α :=
  [c.stationaryThreshold, c.walkingThreshold, c.runningThreshold, c.drivingSpeed, c.highSpeed,
    c.movingSpeed]

theorem read?_toJson [Recorded α] {c : MotionThresholds α} (h : c.Fits)
    (hscalars : ∀ x ∈ c.scalars, Scalar.Legible x) :
    read? c.toJson.written.toSyntax = some c := by
  simp only [scalars, List.forall_mem_cons, Scalar.legible_iff] at hscalars
  obtain ⟨hstationary, hwalking, hrunning, hdriving, hhigh, hmoving, -⟩ := hscalars
  obtain ⟨fields, hread, hfields⟩ := Fields.exists_read?_written
    [("stationaryThreshold", Json.ofScalar c.stationaryThreshold),
      ("walkingThreshold", Json.ofScalar c.walkingThreshold),
      ("runningThreshold", Json.ofScalar c.runningThreshold),
      ("drivingSpeed", Json.ofScalar c.drivingSpeed), ("highSpeed", Json.ofScalar c.highSpeed),
      ("movingSpeed", Json.ofScalar c.movingSpeed), ("history", .integer c.history)]
    ["stationaryThreshold", "walkingThreshold", "runningThreshold", "drivingSpeed", "highSpeed",
      "movingSpeed", "history"] rfl (by decide)
  simp only [List.forall_mem_cons] at hfields
  obtain ⟨hstationaryField, hwalkingField, hrunningField, hdrivingField, hhighField, hmovingField,
    hhistoryField, -⟩ := hfields
  rw [read?, toJson, Fields.bind_read? hread, hstationaryField.bind_withDefault hstationary,
    hwalkingField.bind_withDefault hwalking, hrunningField.bind_withDefault hrunning,
    hdrivingField.bind_withDefault hdriving, hhighField.bind_withDefault hhigh,
    hmovingField.bind_withDefault hmoving, hhistoryField.bind_withDefault (Reader.nat_written h)]
  rfl

end MotionThresholds

end

namespace SamplingIntervals

/-- Do the intervals have the range of a document? -/
def Fits (i : SamplingIntervals) : Prop :=
  Text.inWord i.gps ∧ (∀ wifi ∈ i.wifi, Text.inWord wifi) ∧ Text.inWord i.accel

instance (i : SamplingIntervals) : Decidable i.Fits :=
  inferInstanceAs (Decidable (Text.inWord i.gps ∧ (∀ wifi ∈ i.wifi, Text.inWord wifi) ∧
    Text.inWord i.accel))

theorem read?_toJson {i : SamplingIntervals} (h : i.Fits) :
    read? i.toJson.written.toSyntax = some i := by
  obtain ⟨hgps, hwifi, haccel⟩ := h
  have hscans : Reader.nullable Reader.int (Json.ofOption .integer i.wifi).written.toSyntax =
      some i.wifi :=
    Reader.nullable_written (fun _ hnull => nomatch hnull) fun n hn =>
      Reader.int_written (hwifi n hn)
  obtain ⟨fields, hread, hfields⟩ := Fields.exists_read?_written
    [("gpsMs", .integer i.gps), ("wifiMs", Json.ofOption .integer i.wifi),
      ("accelMs", .integer i.accel)]
    ["gpsMs", "wifiMs", "accelMs"] rfl (by decide)
  simp only [List.forall_mem_cons] at hfields
  obtain ⟨hgpsField, hwifiField, haccelField, -⟩ := hfields
  rw [read?, toJson, Fields.bind_read? hread,
    hgpsField.bind_required (Reader.int_written hgps), hwifiField.bind_nullable hscans,
    haccelField.bind_required (Reader.int_written haccel)]
  rfl

end SamplingIntervals

namespace SamplingPlan

/-- Do all intervals have the range of a document? -/
def Fits (p : SamplingPlan) : Prop :=
  p.stationary.Fits ∧ p.walking.Fits ∧ p.running.Fits ∧ p.driving.Fits ∧ p.unknown.Fits

instance (p : SamplingPlan) : Decidable p.Fits := inferInstanceAs (Decidable (_ ∧ _))

theorem read?_toJson {p : SamplingPlan} (h : p.Fits) :
    read? p.toJson.written.toSyntax = some p := by
  obtain ⟨hstationary, hwalking, hrunning, hdriving, hunknown⟩ := h
  obtain ⟨fields, hread, hfields⟩ := Fields.exists_read?_written
    [("stationary", p.stationary.toJson), ("walking", p.walking.toJson),
      ("running", p.running.toJson), ("driving", p.driving.toJson), ("unknown", p.unknown.toJson)]
    ["stationary", "walking", "running", "driving", "unknown"] rfl (by decide)
  simp only [List.forall_mem_cons] at hfields
  obtain ⟨hstationaryField, hwalkingField, hrunningField, hdrivingField, hunknownField, -⟩ :=
    hfields
  rw [read?, toJson, Fields.bind_read? hread,
    hstationaryField.bind_withDefault (SamplingIntervals.read?_toJson hstationary),
    hwalkingField.bind_withDefault (SamplingIntervals.read?_toJson hwalking),
    hrunningField.bind_withDefault (SamplingIntervals.read?_toJson hrunning),
    hdrivingField.bind_withDefault (SamplingIntervals.read?_toJson hdriving),
    hunknownField.bind_withDefault (SamplingIntervals.read?_toJson hunknown)]
  rfl

end SamplingPlan

namespace Settings

variable {α : Type} [Scalar α]

/-- Do all integers have the ranges of a document? -/
structure Fits (c : Settings α) : Prop where
  maxTreeKeys : c.maxTreeKeys < 18446744073709551616
  installTime : ∀ time ∈ c.installTime, Text.inWord time
  eventMaxAge : Text.inWord c.eventMaxAge
  rateLimits : c.rateLimits.Fits
  digest : c.digest.Fits
  bandit : c.bandit.Fits
  guard : c.guard.Fits
  tray : c.tray.Fits
  motion : c.motion.Fits
  sampling : c.sampling.Fits

/-- The scalars among the settings. -/
def scalars (c : Settings α) : List α :=
  c.minConfidence :: (c.bandit.scalars ++ (c.guard.scalars ++ c.motion.scalars))

variable [Recorded α]

/-- The document with the lifetimes of the tray in a given order. -/
def document (c : Settings α) (lifetimes : List (String × Duration)) : Json :=
  .object [("maxTreeKeys", .integer c.maxTreeKeys),
    ("minConfidence", Json.ofScalar c.minConfidence),
    ("installTimeMs", Json.ofOption .integer c.installTime),
    ("eventMaxAgeMs", .integer c.eventMaxAge), ("rateLimits", c.rateLimits.toJson),
    ("merge", c.digest.toJson), ("bandit", c.bandit.toJson), ("guard", c.guard.toJson),
    ("tray", c.tray.document lifetimes), ("motion", c.motion.toJson),
    ("sampling", c.sampling.toJson)]

theorem toJson_eq (c : Settings α) : c.toJson = c.document c.tray.lifetimes.entries := rfl

theorem read?_document {c : Settings α} (h : c.Fits)
    (hscalars : ∀ x ∈ c.scalars, Scalar.Legible x) {lifetimes : List (String × Duration)}
    (horder : lifetimes.Perm c.tray.lifetimes.entries) :
    read? (c.document lifetimes).written.toSyntax = some c := by
  simp only [scalars, List.forall_mem_cons, List.forall_mem_append] at hscalars
  obtain ⟨hconfidence, hbandit, hguard, hmotion⟩ := hscalars
  rw [Scalar.legible_iff] at hconfidence
  have htime : Reader.nullable Reader.int (Json.ofOption .integer c.installTime).written.toSyntax =
      some c.installTime :=
    Reader.nullable_written (fun _ hnull => nomatch hnull) fun n hn =>
      Reader.int_written (h.installTime n hn)
  obtain ⟨fields, hread, hfields⟩ := Fields.exists_read?_written
    [("maxTreeKeys", .integer c.maxTreeKeys),
      ("minConfidence", Json.ofScalar c.minConfidence),
      ("installTimeMs", Json.ofOption .integer c.installTime),
      ("eventMaxAgeMs", .integer c.eventMaxAge), ("rateLimits", c.rateLimits.toJson),
      ("merge", c.digest.toJson), ("bandit", c.bandit.toJson), ("guard", c.guard.toJson),
      ("tray", c.tray.document lifetimes), ("motion", c.motion.toJson),
      ("sampling", c.sampling.toJson)]
    ["maxTreeKeys", "minConfidence", "installTimeMs", "eventMaxAgeMs", "rateLimits", "merge",
      "bandit", "guard", "tray", "motion", "sampling"] rfl (by decide)
  simp only [List.forall_mem_cons] at hfields
  obtain ⟨hkeysField, hconfidenceField, htimeField, hageField, hlimitsField, hdigestField,
    hbanditField, hguardField, htrayField, hmotionField, hsamplingField, -⟩ := hfields
  rw [read?, document, Fields.bind_read? hread,
    hkeysField.bind_withDefault (Reader.nat_written h.maxTreeKeys),
    hconfidenceField.bind_withDefault hconfidence, htimeField.bind_withDefault htime,
    hageField.bind_withDefault (Reader.int_written h.eventMaxAge),
    hlimitsField.bind_withDefault (FiringLimits.read?_toJson h.rateLimits),
    hdigestField.bind_withDefault (DigestPolicy.read?_toJson h.digest),
    hbanditField.bind_withDefault (BanditSettings.read?_toJson h.bandit hbandit),
    hguardField.bind_withDefault (GuardSettings.read?_toJson h.guard hguard),
    htrayField.bind_withDefault (TraySettings.read?_document h.tray horder),
    hmotionField.bind_withDefault (MotionThresholds.read?_toJson h.motion hmotion),
    hsamplingField.bind_withDefault (SamplingPlan.read?_toJson h.sampling)]
  rfl

/-- The text of some settings is read as these settings, in whatever order the lifetimes of the tray
are written. -/
theorem importText_document {c : Settings α} (h : c.Fits)
    (hscalars : ∀ x ∈ c.scalars, Scalar.Legible x) {lifetimes : List (String × Duration)}
    (horder : lifetimes.Perm c.tray.lifetimes.entries) :
    importText (c.document lifetimes).pretty = .ok c := by
  rw [importText, Syntax.parse?_pretty_eq, Option.bind_some, read?_document h hscalars horder]

end Settings

/-- The text of settings whose scalars are finite is read as these settings, in whatever order the
lifetimes of the tray are written, if the text of a finite scalar is read as this scalar. The text
of some places makes them the places of any engine. -/
theorem documents_restore {α : Type} [Scalar α] [Recorded α] :
    (∀ c : Settings α, c.Fits → (∀ x ∈ c.scalars, Scalar.isFinite x) →
      (∀ x ∈ c.scalars, Scalar.isFinite x → Scalar.Legible x) →
        Settings.importText c.exportText = .ok c ∧
          ∀ lifetimes : List (String × Duration), lifetimes.Perm c.tray.lifetimes.entries →
            Settings.importText (c.document lifetimes).pretty = .ok c) ∧
    ∀ places : Places, (∀ e ∈ places.entries, e.2.Fits) →
      Places.importText places.exportText = .ok places ∧
        ∀ engine : Engine α, engine.loadPlaces places.exportText =
          (.ok places.size, { engine with places := places }) := by
  refine ⟨fun c hfits hfinite htext => ?_, fun places hfits => ?_⟩
  · have hscalars : ∀ x ∈ c.scalars, Scalar.Legible x := fun x hx => htext x hx (hfinite x hx)
    refine ⟨?_, fun lifetimes horder => Settings.importText_document hfits hscalars horder⟩
    rw [Settings.exportText, Settings.toJson_eq]
    exact Settings.importText_document hfits hscalars (List.Perm.refl _)
  · have hread : Places.importText places.exportText = .ok places :=
      Places.importText_exportText hfits
    exact ⟨hread, fun engine => by rw [Engine.loadPlaces, hread]⟩

/-- Settings of which many are not the usual ones. -/
def Settings.abroad : Settings Float :=
  { Settings.standard with
    maxTreeKeys := 7
    minConfidence := 0.3
    installTime := some 1700000000000
    bandit := ⟨.linUcb, 0.2, -0.0, 1e300, .full, some 18446744073709551615⟩
    guard := { GuardSettings.standard with ranges := [⟨"Höhe \"m\"", -0.1, 8848.86, 5e-324⟩] }
    tray := ⟨Dictionary.ofList [("wärme", 60000), ("", -1)], some (-210)⟩
    sampling := { SamplingPlan.standard with walking := ⟨1000, none, 250⟩ } }

theorem documents_restore_abroad :
    Settings.importText Settings.abroad.exportText = .ok Settings.abroad ∧
      Settings.importText (Settings.abroad.document [("wärme", 60000), ("", -1)]).pretty =
        .ok Settings.abroad ∧
      Places.importText (Places.exportText (Dictionary.empty.insert "家 \"1\""
        ⟨Dictionary.empty.insert "net" (), ∅, [23, 0], -1, 4294967295⟩)) =
          .ok (Dictionary.empty.insert "家 \"1\""
            ⟨Dictionary.empty.insert "net" (), ∅, [23, 0], -1, 4294967295⟩) := by
  have hfinite : ∀ x ∈ Settings.abroad.scalars, Scalar.isFinite x := by decide +kernel
  have htext : ∀ x ∈ Settings.abroad.scalars,
      Binary64.ofDecimal (Recorded.decimal x).written = x := by
    decide +kernel
  have hsettings := documents_restore.1 Settings.abroad
    ⟨by decide, by decide, by decide, by decide, by decide, by decide, by decide, by decide,
      by decide, by decide⟩
    hfinite fun x hx hx' => Scalar.legible_of_float hx' (htext x hx)
  exact ⟨hsettings.1, hsettings.2 _ (by decide),
    ((documents_restore (α := Float)).2 _ (by decide)).1⟩

end ContextAdvisor
