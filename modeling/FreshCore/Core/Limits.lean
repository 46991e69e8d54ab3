import FreshCore.Arithmetic.Checked
import FreshCore.Cache.PackageScanner
import FreshCore.Diagnostics.Diagnostics
import FreshCore.Power.IdleDetector

/-!
# Limits in their units

The configuration gives its limits in minutes, megabytes and milliseconds. The megabytes are
converted before they are multiplied; the minutes are multiplied as an `int`, which does not
hold the seconds of every number of minutes that it holds.
-/

namespace FreshCore

open Posix Config Arithmetic MachineInt

/-! ## The same computations with a check at each step -/

/-- `idle_delay_minutes * 60` -/
def requiredDelaySecChecked (config : Configuration) : Option UInt64 := do
  let seconds ← checkedMul config.idleDelayMinutes 60
  checkedConvert UInt64 seconds

/-- A cast, and the two multiplications after it. -/
def megabytesChecked (mb : Int32) : Option UInt64 := do
  let megabytes ← checkedConvert UInt64 mb
  let kilobytes ← checkedMul megabytes 1024
  checkedMul kilobytes 1024

def maxCleanupBytesChecked (config : Configuration) : Option UInt64 :=
  megabytesChecked config.maxCleanupMbPerRun

def cacheThresholdBytesChecked (config : Configuration) : Option UInt64 :=
  megabytesChecked config.cacheThresholdMb

def maxBatchTimeMsChecked (config : Configuration) : Option UInt64 :=
  checkedConvert UInt64 config.maxBatchTimeMs

/-- The limit is computed without leaving a type on the way, and is the number that is meant. -/
def ComputedExactly (computed : Option UInt64) (limit : UInt64) (exact : Int) : Prop :=
  computed = some limit ∧ limit.toNat = exact

structure LimitsExact (config : Configuration) : Prop where
  idleDelay : ComputedExactly (requiredDelaySecChecked config) (requiredDelaySec config)
    (config.idleDelayMinutes.toInt * 60)
  cleanup : ComputedExactly (maxCleanupBytesChecked config) (maxCleanupBytes config)
    (config.maxCleanupMbPerRun.toInt * 2 ^ 20)
  threshold : ComputedExactly (cacheThresholdBytesChecked config) (cacheThresholdBytes config)
    (config.cacheThresholdMb.toInt * 2 ^ 20)
  batchTime : ComputedExactly (maxBatchTimeMsChecked config) (maxBatchTimeMs config)
    config.maxBatchTimeMs.toInt

/-- The numbers that a limit is set to are not negative. -/
structure LimitsNonnegative (config : Configuration) : Prop where
  idleDelay : 0 ≤ config.idleDelayMinutes.toInt
  cleanup : 0 ≤ config.maxCleanupMbPerRun.toInt
  threshold : 0 ≤ config.cacheThresholdMb.toInt
  batchTime : 0 ≤ config.maxBatchTimeMs.toInt

/-! ## Where the steps stay in range -/

theorem fits_uint64_of_int32 {n : Int32} (hn : 0 ≤ n.toInt) :
    Fits UInt64 (toInt n) := by
  have hlt := n.toInt_lt
  constructor
  · exact hn
  · change n.toInt ≤ 2 ^ 64 - 1
    omega

theorem fits_mul_1024 {count : UInt64} (hcount : toInt count < 2 ^ 54) :
    Fits UInt64 (toInt count * toInt (1024 : UInt64)) := by
  have hnonneg : 0 ≤ toInt count := Int.natCast_nonneg count.toNat
  constructor
  · change 0 ≤ toInt count * 1024
    omega
  · change toInt count * 1024 ≤ 2 ^ 64 - 1
    omega

/-- A limit that is set in megabytes. -/
theorem megabytesChecked_exact {mb : Int32} (hmb : 0 ≤ mb.toInt) :
    ComputedExactly (megabytesChecked mb) (.ofInt mb.toInt * 1024 * 1024)
      (mb.toInt * 2 ^ 20) := by
  have hlt := mb.toInt_lt
  have hfits := fits_uint64_of_int32 hmb
  let megabytes : UInt64 := convert UInt64 mb
  have hmegabytes : toInt megabytes = mb.toInt := toInt_convert hfits
  have hkilobytes : Fits UInt64 (toInt megabytes * toInt (1024 : UInt64)) :=
    fits_mul_1024 (by omega)
  have hkilo : toInt (megabytes * 1024) = mb.toInt * 1024 := by
    rw [toInt_mul hkilobytes, hmegabytes]
    rfl
  have hbytes : Fits UInt64 (toInt (megabytes * 1024) * toInt (1024 : UInt64)) :=
    fits_mul_1024 (by omega)
  constructor
  · rw [megabytesChecked, checkedConvert_eq_some.mpr ⟨hfits, rfl⟩, Option.bind_eq_bind,
      Option.bind_some, checkedMul_eq_some.mpr ⟨hkilobytes, rfl⟩, Option.bind_some]
    exact checkedMul_eq_some.mpr ⟨hbytes, rfl⟩
  · change toInt (megabytes * 1024 * 1024) = _
    rw [toInt_mul hbytes, hkilo]
    change mb.toInt * 1024 * 1024 = _
    omega

/-- The seconds of the idle delay, where an `int` holds them. -/
theorem requiredDelaySecChecked_exact_iff {config : Configuration}
    (hdelay : 0 ≤ config.idleDelayMinutes.toInt) :
    ComputedExactly (requiredDelaySecChecked config) (requiredDelaySec config)
      (config.idleDelayMinutes.toInt * 60) ↔ config.idleDelayMinutes.toInt ≤ 35791394 := by
  have h60 : toInt (60 : Int32) = 60 := rfl
  have hrange : Fits Int32 (toInt config.idleDelayMinutes * toInt (60 : Int32)) ↔
      config.idleDelayMinutes.toInt ≤ 35791394 := by
    rw [h60]
    change -2 ^ 31 ≤ config.idleDelayMinutes.toInt * 60 ∧
      config.idleDelayMinutes.toInt * 60 ≤ 2 ^ 31 - 1 ↔ _
    omega
  rw [← hrange]
  constructor
  · rintro ⟨hcomputed, _⟩
    obtain ⟨seconds, hseconds, _⟩ := Option.bind_eq_some_iff.mp hcomputed
    exact (checkedMul_eq_some.mp hseconds).1
  · intro hfits
    have hseconds : (config.idleDelayMinutes * 60).toInt = config.idleDelayMinutes.toInt * 60 :=
      toInt_mul hfits
    have hconvert : Fits UInt64 (toInt (config.idleDelayMinutes * 60)) :=
      fits_uint64_of_int32 (by omega)
    constructor
    · rw [requiredDelaySecChecked, checkedMul_eq_some.mpr ⟨hfits, rfl⟩, Option.bind_eq_bind,
        Option.bind_some]
      exact checkedConvert_eq_some.mpr ⟨hconvert, rfl⟩
    · exact (toInt_convert hconvert).trans hseconds

/-- The limits are exact as long as the idle delay is at most 35791394 minutes. -/
theorem limitsExact_iff {config : Configuration} (hnonneg : LimitsNonnegative config) :
    LimitsExact config ↔ config.idleDelayMinutes.toInt ≤ 35791394 := by
  rw [← requiredDelaySecChecked_exact_iff hnonneg.idleDelay]
  constructor
  · exact LimitsExact.idleDelay
  · intro hdelay
    have hbatch := fits_uint64_of_int32 hnonneg.batchTime
    constructor
    · exact hdelay
    · exact megabytesChecked_exact hnonneg.cleanup
    · exact megabytesChecked_exact hnonneg.threshold
    · exact ⟨checkedConvert_eq_some.mpr ⟨hbatch, rfl⟩, toInt_convert hbatch⟩

theorem limitsExact_default :
    LimitsExact {} ↔ ({} : Configuration).idleDelayMinutes.toInt ≤ 35791394 :=
  limitsExact_iff ⟨by decide, by decide, by decide, by decide⟩

/-- A configuration file that asks for a delay of 136 years. -/
def longDelayConfig : Configuration :=
  (loadConfig {} (some (lit "idle_delay_minutes=71582789\n"))).2

/-- The delay of 136 years is over after 44 seconds. -/
theorem longDelayConfig_limits :
    LimitsNonnegative longDelayConfig ∧ ¬ LimitsExact longDelayConfig := by
  have hconfig : longDelayConfig = { idleDelayMinutes := 71582789 } := by decide +kernel
  constructor
  · rw [hconfig]
    constructor <;> decide
  · intro hexact
    have hdelay := hexact.idleDelay.2
    have hseconds : (requiredDelaySec longDelayConfig).toNat = 44 := by decide +kernel
    have hminutes : longDelayConfig.idleDelayMinutes.toInt = 71582789 := by decide +kernel
    rw [hseconds, hminutes] at hdelay
    omega

end FreshCore
