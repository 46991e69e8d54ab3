import Mathlib.Data.UInt
import FreshCore.Cache.GrowthRate

/-!
# The size of the growth rate

The growth by the day is computed on 64 bits and kept on 32, and two tests read what is
kept: fast growth ends the cooldown of a package and raises its priority. A cache that
grows by 4 GiB a day looks to them like one that hardly grows.
-/

namespace FreshCore

open Posix Imperative Config Device Cache

/-- The growth by the day, from the last scan to one that measures `size`. -/
def dailyGrowth (now size : UInt64) (state : PackageState) : Nat :=
  (size.toNat - state.lastSizeBytes.toNat) /
    ((now.toNat - state.lastScanMs.toNat) / Pass.msPerDay)

/-- The turn of the directory computes the growth rate anew. -/
structure UpdatesGrowth (now size : UInt64) (state : PackageState) : Prop where
  scanned : isCoolingDown now state = false
  days : 0 < (now.toNat - state.lastScanMs.toNat) / Pass.msPerDay
  grown : state.lastSizeBytes < size

/-- The record says of both limits what is true of the growth. -/
def KeepsMagnitude (now size : UInt64) (state : PackageState) : Prop :=
  let stored := (scanState now state size).growthRateBytesPerDay.toNat
  (500 * 2 ^ 20 ≤ stored ↔ 500 * 2 ^ 20 ≤ dailyGrowth now size state) ∧
    (250 * 2 ^ 20 < stored ↔ 250 * 2 ^ 20 < dailyGrowth now size state)

instance (now size : UInt64) (state : PackageState) :
    Decidable (KeepsMagnitude now size state) := by
  unfold KeepsMagnitude
  infer_instance

/-- The growth by the day lies on or less than 500 MiB above a multiple of 4 GiB. -/
def WrapsToSlow (growth : Nat) : Prop :=
  ∃ wraps, 0 < wraps ∧ wraps * 2 ^ 32 ≤ growth ∧ growth < wraps * 2 ^ 32 + 500 * 2 ^ 20

/-- What is kept of the growth. -/
theorem UpdatesGrowth.stored {now size : UInt64} {state : PackageState}
    (h : UpdatesGrowth now size state) :
    (scanState now state size).growthRateBytesPerDay.toNat =
      dailyGrowth now size state % 2 ^ 32 := by
  have hdays := daysSinceScan_toNat now state
  have hpos : 0 < daysSinceScan now state := by
    rw [UInt64.lt_iff_toNat_lt, hdays]
    exact h.days
  have hdiff := UInt64.toNat_sub_of_le _ _ (UInt64.le_of_lt h.grown)
  rw [scanState, if_neg (by simp [h.scanned]), recordScan]
  dsimp only
  rw [if_pos ⟨hpos, h.grown⟩, UInt64.toNat_toUInt32, UInt64.toNat_div, hdiff, dailyGrowth, ← hdays]

theorem mod_keeps_iff (growth : Nat) :
    ((500 * 2 ^ 20 ≤ growth % 2 ^ 32 ↔ 500 * 2 ^ 20 ≤ growth) ∧
      (250 * 2 ^ 20 < growth % 2 ^ 32 ↔ 250 * 2 ^ 20 < growth)) ↔ ¬ WrapsToSlow growth := by
  constructor
  · rintro ⟨hmassive, _⟩ ⟨wraps, hwraps, hlow, hhigh⟩
    have hwrapped : 2 ^ 32 ≤ growth := le_trans (Nat.le_mul_of_pos_left _ hwraps) hlow
    have hkept := hmassive.mpr (le_trans (by norm_num) hwrapped)
    clear hmassive
    omega
  · intro hwraps
    by_cases hsmall : growth < 2 ^ 32
    · rw [Nat.mod_eq_of_lt hsmall]
      exact ⟨Iff.rfl, Iff.rfl⟩
    · have hkept : 500 * 2 ^ 20 ≤ growth % 2 ^ 32 := by
        by_contra hlow
        exact hwraps ⟨growth / 2 ^ 32, by omega, by omega, by omega⟩
      constructor <;> omega

/-- The record keeps the size of the growth except for growth that wraps around to less than
500 MiB a day. -/
theorem scanState_keepsMagnitude_iff {now size : UInt64} {state : PackageState}
    (h : UpdatesGrowth now size state) :
    KeepsMagnitude now size state ↔ ¬ WrapsToSlow (dailyGrowth now size state) := by
  rw [← mod_keeps_iff, ← h.stored]
  rfl

/-- A cache that was empty yesterday, and has `size` bytes a day later. -/
def emptyYesterday : PackageState where
  hash := hashPackageName (lit "com.a")
  lastScanMs := 1700000000000

def today : UInt64 := 1700086400000

theorem updatesGrowth_emptyYesterday {size : UInt64} (hsize : 0 < size) :
    UpdatesGrowth today size emptyYesterday where
  scanned := by decide +kernel
  days := by decide +kernel
  grown := hsize

/-- Growth by 5 GiB is kept as growth by 1 GiB, which passes both tests. -/
theorem scanState_keepsMagnitude_fiveGiB : KeepsMagnitude today (5 * 2 ^ 30) emptyYesterday := by
  refine (scanState_keepsMagnitude_iff (updatesGrowth_emptyYesterday (by decide))).mpr ?_
  rintro ⟨wraps, hwraps, hlow, hhigh⟩
  have hgrowth : dailyGrowth today (5 * 2 ^ 30) emptyYesterday = 5 * 2 ^ 30 := by decide +kernel
  rw [hgrowth] at hlow hhigh
  omega

/-- Growth by 4 GiB is kept as none. -/
theorem scanState_losesMagnitude :
    ¬ ∀ (now size : UInt64) (state : PackageState), UpdatesGrowth now size state →
      KeepsMagnitude now size state := by
  intro hkeeps
  have hfour := hkeeps today (4 * 2 ^ 30) emptyYesterday
    (updatesGrowth_emptyYesterday (by decide))
  revert hfour
  decide +kernel

end FreshCore
