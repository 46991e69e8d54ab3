import FreshCore.Device.Readings

/-!
# The thermal monitor

The zones are looked for once and then read at each check. Zones that report millidegrees
are rounded down to degrees, and a zone that cannot be read raises no objection, so the
device passes for cool also when nothing is known about it.
-/

namespace FreshCore.Device

open Posix Config

/-! ## The monitor -/

/-- `/sys/class/thermal`: the entries of the directory and the files, each if it opens. -/
structure ThermalSysfs where
  entries : Option (List Name)
  file : Bytes → Option Bytes

/-- One turn of the loop of `DetectThermalZones`. -/
def detectZone (sysfs : ThermalSysfs) (zones : List Bytes) (name : Name) : List Bytes :=
  if (lit "thermal_zone").isPrefixOf name then
    let path := lit "/sys/class/thermal/" ++ name ++ lit "/temp"
    if (sysfs.file path).isSome then zones ++ [path] else zones
  else zones

/-- `DetectThermalZones` adds to the zones that are known. -/
def detectThermalZones (sysfs : ThermalSysfs) (zones : List Bytes) : List Bytes :=
  match sysfs.entries with
  | none => zones
  | some entries => entries.foldl (detectZone sysfs) zones

/-- `file.is_open() && (file >> temp)` -/
def readTemp (sysfs : ThermalSysfs) (path : Bytes) : Option Int32 := do
  let text ← sysfs.file path
  let (temp, _) ← readInt text
  return temp

/-- `IsThermalSafe` with the known zones `zones`, and the zones it leaves known. -/
def checkThermal (config : Configuration) (sysfs : ThermalSysfs) (zones : List Bytes) :
    Bool × List Bytes :=
  if !config.thermalProtection then (true, zones)
  else
    let zones := if zones = [] then detectThermalZones sysfs zones else zones
    if zones = [] then (false, zones)
    else (zones.all fun path => zoneIsSafe (readTemp sysfs path), zones)

/-- The verdict is that on what was read from the zones that are known then. -/
theorem checkThermal_eq (config : Configuration) (sysfs : ThermalSysfs) (zones : List Bytes) :
    (checkThermal config sysfs zones).1 =
      isThermalSafe config ((checkThermal config sysfs zones).2.map (readTemp sysfs)) := by
  unfold checkThermal isThermalSafe
  cases config.thermalProtection with
  | false => rfl
  | true =>
      have hon : ¬ (!true) = true := by decide
      rw [if_neg hon, if_neg hon]
      generalize (if zones = [] then detectThermalZones sysfs zones else zones) = known
      cases known with
      | nil => rfl
      | cons path rest => simp [Function.comp_def]

/-! ## What a safe verdict says -/

/-- The temperature a zone reports, which is in millidegrees if it is above 1000. -/
def milliCelsius (temp : Int32) : Int :=
  if 1000 < temp.toInt then temp.toInt else temp.toInt * 1000

/-- Some zone could be read, and every zone that could be is at most at 45 degrees. -/
def KnownCool (zones : List (Option Int32)) : Prop :=
  (∃ temp, some temp ∈ zones) ∧ ∀ temp, some temp ∈ zones → milliCelsius temp ≤ 45000

/-- There is no zone; or some zone could be read, and one of them is at 46 degrees or more,
or none strictly between 45 and 46. -/
def TellsSafety (zones : List (Option Int32)) : Prop :=
  zones = [] ∨ (∃ temp, some temp ∈ zones) ∧
    ((∃ temp, some temp ∈ zones ∧ 46000 ≤ milliCelsius temp) ∨
      ∀ temp, some temp ∈ zones → ¬ (45000 < milliCelsius temp ∧ milliCelsius temp < 46000))

/-- Rounding down makes 46 degrees the limit. -/
theorem zoneIsSafe_some (temp : Int32) :
    zoneIsSafe (some temp) = true ↔ milliCelsius temp < 46000 := by
  have h1000 : (1000 : Int32).toInt = 1000 := rfl
  have h45 : (45 : Int32).toInt = 45 := rfl
  simp only [zoneIsSafe, milliCelsius, Bool.not_eq_true', decide_eq_false_iff_not, apply_ite,
    Int32.lt_iff_toInt_lt, h1000, h45]
  split
  next hmilli =>
    rw [Int32.toInt_div_of_ne_right _ _ (by decide), h1000, Int.tdiv_eq_ediv_of_nonneg (by omega)]
    omega
  next => omega

variable {config : Configuration}

theorem isThermalSafe_iff (hon : config.thermalProtection = true) (zones : List (Option Int32)) :
    isThermalSafe config zones = true ↔
      zones ≠ [] ∧ ∀ temp, some temp ∈ zones → milliCelsius temp < 46000 := by
  rw [isThermalSafe, if_neg (by simp [hon])]
  by_cases hzones : zones = []
  · simp [hzones]
  · rw [if_neg hzones, List.all_eq_true, and_iff_right hzones]
    constructor
    · intro hall temp htemp
      exact (zoneIsSafe_some temp).mp (hall _ htemp)
    · intro hall zone hzone
      cases zone with
      | none => rfl
      | some temp => exact (zoneIsSafe_some temp).mpr (hall temp hzone)

/-- The verdict is right unless nothing was read, or the hottest zone is between 45 and 46
degrees. -/
theorem isThermalSafe_exact_iff (hon : config.thermalProtection = true)
    (zones : List (Option Int32)) :
    (isThermalSafe config zones = true ↔ KnownCool zones) ↔ TellsSafety zones := by
  rw [isThermalSafe_iff hon]
  constructor
  · intro hexact
    by_cases hzones : zones = []
    · exact Or.inl hzones
    · refine Or.inr ?_
      by_cases hall : ∀ temp, some temp ∈ zones → milliCelsius temp < 46000
      · obtain ⟨hread, hcool⟩ := hexact.mp ⟨hzones, hall⟩
        refine ⟨hread, Or.inr fun temp htemp hbetween => ?_⟩
        have := hcool temp htemp
        omega
      · push Not at hall
        obtain ⟨temp, htemp, hhot⟩ := hall
        exact ⟨⟨temp, htemp⟩, Or.inl ⟨temp, htemp, by omega⟩⟩
  · rintro (rfl | ⟨hread, htell⟩)
    · simp [KnownCool]
    · constructor
      · rintro ⟨_, hall⟩
        refine ⟨hread, fun temp htemp => ?_⟩
        rcases htell with ⟨hot, hhot, hover⟩ | hnone
        · have := hall hot hhot
          omega
        · have := hnone temp htemp
          have := hall temp htemp
          omega
      · rintro ⟨⟨temp, htemp⟩, hcool⟩
        refine ⟨List.ne_nil_of_mem htemp, fun other hother => ?_⟩
        have := hcool other hother
        omega

/-- A zone at 45 degrees and one that cannot be read. -/
theorem isThermalSafe_limit :
    (isThermalSafe {} [some 45000, none] = true ↔ KnownCool [some 45000, none]) ↔
      TellsSafety [some 45000, none] :=
  isThermalSafe_exact_iff rfl [some 45000, none]

/-- The device passes for safe when its one zone cannot be read, and at 45.5 degrees. -/
theorem isThermalSafe_lenient :
    ¬ (isThermalSafe {} [none] = true ↔ KnownCool [none]) ∧
      ¬ (isThermalSafe {} [some 45500] = true ↔ KnownCool [some 45500]) := by
  constructor
  · intro hexact
    obtain ⟨⟨temp, htemp⟩, _⟩ := hexact.mp (by decide)
    simp at htemp
  · intro hexact
    have hcool := (hexact.mp (by decide)).2 45500 List.mem_cons_self
    revert hcool
    decide

end FreshCore.Device
