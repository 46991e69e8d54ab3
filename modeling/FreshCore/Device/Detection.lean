import FreshCore.Posix.Stdio
import FreshCore.Power.ThermalMonitor
import FreshCore.Imperative.Remember

/-!
# The nodes the checks read

The checks look for their nodes below `/sys` and keep the paths in static variables. What
becomes of a node afterwards is not looked at again, and a backlight that is not there at
the first check is never used.
-/

namespace FreshCore.Device

open Posix Config Imperative

/-! ## The checks with their static variables -/

/-- What there is to read when a check is made. -/
structure Surroundings where
  sysfs : ThermalSysfs
  /-- What `dumpsys power` prints of `mWakefulness=`, if it can be run. -/
  power : Option Bytes
  /-- What `dumpsys window` prints of `mCurrentFocus`, if it can be run. -/
  window : Option Bytes

structure Detected where
  backlightPath : Bytes := []
  screenSupported : Bool := true
  batteryCapacityPath : Bytes := []
  batteryStatusPath : Bytes := []
  thermalZones : List Bytes := []
  deriving DecidableEq, Repr

/-- `file.good()` of a file just opened. -/
def ThermalSysfs.opens (sysfs : ThermalSysfs) (path : Bytes) : Bool := (sysfs.file path).isSome

/-- `file.is_open() && (file >> number)` -/
def ThermalSysfs.number (sysfs : ThermalSysfs) (path : Bytes) : Option Int32 := do
  let (number, _) ← readInt (← sysfs.file path)
  return number

/-- `file.is_open() && (file >> word)` -/
def ThermalSysfs.word (sysfs : ThermalSysfs) (path : Bytes) : Option Bytes := do
  let (word, _) ← readWord (← sysfs.file path)
  return word

def screenPaths : List Bytes :=
  ["/sys/class/backlight/panel0-backlight/brightness",
    "/sys/class/leds/lcd-backlight/brightness",
    "/sys/class/backlight/intel_backlight/brightness",
    "/sys/class/backlight/acpi_video0/brightness"].map lit

def detectScreenNode (sysfs : ThermalSysfs) (detected : Detected) : Detected :=
  match screenPaths.find? sysfs.opens with
  | some path => { detected with backlightPath := path }
  | none => { detected with screenSupported := false }

/-- `char buffer[128]` after `fgets` from the command's output, if that reads anything. -/
def readBuffer (output : Option Bytes) : Option Bytes := output.bind (firstPiece 128)

/-- The fallback of `IsScreenOn`. -/
def isAwake (power : Option Bytes) : Bool :=
  let result := (readBuffer power).getD []
  !(contains (lit "Asleep") result || contains (lit "Dozing") result)

def isScreenOn (around : Surroundings) (detected : Detected) : Bool × Detected :=
  let detected :=
    if detected.backlightPath = [] ∧ detected.screenSupported then
      detectScreenNode around.sysfs detected
    else detected
  if detected.backlightPath ≠ [] then
    match around.sysfs.number detected.backlightPath with
    | some brightness => (0 < brightness, detected)
    | none => (isAwake around.power, detected)
  else (isAwake around.power, detected)

/-- A heavy app counts only while the screen is on, which is checked first. -/
def isHeavyForegroundActivity (around : Surroundings) (detected : Detected) :
    Bool × Detected :=
  let (screenOn, detected) := isScreenOn around detected
  if !screenOn then (false, detected) else (isHeavyFocus (readBuffer around.window), detected)

def batteryBases : List Bytes :=
  ["/sys/class/power_supply/battery", "/sys/class/power_supply/bms",
    "/sys/class/power_supply/main"].map lit

def detectBatteryNodes (sysfs : ThermalSysfs) (detected : Detected) : Detected :=
  match batteryBases.find? fun base => sysfs.opens (base ++ lit "/capacity") with
  | some base =>
      { detected with
        batteryCapacityPath := base ++ lit "/capacity"
        batteryStatusPath := base ++ lit "/status" }
  | none => detected

def isBatterySafe (config : Configuration) (around : Surroundings) (detected : Detected) :
    Bool × Detected :=
  let detected :=
    if detected.batteryCapacityPath = [] then detectBatteryNodes around.sysfs detected
    else detected
  if detected.batteryCapacityPath = [] then (false, detected)
  else
    let isCharging : Bool :=
      match around.sysfs.word detected.batteryStatusPath with
      | some status => status = lit "Charging" ∨ status = lit "Full"
      | none => false
    if isCharging then (true, detected)
    else
      match around.sysfs.number detected.batteryCapacityPath with
      | some capacity => (config.minimumBatteryPercent < capacity, detected)
      | none => (false, detected)

inductive Check
  | screen
  | foreground
  | battery
  | thermal
  deriving DecidableEq, Repr

/-- A check that is made, and what there is to read then. -/
structure Asked where
  check : Check
  around : Surroundings

/-- The answer of the check, and the static variables it leaves. -/
def answer (config : Configuration) (detected : Detected) (asked : Asked) : Bool × Detected :=
  match asked.check with
  | .screen => isScreenOn asked.around detected
  | .foreground => isHeavyForegroundActivity asked.around detected
  | .battery => isBatterySafe config asked.around detected
  | .thermal =>
      let (safe, zones) := checkThermal config asked.around.sysfs detected.thermalZones
      (safe, { detected with thermalZones := zones })

/-- The static variables after the checks of a session so far. -/
def detectedAfter (config : Configuration) (past : List Asked) : Detected :=
  past.foldl (fun detected asked => (answer config detected asked).2) {}

/-! ## What they know -/

/-- What is known of the backlight: that there is none counts as found. -/
def Detected.backlight (detected : Detected) : Option (Option Bytes) :=
  if detected.backlightPath ≠ [] then some (some detected.backlightPath)
  else if detected.screenSupported then none
  else some none

/-- The capacity and the status file that are known. -/
def Detected.battery (detected : Detected) : Option (Bytes × Bytes) :=
  if detected.batteryCapacityPath = [] then none
  else some (detected.batteryCapacityPath, detected.batteryStatusPath)

def Detected.zones (detected : Detected) : Option (List Bytes) :=
  if detected.thermalZones = [] then none else some detected.thermalZones

/-- What a check finds out about the backlight if it is not known yet. -/
def Asked.backlight (asked : Asked) : Option (Option Bytes) :=
  if asked.check = .screen ∨ asked.check = .foreground then
    some (screenPaths.find? asked.around.sysfs.opens)
  else none

def Asked.battery (asked : Asked) : Option (Bytes × Bytes) :=
  if asked.check = .battery then
    (batteryBases.find? fun base => asked.around.sysfs.opens (base ++ lit "/capacity")).map
      fun base => (base ++ lit "/capacity", base ++ lit "/status")
  else none

def Asked.zones (config : Configuration) (asked : Asked) : Option (List Bytes) :=
  if asked.check = .thermal ∧ config.thermalProtection then
    let zones := detectThermalZones asked.around.sysfs []
    if zones = [] then none else some zones
  else none

def Surroundings.screenReading (around : Surroundings) (backlight : Option Bytes) :
    ScreenReading where
  brightness := backlight.bind around.sysfs.number
  wakefulness := (readBuffer around.power).getD []

def Surroundings.batteryReading (around : Surroundings) (battery : Option (Bytes × Bytes)) :
    BatteryReading where
  nodeFound := battery.isSome
  status := battery.bind fun (_, statusPath) => around.sysfs.word statusPath
  capacity := battery.bind fun (capacityPath, _) => around.sysfs.number capacityPath

variable {config : Configuration}

theorem screenPaths_ne_nil {path : Bytes} (hpath : path ∈ screenPaths) : path ≠ [] := by
  rintro rfl
  revert hpath
  decide +kernel

/-- The buffer holds no more than is looked at. -/
@[simp] theorem take_readBuffer (output : Option Bytes) :
    ((readBuffer output).getD []).take 127 = (readBuffer output).getD [] := by
  rw [List.take_eq_self_iff]
  cases hread : readBuffer output with
  | none => simp
  | some piece =>
      obtain ⟨stream, _, hpiece⟩ := Option.bind_eq_some_iff.mp hread
      exact Nat.le_of_lt_succ (length_firstPiece_lt (by decide) hpiece)

/-- The detection that `IsScreenOn` begins with is all it changes, and the answer is that on
what is read from the node that is known then. -/
theorem isScreenOn_eq (around : Surroundings) (detected : Detected) :
    isScreenOn around detected =
      let known := if detected.backlightPath = [] ∧ detected.screenSupported then
          detectScreenNode around.sysfs detected
        else detected
      ((around.screenReading known.backlight.join).isOn, known) := by
  unfold isScreenOn
  generalize (if detected.backlightPath = [] ∧ detected.screenSupported then
    detectScreenNode around.sysfs detected else detected) = known
  dsimp only
  unfold Detected.backlight Surroundings.screenReading ScreenReading.isOn
  by_cases hpath : known.backlightPath = []
  · have hjoin : (if known.screenSupported = true then none
        else some (none : Option Bytes)).join = none := by split <;> rfl
    simp [hpath, hjoin, isAwake]
  · simp only [hpath, ne_eq, not_false_eq_true, if_true, Option.join_some, Option.bind_some]
    cases around.sysfs.number known.backlightPath with
    | none => simp [isAwake]
    | some brightness => rfl

theorem isBatterySafe_eq (config : Configuration) (around : Surroundings)
    (detected : Detected) :
    isBatterySafe config around detected =
      let known := if detected.batteryCapacityPath = [] then
          detectBatteryNodes around.sysfs detected
        else detected
      ((around.batteryReading known.battery).isSafe config, known) := by
  unfold isBatterySafe
  generalize (if detected.batteryCapacityPath = [] then
    detectBatteryNodes around.sysfs detected else detected) = known
  dsimp only
  unfold Detected.battery Surroundings.batteryReading BatteryReading.isSafe
  by_cases hpath : known.batteryCapacityPath = []
  · simp [hpath]
  · simp only [hpath, if_false, Option.isSome_some, Bool.not_true, Option.bind_some]
    cases around.sysfs.word known.batteryStatusPath with
    | none => cases around.sysfs.number known.batteryCapacityPath <;> simp
    | some status =>
        by_cases hcharging : status = lit "Charging" ∨ status = lit "Full"
        · simp [hcharging]
        · cases around.sysfs.number known.batteryCapacityPath <;> simp [hcharging]

/-! ## What is found first is kept -/

/-- The detection settles what is known of the backlight, for good. -/
theorem backlight_detectScreenNode {detected : Detected}
    (hnew : detected.backlightPath = [] ∧ detected.screenSupported = true) (sysfs : ThermalSysfs) :
    (detectScreenNode sysfs detected).backlight = some (screenPaths.find? sysfs.opens) := by
  unfold detectScreenNode
  cases hfind : screenPaths.find? sysfs.opens with
  | none => simp [Detected.backlight, hnew.1]
  | some path =>
      have hpath := screenPaths_ne_nil (List.mem_of_find?_eq_some hfind)
      simp [Detected.backlight, hpath]

theorem backlight_eq_none_iff {detected : Detected} :
    detected.backlight = none ↔
      detected.backlightPath = [] ∧ detected.screenSupported = true := by
  unfold Detected.backlight
  by_cases hpath : detected.backlightPath = [] <;> simp [hpath]

theorem backlight_isScreenOn (around : Surroundings) (detected : Detected) :
    (isScreenOn around detected).2.backlight =
      detected.backlight.or (some (screenPaths.find? around.sysfs.opens)) := by
  rw [isScreenOn_eq]
  dsimp only
  split
  next hnew =>
    rw [backlight_eq_none_iff.mpr hnew, Option.none_or, backlight_detectScreenNode hnew]
  next hknown =>
    obtain ⟨backlight, hbacklight⟩ :=
      Option.ne_none_iff_exists'.mp (mt backlight_eq_none_iff.mp hknown)
    rw [hbacklight, Option.some_or]

theorem battery_isBatterySafe (around : Surroundings) (detected : Detected) :
    (isBatterySafe config around detected).2.battery =
      detected.battery.or
        ((batteryBases.find? fun base => around.sysfs.opens (base ++ lit "/capacity")).map
          fun base => (base ++ lit "/capacity", base ++ lit "/status")) := by
  rw [isBatterySafe_eq]
  dsimp only
  unfold Detected.battery
  split
  next hnew =>
    have hne : lit "/capacity" ≠ [] := by decide
    unfold detectBatteryNodes
    cases batteryBases.find? fun base => around.sysfs.opens (base ++ lit "/capacity") with
    | none => simp [hnew]
    | some base => simp [hne]
  next hknown => simp

/-- The battery check leaves the other variables alone, and likewise each check below. -/
theorem isBatterySafe_frame (around : Surroundings) (detected : Detected) :
    (isBatterySafe config around detected).2.backlight = detected.backlight ∧
      (isBatterySafe config around detected).2.zones = detected.zones := by
  rw [isBatterySafe_eq]
  dsimp only
  unfold detectBatteryNodes
  split
  next => split <;> exact ⟨rfl, rfl⟩
  next => exact ⟨rfl, rfl⟩

theorem isScreenOn_frame (around : Surroundings) (detected : Detected) :
    (isScreenOn around detected).2.battery = detected.battery ∧
      (isScreenOn around detected).2.zones = detected.zones := by
  rw [isScreenOn_eq]
  dsimp only
  unfold detectScreenNode
  split
  next => split <;> exact ⟨rfl, rfl⟩
  next => exact ⟨rfl, rfl⟩

@[simp] theorem isHeavyForegroundActivity_eq (around : Surroundings) (detected : Detected) :
    isHeavyForegroundActivity around detected =
      ((isScreenOn around detected).1 && isHeavyFocus (readBuffer around.window),
        (isScreenOn around detected).2) := by
  unfold isHeavyForegroundActivity
  generalize isScreenOn around detected = result
  obtain ⟨screenOn, known⟩ := result
  cases screenOn <;> rfl

theorem zones_checkThermal (around : Surroundings) (detected : Detected) :
    { detected with
      thermalZones := (checkThermal config around.sysfs detected.thermalZones).2 }.zones =
      detected.zones.or
        (Asked.zones config { check := .thermal, around := around }) := by
  unfold checkThermal Detected.zones Asked.zones
  by_cases hon : config.thermalProtection = true
  · by_cases hzones : detected.thermalZones = []
    · simp [hon, hzones]
      split <;> simp_all
    · simp [hon, hzones]
  · simp [hon]

theorem answer_backlight :
    Remembers (fun detected asked => (answer config detected asked).2) Detected.backlight
      Asked.backlight := by
  intro detected asked
  obtain ⟨check, around⟩ := asked
  unfold remember Asked.backlight answer
  cases check with
  | screen => simp [backlight_isScreenOn]
  | foreground => simp [backlight_isScreenOn]
  | battery => simp [(isBatterySafe_frame around detected).1]
  | thermal => simp [Detected.backlight]

theorem answer_battery :
    Remembers (fun detected asked => (answer config detected asked).2) Detected.battery
      Asked.battery := by
  intro detected asked
  obtain ⟨check, around⟩ := asked
  unfold remember Asked.battery answer
  cases check with
  | screen => simp [(isScreenOn_frame around detected).1]
  | foreground => simp [(isScreenOn_frame around detected).1]
  | battery => simp [battery_isBatterySafe]
  | thermal => simp [Detected.battery]

theorem answer_zones :
    Remembers (fun detected asked => (answer config detected asked).2) Detected.zones
      (Asked.zones config) := by
  intro detected asked
  obtain ⟨check, around⟩ := asked
  unfold remember answer
  cases check with
  | screen => simp [(isScreenOn_frame around detected).2, Asked.zones]
  | foreground => simp [(isScreenOn_frame around detected).2, Asked.zones]
  | battery => simp [(isBatterySafe_frame around detected).2, Asked.zones]
  | thermal => exact zones_checkThermal around detected

/-! ## The answers over a session -/

/-- The answer of the check on what it reads from these nodes. -/
def Asked.verdict (config : Configuration) (asked : Asked) (backlight : Option Bytes)
    (battery : Option (Bytes × Bytes)) (zones : List Bytes) : Bool :=
  let screenOn := (asked.around.screenReading backlight).isOn
  match asked.check with
  | .screen => screenOn
  | .foreground => screenOn && isHeavyFocus (readBuffer asked.around.window)
  | .battery => (asked.around.batteryReading battery).isSafe config
  | .thermal => Device.isThermalSafe config (zones.map (readTemp asked.around.sysfs))

/-- A check answers on the nodes that it leaves known. -/
theorem answer_eq_verdict (detected : Detected) (asked : Asked) :
    (answer config detected asked).1 =
      let known := (answer config detected asked).2
      asked.verdict config known.backlight.join known.battery (known.zones.getD []) := by
  obtain ⟨check, around⟩ := asked
  unfold answer Asked.verdict
  cases check with
  | screen => simp [isScreenOn_eq]
  | foreground => simp [isScreenOn_eq]
  | battery => simp [isBatterySafe_eq]
  | thermal =>
      dsimp only
      rw [checkThermal_eq]
      congr 2
      unfold Detected.zones
      split
      next hnone => simpa using hnone
      next => rfl

/-- What is known after the check is what the checks up to it found first. -/
theorem answer_known (past : List Asked) (asked : Asked) :
    let known := (answer config (detectedAfter config past) asked).2
    known.backlight = (past ++ [asked]).findSome? Asked.backlight ∧
      known.battery = (past ++ [asked]).findSome? Asked.battery ∧
      known.zones = (past ++ [asked]).findSome? (Asked.zones config) := by
  have hknown : (answer config (detectedAfter config past) asked).2 =
      (past ++ [asked]).foldl (fun detected asked => (answer config detected asked).2) {} := by
    rw [List.foldl_append]
    rfl
  dsimp only
  rw [hknown]
  exact ⟨answer_backlight.view_foldl _ rfl, answer_battery.view_foldl _ rfl,
    answer_zones.view_foldl _ rfl⟩

/-- Whatever order the checks of a session come in, and whatever becomes of the nodes
meanwhile, each check answers on what it reads from the nodes that were found first. -/
theorem answer_reads (config : Configuration) (past : List Asked) (asked : Asked) :
    (answer config (detectedAfter config past) asked).1 =
      asked.verdict config ((past ++ [asked]).findSome? Asked.backlight).join
        ((past ++ [asked]).findSome? Asked.battery)
        (((past ++ [asked]).findSome? (Asked.zones config)).getD []) := by
  obtain ⟨hbacklight, hbattery, hzones⟩ := @answer_known config past asked
  rw [answer_eq_verdict]
  dsimp only
  rw [hbacklight, hbattery, hzones]

/-- A backlight that comes up after the first check, and is dark, does not turn the screen
off. -/
example :
    let before : Surroundings := ⟨⟨none, fun _ => none⟩, none, none⟩
    let later : Surroundings := ⟨⟨none, fun _ => some (lit "0\n")⟩, none, none⟩
    (answer {} (detectedAfter {} [⟨.screen, before⟩]) ⟨.screen, later⟩).1 = true ∧
      (answer {} {} ⟨.screen, later⟩).1 = false := by
  decide +kernel

end FreshCore.Device
