import FreshCore.Config.Configuration

/-!
# What the device reports

Each check of the daemon is a function of what it reads at that moment: sysfs
files, `/proc` files and the output of `dumpsys`. Reading a file can fail, and
then there is no value.
-/

namespace FreshCore.Device

open Posix Config

/-- `find(needle) != npos` -/
def contains (needle : Bytes) : Bytes → Bool
  | [] => needle.isEmpty
  | byte :: rest => needle.isPrefixOf (byte :: rest) || contains needle rest

/-- `clock_gettime` -/
structure Timespec where
  sec : UInt64
  nsec : UInt64
  deriving DecidableEq, Repr

/-- Milliseconds, as every `GetCurrentTimeMs` and `GetMonotonicTimeMs` computes them. -/
def Timespec.ms (ts : Timespec) : UInt64 := ts.sec * 1000 + ts.nsec / 1000000

/-- The brightness of the detected backlight node, if there is one that can be read,
and the `mWakefulness` line of `dumpsys power`. -/
structure ScreenReading where
  brightness : Option Int32
  wakefulness : Bytes
  deriving DecidableEq, Repr

/-- `IsScreenOn`: a readable backlight decides; otherwise the screen counts as on
unless the device is known to be asleep. -/
def ScreenReading.isOn (reading : ScreenReading) : Bool :=
  match reading.brightness with
  | some brightness => 0 < brightness
  | none =>
      !(contains (lit "Asleep") (reading.wakefulness.take 127) ||
        contains (lit "Dozing") (reading.wakefulness.take 127))

/-- Whether a battery node was found, and what its two files hold. -/
structure BatteryReading where
  nodeFound : Bool
  status : Option Bytes
  capacity : Option Int32
  deriving DecidableEq, Repr

/-- `IsBatterySafe` -/
def BatteryReading.isSafe (config : Configuration) (reading : BatteryReading) : Bool :=
  if !reading.nodeFound then false
  else if reading.status = some (lit "Charging") ∨ reading.status = some (lit "Full") then true
  else match reading.capacity with
    | some capacity => config.minimumBatteryPercent < capacity
    | none => false

/-- One turn of the loop over the zones: no reading is no objection. -/
def zoneIsSafe : Option Int32 → Bool
  | none => true
  | some temp => !(45 < if 1000 < temp then temp / 1000 else temp)

/-- `IsThermalSafe` on the temperatures of the detected zones. -/
def isThermalSafe (config : Configuration) (zones : List (Option Int32)) : Bool :=
  if !config.thermalProtection then true
  else if zones = [] then false
  else zones.all zoneIsSafe

/-- `IsMemoryPressureSafe`; the reading is the `some avg10` figure in hundredths of a
percent, and there is none where the kernel has no PSI. -/
def isMemoryPressureSafe : Option Nat → Bool
  | none => true
  | some someAvg10 => !(1500 < someAvg10)

def heavyApps : List Bytes :=
  ["whatsapp", "facebook", "instagram", "tiktok", "snapchat", "telegram", "youtube", "camera",
    "pubg", "callofduty", "genshin", "discord", "netflix", "maps", "chrome", "viber"].map lit

/-- The scan of the `mCurrentFocus` line in `IsHeavyForegroundActivity`. -/
def isHeavyFocus : Option Bytes → Bool
  | none => false
  | some currentFocus => heavyApps.any fun app => contains app (currentFocus.take 127)

/-! ## Installed packages -/

structure PackageInfo where
  name : Bytes
  dataDir : Bytes
  uid : Int32
  isSystem : Bool
  deriving DecidableEq, Repr

/-- `>>` into a string: a run of bytes that are not white space. -/
def readWord (text : Bytes) : Option (Bytes × Bytes) :=
  let text := text.dropWhile isSpace
  if text = [] then none
  else some (text.takeWhile (!isSpace ·), text.dropWhile (!isSpace ·))

/-- `>>` into an `int`, which fails without digits and out of range. -/
def readInt (text : Bytes) : Option (Int32 × Bytes) :=
  let (negative, digits, rest) := readSigned (text.dropWhile isSpace)
  let magnitude : Int := digitsToNat digits
  let value := if negative then -magnitude else magnitude
  if digits = [] ∨ value < Int32.minValue.toInt ∨ Int32.maxValue.toInt < value then none
  else some (.ofInt value, rest)

/-- One line of `packages.list`: `pkgName uid debuggable dataDir ...`. -/
def parsePackage (line : Bytes) : Option PackageInfo := do
  let (name, rest) ← readWord line
  let (uid, rest) ← readInt rest
  let (_, rest) ← readWord rest
  let (dataDir, _) ← readWord rest
  return { name, dataDir, uid, isSystem := uid < 10000 }

/-- `GetInstalledPackages` on the text of `packages.list`. -/
def getInstalledPackages : Option Bytes → List PackageInfo
  | none => []
  | some text => (getlines text).filterMap parsePackage

example : getInstalledPackages (some (lit "a.b 10012 0 /data/user/0/a.b x\nbroken\n")) =
    [⟨lit "a.b", lit "/data/user/0/a.b", 10012, false⟩] := by decide +kernel

end FreshCore.Device
