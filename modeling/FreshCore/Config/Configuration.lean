import Mathlib.Algebra.Ring.Nat
import FreshCore.Posix.Path

/-! # The configuration and its file format -/

namespace FreshCore.Config

open Posix

structure Configuration where
  enabled : Bool := true
  cacheThresholdMb : Int32 := 100
  includeUserApps : Bool := true
  includeSystemApps : Bool := true
  includeExternalCache : Bool := true
  idleRequired : Bool := true
  idleDelayMinutes : Int32 := 15
  chargingPreferred : Bool := true
  minimumBatteryPercent : Int32 := 25
  thermalProtection : Bool := true
  adaptiveScanning : Bool := true
  loggingDebug : Bool := false
  maxCleanupMbPerRun : Int32 := 2048
  maxFilesPerBatch : Int32 := 128
  maxBatchTimeMs : Int32 := 250
  checkIntervalActiveSec : Int32 := 1800
  checkIntervalScreenOffSec : Int32 := 300
  checkIntervalDeepIdleSec : Int32 := 60
  deriving DecidableEq, Repr

/-- A limit that is set in megabytes does not overflow as a count of bytes. -/
theorem toNat_megabytes {mb : Int32} (hmb : 0 ≤ mb.toInt) :
    (UInt64.ofInt mb.toInt * 1024 * 1024).toNat = mb.toInt.toNat * 2 ^ 20 := by
  have hlt := mb.toInt_lt
  generalize mb.toInt = count at hmb hlt ⊢
  have hcount : (UInt64.ofInt count).toNat = count.toNat := by
    rw [UInt64.ofInt, UInt64.toNat_ofNat']
    omega
  have h1024 : (1024 : UInt64).toNat = 1024 := rfl
  rw [UInt64.toNat_mul, UInt64.toNat_mul, hcount, h1024]
  omega

/-- The lines `std::getline` reads: text after the last line break is a line of its
own only if there is some. -/
def getlines (text : Bytes) : List Bytes :=
  let pieces := text.splitOn 10
  if pieces.getLast? = some [] then pieces.dropLast else pieces

/-- Space, tab, carriage return or line feed. -/
def isBlank (byte : UInt8) : Bool :=
  byte = 32 || byte = 9 || byte = 13 || byte = 10

def trim (str : Bytes) : Bytes :=
  ((str.dropWhile isBlank).reverse.dropWhile isBlank).reverse

def isDigit (byte : UInt8) : Bool :=
  48 ≤ byte && byte ≤ 57

/-- What `isspace` accepts in the C locale. -/
def isSpace (byte : UInt8) : Bool :=
  byte = 32 || (9 ≤ byte && byte ≤ 13)

/-- The number a run of decimal digits denotes. -/
def digitsToNat (digits : Bytes) : Nat :=
  digits.foldl (fun n byte => 10 * n + (byte.toNat - 48)) 0

/-- An optional sign and the digits after it, and what follows them. -/
def readSigned (text : Bytes) : Bool × Bytes × Bytes :=
  let (negative, text) := match text with
    | 45 :: rest => (true, rest)
    | 43 :: rest => (false, rest)
    | _ => (false, text)
  (negative, text.takeWhile isDigit, text.dropWhile isDigit)

/-- `std::atoi`: leading white space, a sign, digits; anything else ends the number. -/
def atoi (text : Bytes) : Int32 :=
  let (negative, digits, _) := readSigned (text.dropWhile isSpace)
  let magnitude : Int := digitsToNat digits
  .ofInt (if negative then -magnitude else magnitude)

def isTrue (value : Bytes) : Bool :=
  value = lit "true" || value = lit "1"

/-- The assignment a `key = value` line makes; unknown keys make none. -/
def assign (config : Configuration) (key value : Bytes) : Configuration :=
  if key = lit "enabled" then { config with enabled := isTrue value }
  else if key = lit "cache_threshold_mb" then { config with cacheThresholdMb := atoi value }
  else if key = lit "include_user_apps" then { config with includeUserApps := isTrue value }
  else if key = lit "include_system_apps" then
    { config with includeSystemApps := isTrue value }
  else if key = lit "include_external_cache" then
    { config with includeExternalCache := isTrue value }
  else if key = lit "idle_required" then { config with idleRequired := isTrue value }
  else if key = lit "idle_delay_minutes" then { config with idleDelayMinutes := atoi value }
  else if key = lit "charging_preferred" then
    { config with chargingPreferred := isTrue value }
  else if key = lit "minimum_battery_percent" then
    { config with minimumBatteryPercent := atoi value }
  else if key = lit "thermal_protection" then
    { config with thermalProtection := isTrue value }
  else if key = lit "adaptive_scanning" then { config with adaptiveScanning := isTrue value }
  else if key = lit "logging" then { config with loggingDebug := isTrue value }
  else if key = lit "max_cleanup_mb_per_run" then
    { config with maxCleanupMbPerRun := atoi value }
  else if key = lit "max_files_per_batch" then
    { config with maxFilesPerBatch := atoi value }
  else if key = lit "max_batch_time_ms" then { config with maxBatchTimeMs := atoi value }
  else config

/-- One turn of the loop over the lines. -/
def loadLine (config : Configuration) (line : Bytes) : Configuration :=
  let line := trim line
  if line = [] ∨ line.head? = some 35 then config
  else match line.dropWhile (· ≠ 61) with
    | [] => config
    | _ :: value => assign config (trim (line.takeWhile (· ≠ 61))) (trim value)

/-- `LoadConfig` on the text of the file; `none` is a file that does not open. -/
def loadConfig (config : Configuration) : Option Bytes → Bool × Configuration
  | none => (false, config)
  | some text => (true, (getlines text).foldl loadLine config)

example : (loadConfig {} (some (lit " enabled = 0\n# x\r\nmax_files_per_batch=\t7"))).2 =
    { enabled := false, maxFilesPerBatch := 7 } := by decide +kernel

end FreshCore.Config
