import FreshCore.Cache.PackageScanner

/-! # Choosing what to clean -/

namespace FreshCore

open Posix Imperative Config Device Cache

variable (env : Env) (depth : Nat)

/-- `GetCurrentTimeMs` -/
def getCurrentTimeMs : Daemon UInt64 := sense fun tick => (env.realtime tick).ms

/-- Six hours. -/
def minCleanupIntervalMs : UInt64 := 6 * 60 * 60 * 1000

/-- The package was cleaned recently and does not grow fast. -/
def isCoolingDown (now : UInt64) (state : PackageState) : Bool :=
  state.lastCleanupMs < now && now - state.lastCleanupMs < minCleanupIntervalMs &&
    state.growthRateBytesPerDay.toUInt64 < 500 * 1024 * 1024

/-- Whole days since the last scan. -/
def daysSinceScan (now : UInt64) (state : PackageState) : UInt64 :=
  (if state.lastScanMs < now then now - state.lastScanMs else 0) / (24 * 60 * 60 * 1000)

/-- The record after a scan that measured `size`. -/
def recordScan (now size : UInt64) (state : PackageState) : PackageState :=
  let days := daysSinceScan now state
  let growth :=
    if 0 < days ∧ state.lastSizeBytes < size then
      ((size - state.lastSizeBytes) / days).toUInt32
    else state.growthRateBytesPerDay
  { state with growthRateBytesPerDay := growth, lastScanMs := now, lastSizeBytes := size }

def targetPriority (size : UInt64) (state : PackageState) : Int32 :=
  1 + (if 1024 * 1024 * 1024 < size then 2 else if 500 * 1024 * 1024 < size then 1 else 0) +
    (if 250 * 1024 * 1024 < state.growthRateBytesPerDay.toUInt64 then 1 else 0)

/-- One turn of the loop over the scanned directories. -/
def analyzeDir (now : UInt64) (dir : CacheDirInfo) :
    Daemon (CacheDirInfo × Option MaintenanceTarget) := do
  let process ← getProcess
  let state := getPackageState process.states dir.pkgName
  if isCoolingDown now state then return (dir, none)
  else do
    let dir ← calculateCacheSize env depth dir
    let state := recordScan now dir.sizeBytes state
    setProcess fun p => { p with states := updatePackageState p.states dir.pkgName state }
    if shouldCleanCache process.config dir.sizeBytes then
      return (dir, some { cacheDir := dir, priority := targetPriority dir.sizeBytes state })
    else return (dir, none)

def analyzeDirs (now : UInt64) :
    List CacheDirInfo → Daemon (List CacheDirInfo × List MaintenanceTarget)
  | [] => return ([], [])
  | dir :: rest => do
      let (dir, target) ← analyzeDir env depth now dir
      let (dirs, targets) ← analyzeDirs now rest
      return (dir :: dirs, target.toList ++ targets)

/-- `AnalyzeCaches`: the scanned directories with their sizes, and the targets. -/
def analyzeCaches (scannedDirs : List CacheDirInfo) :
    Daemon (List CacheDirInfo × List MaintenanceTarget) := do
  let process ← getProcess
  note (.analyze process.states)
  let now ← getCurrentTimeMs env
  let (dirs, targets) ← analyzeDirs env depth now scannedDirs
  saveStateAtomic env
  let sorted ← sense fun tick => env.sortTargets tick targets
  return (dirs, sorted)

/-! ## What an analysis leaves behind -/

/-- An analysis lists directories and changes the records, and nothing else. -/
def analysisScope : Scope where
  event
    | .listed _ _ => True
    | .analyze _ => True
    | .saved _ => True
    | _ => False
  change f := ∀ p, ∃ states, f p = { p with states }

theorem listScope_sub_analysisScope : listScope.Sub analysisScope where
  event event hevent := by cases event <;> first | exact hevent | exact trivial
  change _ hchange := hchange.elim

variable {scope : Scope}

theorem analyzeDir_within (hsub : analysisScope.Sub scope) (now : UInt64) (dir : CacheDirInfo) :
    Within env scope (analyzeDir env depth now dir) := by
  refine .bind (.prim .getProcess) fun process => ?_
  dsimp only
  split
  · exact .pure _
  refine .bind
    (calculateCacheSize_within env (listScope_sub_analysisScope.trans hsub) depth dir) fun dir => ?_
  refine .bind (.prim (.setProcess (hsub.change _ fun p => ⟨_, rfl⟩))) fun _ => ?_
  split <;> exact .pure _

theorem analyzeDirs_within (hsub : analysisScope.Sub scope) (now : UInt64)
    (dirs : List CacheDirInfo) : Within env scope (analyzeDirs env depth now dirs) := by
  induction dirs with
  | nil => exact .pure _
  | cons dir rest ih =>
      exact .bind (analyzeDir_within env depth hsub now dir) fun _ => .bind ih fun _ => .pure _

theorem analyzeCaches_within (hsub : analysisScope.Sub scope) (scannedDirs : List CacheDirInfo) :
    Within env scope (analyzeCaches env depth scannedDirs) := by
  refine .bind (.prim .getProcess) fun process => ?_
  refine .bind (.prim (.note (hsub.event _ trivial))) fun _ => ?_
  refine .bind (.prim (.sense _)) fun now => ?_
  refine .bind (analyzeDirs_within env depth hsub now scannedDirs) fun _ => ?_
  refine .bind (.prim (.save fun states => hsub.event _ trivial)) fun _ => ?_
  exact .bind (.prim (.sense _)) fun _ => .pure _

end FreshCore
