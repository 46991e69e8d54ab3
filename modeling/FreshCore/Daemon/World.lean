import Mathlib.Data.List.Sort
import FreshCore.Imperative.Program
import FreshCore.Posix.Resolution
import FreshCore.Device.Readings
import FreshCore.Cache.StateStorage

/-!
# The daemon and its surroundings

`Env` fixes everything the daemon does not decide: what each reading yields, which
calls fail and what other processes do to the file system. Its streams are indexed
by the number of observations made so far. `World` is what changes: the globals of
the process, the file system, the state files, and a log of what happened, which
no code reads. The checks have a second log, which says when they were made.
-/

namespace FreshCore

open Posix Imperative Config Device Cache

/-- `core::EngineState` -/
inductive EngineState where
  | boot
  | active
  | screenOff
  | idleCandidate
  | deepIdle
  | maintenance
  | aborting
  | errorBackoff
  deriving DecidableEq, Repr

/-- `power::IdleState` -/
inductive IdleState where
  | notIdle
  | screenOff
  | idleCandidate
  | deepIdle
  deriving DecidableEq, Repr

/-- `cache::CacheDirInfo` -/
structure CacheDirInfo where
  path : Bytes
  pkgName : Bytes
  sizeBytes : UInt64 := 0
  sizeCalculated : Bool := false
  deriving DecidableEq, Repr

/-- `cache::MaintenanceTarget` -/
structure MaintenanceTarget where
  cacheDir : CacheDirInfo
  priority : Int32 := 0
  deriving DecidableEq, Repr

/-- The commands of `system_tweaks` to `dumpsys deviceidle`. -/
inductive DozeCommand where
  | optimizeDoze
  | wakeFromDoze
  deriving DecidableEq, Repr

/-- What happened. Entries are only ever added, and nothing reads them back. -/
inductive Event where
  /-- `IsScreenOn` returned. -/
  | screen (on : Bool)
  /-- `EvaluateIdleState` returned. -/
  | idle (state : IdleState)
  /-- A directory was listed, with what was found. -/
  | listed (path : Bytes) (names : Option (List Name))
  /-- A removal loop over a directory began. -/
  | entered (path : Bytes)
  /-- A removal loop ended, having come to its end or not. -/
  | left (path : Bytes) (completed : Bool)
  /-- `unlink` or `rmdir` took the node that physically stood at `loc`. -/
  | removed (loc : Loc) (node : Node)
  /-- A directory that exists could not be listed. -/
  | listFailed (path : Bytes)
  /-- `lstat` failed for an entry that exists, as it does where the path is too long. -/
  | lstatFailed (path : Bytes)
  /-- An entry that could go was not removed by `unlink` or `rmdir`. -/
  | removeFailed (path : Bytes)
  /-- Other processes changed the file system while these directories were being
  cleaned. -/
  | others (working : List Bytes) (fs : FileSystem)
  | endBatch (files : Int) (bytes : UInt64) (proceed : Bool)
  | slowBatch (durationMs : UInt64)
  | trimmed (path : Bytes)
  | sweepsDone
  | analyze (states : PackageStore)
  | saved (states : PackageStore)
  | cleaned (pkgName : Bytes) (timeMs : UInt64)
  | maintenance
  | doze (command : DozeCommand)
  | transition (state : EngineState)
  | timer (seconds : UInt32)

/-- Where the removed node stood. -/
def Event.removedLoc? : Event → Option Loc
  | removed loc _ => some loc
  | _ => none

structure Env where
  cwd : Loc := []
  /-- What other processes do to the file system before the next call on it. -/
  others : Nat → List FsStep := fun _ => []
  listFails : Nat → Bool := fun _ => false
  lstatFails : Nat → Bytes → Bool := fun _ _ => false
  removeFails : Nat → Bool := fun _ => false
  screen : Nat → ScreenReading
  monotonic : Nat → Timespec
  realtime : Nat → Timespec
  battery : Nat → BatteryReading
  thermalZones : Nat → List (Option Int32)
  memoryPressure : Nat → Option Nat
  currentFocus : Nat → Option Bytes
  rssKb : Nat → UInt64
  packagesList : Nat → Option Bytes
  configFile : Nat → Option Bytes := fun _ => none
  trims : Nat → Bool := fun _ => false
  saveOutcome : Nat → SaveOutcome := fun _ => {}
  padding : Nat → Nat → UInt32 := fun _ _ => 0
  /-- The order in which the map is iterated. -/
  iterate : Nat → PackageStore → List PackageState := fun _ store => store.entries.map Sigma.snd
  iterate_order : ∀ tick store, IterationOrder store (iterate tick store) := by
    intros; exact List.Perm.refl _
  /-- `std::sort` by descending priority, which leaves the order of equals open. -/
  sortTargets : Nat → List MaintenanceTarget → List MaintenanceTarget
  sortTargets_perm : ∀ tick targets, (sortTargets tick targets).Perm targets
  sortTargets_sorted : ∀ tick targets,
    (sortTargets tick targets).Pairwise fun a b => b.priority ≤ a.priority

/-- A device at rest: the screen is off, every other reading is safe, nothing fails and
nobody else touches the file system. -/
def restingDevice : Env where
  screen _ := { brightness := some 0, wakefulness := [] }
  monotonic _ := { sec := 1, nsec := 0 }
  realtime _ := { sec := 1700000000, nsec := 0 }
  battery _ := { nodeFound := true, status := some (lit "Full"), capacity := none }
  thermalZones _ := [none]
  memoryPressure _ := none
  currentFocus _ := none
  rssKb _ := 0
  packagesList _ := none
  sortTargets _ targets := targets.insertionSort fun a b => b.priority ≤ a.priority
  sortTargets_perm _ targets := List.perm_insertionSort _ targets
  sortTargets_sorted _ targets := List.pairwise_insertionSort _ targets

/-- The globals of the process. -/
structure Process where
  config : Configuration := {}
  engine : EngineState := .boot
  screenOffTime : UInt64 := 0
  batchStartTimeMs : UInt64 := 0
  totalFilesProcessedRun : Int32 := 0
  totalBytesFreedRun : UInt64 := 0
  states : PackageStore := ∅

structure World where
  process : Process := {}
  fs : FileSystem
  files : StateFiles := {}
  tick : Nat := 0
  /-- The directories whose removal loops are running, innermost first. -/
  working : List Bytes := []
  log : List Event := []
  /-- The checks of the screen and of the device, each with the observation at which it was
  made. -/
  checks : List (Nat × Event) := []

abbrev Daemon (α : Type) := Program World α

namespace World

def record (w : World) (event : Event) : World := { w with log := w.log ++ [event] }

/-- The next observation. -/
def next (w : World) : World := { w with tick := w.tick + 1 }

/-- Other processes take their steps before the next call on the file system. -/
def interfere (env : Env) (w : World) : World :=
  match env.others w.tick with
  | [] => w
  | steps =>
      let fs := FsStep.applyAll w.fs steps
      { w with fs, log := w.log ++ [.others w.working fs] }

end World

/-- What a run of `x` from `w` logs. -/
def eventsOf {α : Type} (x : Daemon α) (w : World) : List Event :=
  (x.run w).2.log.drop w.log.length

/-! ## Elementary actions -/

section Actions

variable (env : Env)

/-- Read something off the device. -/
def sense {α : Type} (read : Nat → α) : Daemon α :=
  ⟨fun w => (some (read w.tick), w.next)⟩

def note (event : Event) : Daemon Unit := .update (·.record event)

/-- The number of observations made so far, for use in the log of the checks only. -/
def moment : Daemon Nat := .inspect World.tick

/-- A check that was made at the given observation returns. -/
def report (tick : Nat) (event : Event) : Daemon Unit :=
  .update fun w => { w.record event with checks := w.checks ++ [(tick, event)] }

def getProcess : Daemon Process := .inspect World.process

def setProcess (change : Process → Process) : Daemon Unit :=
  .update fun w => { w with process := change w.process }

/-- A call that only looks at the file system. -/
def look {α : Type} (view : Nat → FileSystem → α) : Daemon α :=
  ⟨fun w =>
    let w := w.interfere env
    (some (view w.tick w.fs), w.next)⟩

/-- `open` with `O_DIRECTORY | O_NOFOLLOW` and `readdir` to its end. -/
def listDirectory (path : Bytes) : Daemon (Option (List Name)) :=
  ⟨fun w =>
    let w := w.interfere env
    match w.fs.resolve env.cwd false path with
    | none => (some none, w.next)
    | some loc =>
        -- a link as the last piece was not followed, so it fails here too
        if w.fs.node loc ≠ some .dir then (some none, w.next)
        else if env.listFails w.tick then (some none, (w.record (.listFailed path)).next)
        else (some (some (dot :: dotDot :: w.fs.children loc)), w.next)⟩

def lstat (path : Bytes) : Daemon (Option Node) :=
  ⟨fun w =>
    let w := w.interfere env
    match w.fs.lstat env.cwd path with
    | none => (some none, w.next)
    | some node =>
        -- the callers cannot tell this from an entry that is not there
        if env.lstatFails w.tick path then (some none, (w.record (.lstatFailed path)).next)
        else (some (some node), w.next)⟩

def realpath (path : Bytes) : Daemon (Option Bytes) :=
  look env fun _ fs => fs.realpath env.cwd path

/-- A call that removes the entry the name leads to at this moment. -/
def removeEntry (remove : FileSystem → Loc → Option FileSystem) (path : Bytes) : Daemon Bool :=
  ⟨fun w =>
    let w := w.interfere env
    match w.fs.resolve env.cwd false path with
    | none => (some false, w.next)
    | some loc =>
        -- nothing keeps the place from being another one than at the last call
        match w.fs.node loc, remove w.fs loc with
        | some node, some fs =>
            if env.removeFails w.tick then (some false, (w.record (.removeFailed path)).next)
            else (some true, ({ w with fs }.record (.removed loc node)).next)
        | _, _ => (some false, w.next)⟩

def unlink (path : Bytes) : Daemon Bool := removeEntry env FileSystem.unlink path

def rmdir (path : Bytes) : Daemon Bool := removeEntry env FileSystem.rmdir path

/-- A removal loop over the directory begins. -/
def enter (path : Bytes) : Daemon Unit :=
  .update fun w => { w with working := path :: w.working, log := w.log ++ [.entered path] }

/-- A removal loop over the directory is over. -/
def leave (path : Bytes) (completed : Bool) : Daemon Unit :=
  .update fun w =>
    { w with working := w.working.tail, log := w.log ++ [.left path completed] }

/-- The I/O of one save of the records in memory. -/
def saveStateAtomic : Daemon Unit :=
  ⟨fun w =>
    let states := env.iterate w.tick w.process.states
    let image := recordsBytes (env.padding w.tick) states
    let header := headerBytes (saveHeader (env.realtime w.tick).ms states image)
    let outcome := env.saveOutcome w.tick
    let saved := { w with files := writeStateFiles outcome header image w.files }
    -- the function does not say whether it succeeded; the log does
    if outcome.opens ∧ outcome.renames ∧ writeTmp outcome header image = header ++ image then
      (some (), (saved.record (.saved w.process.states)).next)
    else (some (), saved.next)⟩

end Actions

end FreshCore
