import FreshCore.Cache.CacheAnalyzer
import FreshCore.Diagnostics.Diagnostics
import FreshCore.Power.IdleDetector

/-! # The cache cleaner -/

namespace FreshCore

open Posix Imperative Config Device Cache

variable (env : Env)

/-- What the loop does with one child; `none` is the early `return false`. -/
def removeChild (recurse : Bytes → Daemon Bool) (childPath : Bytes) (filesRemoved : Int)
    (bytesFreed : UInt64) : Daemon (Option (Int × UInt64)) := do
  let node ← lstat env childPath
  match node with
  -- gone since the directory was listed, or there but not to be looked at
  | none => return some (filesRemoved, bytesFreed)
  | some node =>
      if node.isDir then do
        let completed ← recurse childPath
        if completed then return some (filesRemoved, bytesFreed) else return none
      else do
        let removed ← safeRemove env childPath
        -- what cannot be removed is passed over
        if removed then return some (filesRemoved + 1, bytesFreed + node.size)
        else return some (filesRemoved, bytesFreed)

/-- The loop of `RemoveRecursiveBatched`: the counts not yet handed over at its end, or
`none` for the early `return false`. The files are handed over at the limit, so that their
count stays an `int`. -/
def removeChildren (recurse : Bytes → Daemon Bool) (path : Bytes) :
    List Name → Int → UInt64 → Daemon (Option (Int × UInt64))
  | [], filesRemoved, bytesFreed => return some (filesRemoved, bytesFreed)
  | name :: rest, filesRemoved, bytesFreed => do
      let idle ← evaluateIdleState env
      if idle = .notIdle then return none
      else do
        let counts ← removeChild env recurse (child path name) filesRemoved bytesFreed
        match counts with
        | none => return none
        | some (filesRemoved, bytesFreed) => do
            let process ← getProcess
            if process.config.maxFilesPerBatch.toInt ≤ filesRemoved then do
              let proceed ← endBatch env filesRemoved bytesFreed
              -- the limit is exceeded
              if !proceed then return none
              else do
                startBatch env
                removeChildren recurse path rest 0 0
            else removeChildren recurse path rest filesRemoved bytesFreed

/-- `RemoveRecursiveBatched`, followed down to the given depth. -/
def removeRecursiveBatched : Nat → Bytes → Daemon Bool
  | 0, _ => .cut
  | depth + 1, path => do
      let children ← getDirectoryChildren env path
      match children with
      | none => return false
      | some children => do
          enter path
          startBatch env
          let counts ← removeChildren env (removeRecursiveBatched depth) path children 0 0
          match counts with
          | none => do
              leave path false
              return false
          | some (filesRemoved, bytesFreed) => do
              -- here the answer is not looked at
              let _ ← endBatch env filesRemoved bytesFreed
              leave path true
              -- finally the directory itself
              let _ ← safeRemove env path
              return true

variable (depth : Nat)

/-- The loop of `CleanDirectorySafely`. -/
def cleanChildren (path : Bytes) : List Name → Daemon Bool
  | [] => return true
  | name :: rest => do
      let completed ← removeRecursiveBatched env depth (child path name)
      if !completed then return false else cleanChildren path rest

/-- The record after a cleanup. -/
def recordCleanup (now : UInt64) (state : PackageState) : PackageState :=
  { state with
    lastCleanupMs := now
    cleanupCount := state.cleanupCount + 1
    lastSizeBytes := 0 }

def cleanDirectorySafely (targetDir : CacheDirInfo) : Daemon Bool := do
  let children ← getDirectoryChildren env targetDir.path
  match children with
  | none => return true
  | some children => do
      enter targetDir.path
      let completed ← cleanChildren env depth targetDir.path children
      leave targetDir.path completed
      if !completed then return false
      else do
        let process ← getProcess
        let state := getPackageState process.states targetDir.pkgName
        let now ← getCurrentTimeMs env
        setProcess fun p => { p with
          states := updatePackageState p.states targetDir.pkgName (recordCleanup now state) }
        note (.cleaned targetDir.pkgName now)
        saveStateAtomic env
        return true

/-! ## System sweeps -/

def nativeFstrim (path : Bytes) : Daemon Unit := do
  let idle ← evaluateIdleState env
  if idle = .notIdle then return ()
  else do
    let trims ← sense env.trims
    if trims then note (.trimmed path) else return ()

/-- The loop over the children of a swept directory. -/
def sweepChildren (path : Bytes) : List Name → Daemon Unit
  | [] => return ()
  | name :: rest =>
      if contains (lit "freshcore.log") name then sweepChildren path rest
      else do
        -- an interruption inside is not passed on
        let _ ← removeRecursiveBatched env depth (child path name)
        sweepChildren path rest

def sweepPaths : List Bytes → Daemon Unit
  | [] => return ()
  | path :: rest => do
      let idle ← evaluateIdleState env
      if idle = .notIdle then return ()
      else do
        let children ← getDirectoryChildren env path
        match children with
        | none => sweepPaths rest
        | some children => do
            enter path
            sweepChildren env depth path children
            leave path true
            sweepPaths rest

def pathsToSweep : List Bytes :=
  [lit "/data/tombstones", lit "/data/system/dropbox", lit "/data/local/tmp"]

def runSystemMaintenanceSweeps : Daemon Unit := do
  nativeFstrim env (lit "/data")
  nativeFstrim env (lit "/cache")
  sweepPaths env depth pathsToSweep
  note .sweepsDone

/-! ## What removing leaves behind -/

/-- The removal loops check the device, count batches and remove, and leave the
configuration, the engine and the records alone. -/
def removalScope : Scope where
  event
    | .screen _ => True
    | .idle _ => True
    | .listed _ _ => True
    | .entered _ => True
    | .left _ _ => True
    | .removed _ _ => True
    | .endBatch _ _ _ => True
    | .slowBatch _ => True
    | _ => False
  change f := ∀ p, ∃ time start files bytes, f p = { p with
    screenOffTime := time
    batchStartTimeMs := start
    totalFilesProcessedRun := files
    totalBytesFreedRun := bytes }

theorem idleScope_sub_removalScope : idleScope.Sub removalScope where
  event event hevent := by cases event <;> first | exact hevent | exact trivial
  change f hf p := by
    obtain ⟨time, htime⟩ := hf p
    exact ⟨time, _, _, _, htime⟩

theorem listScope_sub_removalScope : listScope.Sub removalScope where
  event event hevent := by cases event <;> first | exact hevent | exact trivial
  change _ hchange := hchange.elim

theorem batchScope_sub_removalScope : batchScope.Sub removalScope where
  event event hevent := by cases event <;> first | exact hevent | exact trivial
  change f hf p := by
    obtain ⟨start, files, bytes, hbatch⟩ := hf p
    exact ⟨_, start, files, bytes, hbatch⟩

variable {scope : Scope}

theorem removeChild_within (hsub : removalScope.Sub scope) {recurse : Bytes → Daemon Bool}
    (hrecurse : ∀ path, Within env scope (recurse path)) (childPath : Bytes)
    (filesRemoved : Int) (bytesFreed : UInt64) :
    Within env scope (removeChild env recurse childPath filesRemoved bytesFreed) := by
  refine .bind (.prim (.lstat childPath)) fun node => ?_
  split
  · exact .pure _
  · split
    · refine .bind (hrecurse childPath) fun completed => ?_
      split <;> exact .pure _
    · refine .bind (safeRemove_within env (fun _ _ => hsub.event _ trivial) childPath)
        fun removed => ?_
      split <;> exact .pure _

theorem removeChildren_within (hsub : removalScope.Sub scope) {recurse : Bytes → Daemon Bool}
    (hrecurse : ∀ path, Within env scope (recurse path)) (path : Bytes) (names : List Name)
    (filesRemoved : Int) (bytesFreed : UInt64) :
    Within env scope (removeChildren env recurse path names filesRemoved bytesFreed) := by
  induction names generalizing filesRemoved bytesFreed with
  | nil => exact .pure _
  | cons name rest ih =>
      refine .bind (evaluateIdleState_within env (idleScope_sub_removalScope.trans hsub))
        fun idle => ?_
      split
      · exact .pure _
      refine .bind (removeChild_within env hsub hrecurse _ _ _) fun counts => ?_
      split
      · exact .pure _
      refine .bind (.prim .getProcess) fun process => ?_
      split
      · refine .bind (endBatch_within env (batchScope_sub_removalScope.trans hsub) _ _)
          fun proceed => ?_
        split
        · exact .pure _
        · exact .bind (startBatch_within env (batchScope_sub_removalScope.trans hsub))
            fun _ => ih 0 0
      · exact ih _ _

theorem removeRecursiveBatched_within (hsub : removalScope.Sub scope) (path : Bytes) :
    Within env scope (removeRecursiveBatched env depth path) := by
  induction depth generalizing path with
  | zero => exact .cut
  | succ depth ih =>
      have hbatch := batchScope_sub_removalScope.trans hsub
      refine .bind (getDirectoryChildren_within env (listScope_sub_removalScope.trans hsub) path)
        fun children => ?_
      split
      · exact .pure _
      refine .bind (.prim (.enter (hsub.event _ trivial))) fun _ => ?_
      refine .bind (startBatch_within env hbatch) fun _ => ?_
      refine .bind (removeChildren_within env hsub ih path _ 0 0) fun counts => ?_
      split
      · exact .bind (.prim (.leave (hsub.event _ trivial))) fun _ => .pure _
      refine .bind (endBatch_within env hbatch _ _) fun _ => ?_
      refine .bind (.prim (.leave (hsub.event _ trivial))) fun _ => ?_
      exact .bind (safeRemove_within env (fun _ _ => hsub.event _ trivial) path) fun _ => .pure _

/-- Trimming checks the device; it is reported, and so is the end of the sweeps. -/
def trimScope : Scope where
  event
    | .trimmed _ => True
    | .sweepsDone => True
    | event => idleScope.event event
  change := idleScope.change

theorem idleScope_sub_trimScope : idleScope.Sub trimScope where
  event event hevent := by cases event <;> first | exact hevent | exact trivial
  change _ hchange := hchange

/-- Sweeps moreover trim, and report their end. -/
def sweepScope : Scope where
  event
    | .trimmed _ => True
    | .sweepsDone => True
    | event => removalScope.event event
  change := removalScope.change

theorem removalScope_sub_sweepScope : removalScope.Sub sweepScope where
  event event hevent := by cases event <;> first | exact hevent | exact trivial
  change _ hchange := hchange

theorem trimScope_sub_sweepScope : trimScope.Sub sweepScope where
  event event hevent := by cases event <;> first | exact hevent.elim | exact trivial
  change f hf := removalScope_sub_sweepScope.change f (idleScope_sub_removalScope.change f hf)

theorem nativeFstrim_within (hsub : trimScope.Sub scope) (path : Bytes) :
    Within env scope (nativeFstrim env path) := by
  refine .bind (evaluateIdleState_within env (idleScope_sub_trimScope.trans hsub)) fun idle => ?_
  split
  · exact .pure _
  · refine .bind (.prim (.sense _)) fun trims => ?_
    split
    · exact .prim (.note (hsub.event _ trivial))
    · exact .pure _

theorem sweepChildren_within (hsub : removalScope.Sub scope) (path : Bytes)
    (names : List Name) : Within env scope (sweepChildren env depth path names) := by
  induction names with
  | nil => exact .pure _
  | cons name rest ih =>
      unfold sweepChildren
      split
      · exact ih
      · exact .bind (removeRecursiveBatched_within env depth hsub _) fun _ => ih

theorem sweepPaths_within (hsub : removalScope.Sub scope) (paths : List Bytes) :
    Within env scope (sweepPaths env depth paths) := by
  induction paths with
  | nil => exact .pure _
  | cons path rest ih =>
      refine .bind (evaluateIdleState_within env (idleScope_sub_removalScope.trans hsub))
        fun idle => ?_
      split
      · exact .pure _
      refine .bind (getDirectoryChildren_within env (listScope_sub_removalScope.trans hsub) path)
        fun children => ?_
      split
      · exact ih
      refine .bind (.prim (.enter (hsub.event _ trivial))) fun _ => ?_
      refine .bind (sweepChildren_within env depth hsub path _) fun _ => ?_
      exact .bind (.prim (.leave (hsub.event _ trivial))) fun _ => ih

theorem runSystemMaintenanceSweeps_within (hsub : sweepScope.Sub scope) :
    Within env scope (runSystemMaintenanceSweeps env depth) :=
  .bind (nativeFstrim_within env (trimScope_sub_sweepScope.trans hsub) _) fun _ =>
    .bind (nativeFstrim_within env (trimScope_sub_sweepScope.trans hsub) _) fun _ =>
      .bind (sweepPaths_within env depth (removalScope_sub_sweepScope.trans hsub) _) fun _ =>
        .prim (.note (hsub.event _ trivial))

/-- Cleaning a directory moreover updates and saves its package's record. -/
def cleanScope : Scope where
  event
    | .cleaned _ _ => True
    | .saved _ => True
    | event => removalScope.event event
  change f := ∀ p, (f p).config = p.config ∧ (f p).engine = p.engine

theorem removalScope_sub_cleanScope : removalScope.Sub cleanScope where
  event event hevent := by cases event <;> first | exact hevent | exact trivial
  change f hf p := by
    obtain ⟨time, start, files, bytes, hremoval⟩ := hf p
    rw [hremoval]
    exact ⟨rfl, rfl⟩

theorem cleanChildren_within (hsub : removalScope.Sub scope) (path : Bytes)
    (names : List Name) : Within env scope (cleanChildren env depth path names) := by
  induction names with
  | nil => exact .pure _
  | cons name rest ih =>
      refine .bind (removeRecursiveBatched_within env depth hsub _) fun completed => ?_
      split
      · exact .pure _
      · exact ih

theorem cleanDirectorySafely_within (hsub : cleanScope.Sub scope) (targetDir : CacheDirInfo) :
    Within env scope (cleanDirectorySafely env depth targetDir) := by
  have hremoval := removalScope_sub_cleanScope.trans hsub
  refine .bind (getDirectoryChildren_within env (listScope_sub_removalScope.trans hremoval) _)
    fun children => ?_
  split
  · exact .pure _
  refine .bind (.prim (.enter (hsub.event _ trivial))) fun _ => ?_
  refine .bind (cleanChildren_within env depth hremoval _ _) fun completed => ?_
  refine .bind (.prim (.leave (hsub.event _ trivial))) fun _ => ?_
  split
  · exact .pure _
  refine .bind (.prim .getProcess) fun process => ?_
  refine .bind (.prim (.sense _)) fun now => ?_
  refine .bind (.prim (.setProcess (hsub.change _ fun p => ⟨rfl, rfl⟩))) fun _ => ?_
  refine .bind (.prim (.note (hsub.event _ trivial))) fun _ => ?_
  exact .bind (.prim (.save fun _ => hsub.event _ trivial)) fun _ => .pure _

end FreshCore
