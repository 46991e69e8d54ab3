import FreshCore.Cache.Cooldown
import FreshCore.Cache.DirectorySize

/-!
# What an analysis selects

The targets are the directories that were not passed over at their turn and turned out to
be large enough. A turn changes what is known of the scans of one package, and nothing of
its cleanups.
-/

namespace FreshCore

open Posix Imperative Config Device Cache

variable {env : Env} {depth : Nat}

/-! ## The limit -/

/-- The least size of a target, in bytes. -/
def thresholdBytes (config : Configuration) : Nat := config.cacheThresholdMb.toInt.toNat * 2 ^ 20

/-- The limit does not overflow. -/
theorem shouldCleanCache_iff {config : Configuration}
    (hthreshold : 0 ≤ config.cacheThresholdMb.toInt) (size : UInt64) :
    shouldCleanCache config size = true ↔ thresholdBytes config ≤ size.toNat := by
  rw [shouldCleanCache, decide_eq_true_iff, UInt64.le_iff_toNat_le, cacheThresholdBytes,
    toNat_megabytes hthreshold, thresholdBytes]

/-! ## What a turn measures -/

/-- The turn measured its directory, with the records as it found them. -/
def Turn.IsMeasured (env : Env) (depth : Nat) (turn : Turn) : Prop :=
  ∃ size w w', w.process.states = turn.states ∧
    (getDirectorySize env depth turn.dir.path).run w = (some size, w') ∧
    turn.measured = { turn.dir with sizeBytes := size, sizeCalculated := true }

/-- A turn that is not passed over measures a directory that was not measured before. -/
theorem analyzeDir_measured {now : UInt64} {dir : CacheDirInfo}
    (hunmeasured : dir.sizeCalculated = false)
    {result : CacheDirInfo × Option MaintenanceTarget} {w w' : World}
    (hrun : (analyzeDir env depth now dir).run w = (some result, w')) :
    let turn : Turn := { dir, states := w.process.states, result := some result }
    if turn.isSkipped now then turn.measured = dir else turn.IsMeasured env depth := by
  intro turn
  rcases analyzeDir_cases hrun with
    ⟨hskip, rfl, rfl⟩ | ⟨hscan, measured, w₁, hsize, hresult, _, _⟩
  · have hskips : turn.isSkipped now = true := hskip
    rw [if_pos hskips]
    rfl
  · have hskips : turn.isSkipped now = false := hscan
    rw [calculateCacheSize, hunmeasured, if_neg (by simp)] at hsize
    obtain ⟨size, w₂, hsize, hpure⟩ := Program.run_bind_eq_some.mp hsize
    cases hpure
    rw [if_neg (by simp [hskips])]
    exact ⟨size, w, w₁, rfl, hsize, hresult⟩

theorem analyzeDirs_measured {now : UInt64} {scannedDirs : List CacheDirInfo}
    (hunmeasured : ∀ dir ∈ scannedDirs, dir.sizeCalculated = false)
    {result : List CacheDirInfo × List MaintenanceTarget} {w w' : World}
    (hrun : (analyzeDirs env depth now scannedDirs).run w = (some result, w')) :
    ∀ turn ∈ analysisTurns env depth now scannedDirs w,
      if turn.isSkipped now then turn.measured = turn.dir else turn.IsMeasured env depth := by
  induction scannedDirs generalizing w w' result with
  | nil => simp [analysisTurns]
  | cons dir rest ih =>
      obtain ⟨⟨measured, target⟩, w₁, hturn, hrun⟩ := Program.run_bind_eq_some.mp hrun
      obtain ⟨result', w₂, hrest, _⟩ := Program.run_bind_eq_some.mp hrun
      have hfirst := analyzeDir_measured (hunmeasured dir List.mem_cons_self) hturn
      intro turn hmem
      simp only [analysisTurns, hturn] at hmem
      rcases List.mem_cons.mp hmem with rfl | hmem
      · exact hfirst
      · exact ih (fun other hother => hunmeasured other (.tail _ hother)) hrest turn hmem

/-! ## What the turns do to the records -/

/-- The records after a turn, which the next one finds. -/
def storeAfter (rest : List Turn) (final : PackageStore) : PackageStore :=
  (rest.head?.map Turn.states).getD final

theorem Scanned.states_eq {config : Configuration} {now : UInt64} {turns : List Turn}
    {states final : PackageStore} (h : Scanned config now states turns final) :
    storeAfter turns final = states := by
  cases h <;> rfl

/-- A turn that is passed over leaves the records as they are. -/
theorem Scanned.skipped {config : Configuration} {now : UInt64} {turns : List Turn}
    {states final : PackageStore} (h : Scanned config now states turns final)
    {front rest : List Turn} {turn : Turn} (hturns : turns = front ++ turn :: rest)
    (hskip : turn.isSkipped now = true) : storeAfter rest final = turn.states := by
  induction front generalizing turns states with
  | nil =>
      subst hturns
      cases h with
      | cons hdone hrest =>
          rw [hrest.states_eq, scanRecord]
          exact if_pos hskip
  | cons first front ih =>
      subst hturns
      cases h with
      | cons hdone hrest => exact ih hrest rfl

/-- An analysis counts no cleanup. -/
theorem Scanned.cleanupCount {config : Configuration} {now : UInt64} {turns : List Turn}
    {states final : PackageStore} (h : Scanned config now states turns final) (pkgName : Bytes) :
    (getPackageState final pkgName).cleanupCount =
      (getPackageState states pkgName).cleanupCount := by
  induction h with
  | nil => rfl
  | @cons turn rest final _ _ ih =>
      rw [ih, scanRecord]
      split
      · rfl
      · rw [getPackageState_update]
        split
        next hhash => rw [getPackageState_congr hhash]; rfl
        next => rfl

/-- Records under other hashes stay. -/
theorem Scanned.lookup {config : Configuration} {now : UInt64} {turns : List Turn}
    {states final : PackageStore} (h : Scanned config now states turns final) {hash : UInt32}
    (hhash : ∀ turn ∈ turns, hashPackageName turn.dir.pkgName ≠ hash) :
    final.lookup hash = states.lookup hash := by
  induction h with
  | nil => rfl
  | @cons turn rest final _ _ ih =>
      rw [ih fun other hother => hhash other (.tail _ hother), scanRecord]
      split
      · rfl
      · exact AList.lookup_insert_ne (hhash turn List.mem_cons_self).symm

/-! ## An analysis on a tree that nobody else changes -/

/-- The directory with its size, where the calls find this. -/
def measureDir (fs : FileSystem) (cwd : Loc) (answers : Bytes → Option (List Name))
    (unseen : Bytes → Bool) (depth : Nat) (dir : CacheDirInfo) : CacheDirInfo :=
  if dir.sizeCalculated then dir
  else { dir with
    sizeBytes := measuredSize fs cwd answers unseen depth dir.path, sizeCalculated := true }

section Quiet

variable (answers : Bytes → Option (List Name)) {unseen : Bytes → Bool} {w : World}

theorem calculateCacheSize_quiet (hquiet : env.Quiet) (hhides : env.Hides unseen)
    (hdepth : ∀ loc ∈ w.fs.locs, loc.length < depth) (dir : CacheDirInfo) :
    ∃ measured w' new, (calculateCacheSize env depth dir).run w = (some measured, w') ∧
      Looked env w w' new ∧
      (Heeds answers unseen new → measured = measureDir w.fs env.cwd answers unseen depth dir) := by
  unfold calculateCacheSize measureDir
  split
  · exact ⟨dir, w, [], rfl, .refl env w, fun _ => rfl⟩
  · have hmeasures : Measures env answers unseen w.fs (getDirectorySize env depth dir.path)
        (measuredSize w.fs env.cwd answers unseen depth dir.path) :=
      getDirectorySize_measures hquiet hhides (FileSystem.depth_pos hdepth) fun loc _ =>
        FileSystem.shallow_of_locs hdepth loc
    obtain ⟨size, w', new, hrun, hlooked, hsize⟩ := hmeasures w rfl
    refine ⟨_, w', new, Program.run_bind_of_some hrun, hlooked, fun hheeds => ?_⟩
    rw [hsize hheeds]

/-- The turn comes to its end, whatever the listings find. -/
theorem analyzeDir_quiet (hquiet : env.Quiet) (hhides : env.Hides unseen)
    (hdepth : ∀ loc ∈ w.fs.locs, loc.length < depth) (now : UInt64) (dir : CacheDirInfo) :
    ∃ result w' new, (analyzeDir env depth now dir).run w = (some result, w') ∧
      w'.fs = w.fs ∧ w'.log = w.log ++ new ∧
      (Heeds answers unseen new → result.1 =
        if isCoolingDown now (getPackageState w.process.states dir.pkgName) then dir
        else measureDir w.fs env.cwd answers unseen depth dir) := by
  have hprocess : getProcess.run w = (some w.process, w) := rfl
  rw [analyzeDir, Program.run_bind_of_some hprocess]
  dsimp only
  split
  · exact ⟨_, w, [], rfl, rfl, (List.append_nil _).symm, fun _ => rfl⟩
  · obtain ⟨measured, w₁, new, hrun, hlooked, hmeasured⟩ :=
      calculateCacheSize_quiet answers hquiet hhides hdepth dir
    rw [Program.run_bind_of_some hrun, Program.run_bind_of_some rfl]
    split <;> exact ⟨_, _, new, rfl, hlooked.fs, hlooked.log, hmeasured⟩

theorem analyzeDirs_quiet (hquiet : env.Quiet) (hhides : env.Hides unseen)
    (hdepth : ∀ loc ∈ w.fs.locs, loc.length < depth) (now : UInt64)
    (scannedDirs : List CacheDirInfo) :
    ∃ result w' new, (analyzeDirs env depth now scannedDirs).run w = (some result, w') ∧
      w'.fs = w.fs ∧ w'.log = w.log ++ new ∧
      (Heeds answers unseen new → ∀ turn ∈ analysisTurns env depth now scannedDirs w,
        turn.measured =
          if turn.isSkipped now then turn.dir
          else measureDir w.fs env.cwd answers unseen depth turn.dir) := by
  induction scannedDirs generalizing w with
  | nil => exact ⟨_, w, [], rfl, rfl, (List.append_nil _).symm, by simp [analysisTurns]⟩
  | cons dir rest ih =>
      obtain ⟨result, w₁, new₁, hturn, hfs₁, hlog₁, hmeasured⟩ :=
        analyzeDir_quiet answers hquiet hhides hdepth now dir
      rw [← hfs₁] at hdepth
      obtain ⟨result', w', new, hrest, hfs, hlog, hothers⟩ := ih hdepth
      have hrun : (analyzeDirs env depth now (dir :: rest)).run w =
          (some (result.1 :: result'.1, result.2.toList ++ result'.2), w') := by
        rw [analyzeDirs, Program.run_bind_of_some hturn, Program.run_bind_of_some hrest]
        rfl
      refine ⟨_, w', new₁ ++ new, hrun, hfs.trans hfs₁, ?_, fun hheeds turn hmem => ?_⟩
      · rw [hlog, hlog₁, List.append_assoc]
      · simp only [analysisTurns, hturn] at hmem
        rcases List.mem_cons.mp hmem with rfl | hmem
        · exact hmeasured hheeds.left
        · rw [← hfs₁]
          exact hothers hheeds.right turn hmem

theorem analyzeCaches_quiet (hquiet : env.Quiet) (hhides : env.Hides unseen)
    (hdepth : ∀ loc ∈ w.fs.locs, loc.length < depth) (scannedDirs : List CacheDirInfo) :
    ∃ result w' , (analyzeCaches env depth scannedDirs).run w = (some result, w') ∧
      (Heeds answers unseen (eventsOf (analyzeCaches env depth scannedDirs) w) →
        ∀ turn ∈ turnsOf env depth scannedDirs w, turn.measured =
          if turn.isSkipped (analysisTime env w) then turn.dir
          else measureDir w.fs env.cwd answers unseen depth turn.dir) := by
  have hprocess : getProcess.run w = (some w.process, w) := rfl
  let started := w.record (.analyze w.process.states)
  have hnote : (note (.analyze w.process.states)).run w = (some (), started) := rfl
  have hbelow : ∀ loc ∈ started.next.fs.locs, loc.length < depth := hdepth
  have hnow : (getCurrentTimeMs env).run started = (some (analysisTime env w), started.next) := rfl
  obtain ⟨⟨dirs, unsorted⟩, w₁, new, hdirs, _, hlog, hmeasured⟩ :=
    analyzeDirs_quiet answers hquiet hhides hbelow (analysisTime env w) scannedDirs
  obtain ⟨w₂, hsave⟩ := saveStateAtomic_completes env w₁
  obtain ⟨_, saved, hsaved⟩ := saveStateAtomic_returns hsave
  have hrun : (analyzeCaches env depth scannedDirs).run w =
      (some (dirs, env.sortTargets w₂.tick unsorted), w₂.next) := by
    rw [analyzeCaches, Program.run_bind_of_some hprocess, Program.run_bind_of_some hnote,
      Program.run_bind_of_some hnow, Program.run_bind_of_some hdirs,
      Program.run_bind_of_some hsave]
    rfl
  refine ⟨_, _, hrun, fun hheeds => hmeasured ?_⟩
  have hnew : eventsOf (analyzeCaches env depth scannedDirs) w =
      [.analyze w.process.states] ++ (new ++ saved) := by
    rw [eventsOf, hrun]
    simp [started, World.next, World.record, hsaved, hlog]
  rw [hnew] at hheeds
  exact hheeds.right.left

end Quiet

/-! ## The targets -/

/-- The turn's directory is one to clean. -/
def Turn.isSelected (config : Configuration) (now : UInt64) (turn : Turn) : Bool :=
  !turn.isSkipped now && thresholdBytes config ≤ turn.size.toNat

theorem Turn.IsDone.cacheDir {config : Configuration} {now : UInt64} {turn : Turn}
    (hthreshold : 0 ≤ config.cacheThresholdMb.toInt) (h : turn.IsDone config now) :
    turn.target?.map MaintenanceTarget.cacheDir =
      if turn.isSelected config now then some turn.measured else none := by
  have hselected : turn.isSelected config now = true ↔
      ¬ (turn.isSkipped now = true ∨ shouldCleanCache config turn.size = false) := by
    rw [isSelected, Bool.and_eq_true, decide_eq_true_iff, not_or, Bool.not_eq_false,
      shouldCleanCache_iff hthreshold]
    simp
  rw [h.target]
  split
  next hout => rw [Option.map_none, if_neg fun hin => hselected.mp hin hout]
  next hin =>
    rw [if_pos (hselected.mpr hin)]
    rfl

theorem Scanned.cacheDirs {config : Configuration} {now : UInt64} {turns : List Turn}
    {states final : PackageStore} (hthreshold : 0 ≤ config.cacheThresholdMb.toInt)
    (h : Scanned config now states turns final) :
    (turns.filterMap Turn.target?).map MaintenanceTarget.cacheDir =
      (turns.filter (Turn.isSelected config now)).map Turn.measured := by
  induction h with
  | nil => rfl
  | @cons turn rest final hdone _ ih =>
      have hcacheDir := hdone.cacheDir hthreshold
      rw [List.filterMap_cons, List.filter_cons]
      by_cases hin : turn.isSelected config now = true
      · rw [if_pos hin] at hcacheDir ⊢
        obtain ⟨target, htarget, hdir⟩ := Option.map_eq_some_iff.mp hcacheDir
        rw [htarget, List.map_cons, List.map_cons, ih, hdir]
      · rw [if_neg hin] at hcacheDir ⊢
        rw [Option.map_eq_none_iff.mp hcacheDir, ih]

/-- What an analysis of the directories from `w` came to. -/
structure Selects (env : Env) (depth : Nat) (scannedDirs : List CacheDirInfo)
    (targets : List MaintenanceTarget) (w w' : World) : Prop where
  /-- The directories have their turns in their order. -/
  turns : (turnsOf env depth scannedDirs w).map Turn.dir = scannedDirs
  measured : ∀ turn ∈ turnsOf env depth scannedDirs w,
    turn.isSkipped (analysisTime env w) = false → turn.IsMeasured env depth
  sorted : targets.Pairwise fun target other => other.priority ≤ target.priority
  /-- The targets are the directories that were not passed over and are large enough. -/
  selected : (targets.map MaintenanceTarget.cacheDir).Perm
    (((turnsOf env depth scannedDirs w).filter
      (Turn.isSelected w.process.config (analysisTime env w))).map Turn.measured)
  skipped : ∀ front turn rest, turnsOf env depth scannedDirs w = front ++ turn :: rest →
    turn.isSkipped (analysisTime env w) = true →
      turn.measured = turn.dir ∧ storeAfter rest w'.process.states = turn.states
  cleanups : ∀ pkgName,
    (getPackageState w'.process.states pkgName).lastCleanupMs =
        (getPackageState w.process.states pkgName).lastCleanupMs ∧
      (getPackageState w'.process.states pkgName).cleanupCount =
        (getPackageState w.process.states pkgName).cleanupCount
  untouched : ∀ hash, (∀ dir ∈ scannedDirs, hashPackageName dir.pkgName ≠ hash) →
    w'.process.states.lookup hash = w.process.states.lookup hash

def smallCache : CacheDirInfo := { path := lit "/data/com.a/code_cache", pkgName := lit "com.a" }

def largeCache : CacheDirInfo := { path := lit "/data/com.a/cache", pkgName := lit "com.a" }

/-- The small cache has 10 bytes and the large one 200 MiB; the limit is 100 MiB. -/
def largeCacheWorld : World where
  process.config := { cacheThresholdMb := 100 }
  fs := FsStep.applyAll .bare [
    .mkdir [] (lit "data"),
    .mkdir [lit "data"] (lit "com.a"),
    .mkdir [lit "data", lit "com.a"] (lit "cache"),
    .mkdir [lit "data", lit "com.a"] (lit "code_cache"),
    .create [lit "data", lit "com.a", lit "cache"] (lit "f") (200 * 1024 * 1024),
    .create [lit "data", lit "com.a", lit "code_cache"] (lit "f") 10]

end FreshCore
