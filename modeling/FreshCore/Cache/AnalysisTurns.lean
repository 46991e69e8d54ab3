import FreshCore.Cache.CacheCleaner

/-!
# The turns of an analysis

An analysis goes through the scanned directories one after the other, and each turn
reads and overwrites the record of one package. What the records are after it depends
on the names and measured sizes only; the turns are where the two levels meet.
-/

namespace FreshCore.Cache

open Posix

/-! ## Records and hashes -/

theorem getPackageState_update (store : PackageStore) (pkgName other : Bytes)
    (state : PackageState) :
    getPackageState (updatePackageState store pkgName state) other =
      if hashPackageName other = hashPackageName pkgName then state
      else getPackageState store other := by
  unfold getPackageState updatePackageState
  dsimp only
  split
  next heq => rw [heq, AList.lookup_insert, Option.getD_some]
  next hne => rw [AList.lookup_insert_ne hne]

/-- Packages of one hash have one record. -/
theorem getPackageState_congr {pkgName other : Bytes}
    (hhash : hashPackageName other = hashPackageName pkgName) (store : PackageStore) :
    getPackageState store other = getPackageState store pkgName := by
  rw [getPackageState, getPackageState, hhash]

/-- An update for one package leaves the record of another one alone exactly if their
hashes differ, or if that is the record it had. -/
theorem updatePackageState_separate_iff (store : PackageStore) (state : PackageState)
    (pkgName other : Bytes) :
    getPackageState (updatePackageState store pkgName state) other = getPackageState store other ↔
      hashPackageName pkgName ≠ hashPackageName other ∨ getPackageState store other = state := by
  rw [getPackageState_update]
  by_cases hhash : hashPackageName other = hashPackageName pkgName
  · rw [if_pos hhash, eq_comm]
    constructor
    · intro hsame
      exact Or.inr hsame
    · rintro (hne | hsame)
      · exact absurd hhash.symm hne
      · exact hsame
  · rw [if_neg hhash]
    simp [Ne.symm hhash]

/-- Two names of one hash: a cleanup of the one counts for the other. -/
theorem updatePackageState_collides :
    ¬ ∀ (store : PackageStore) (state : PackageState) (pkgName other : Bytes),
      pkgName ≠ other →
        getPackageState (updatePackageState store pkgName state) other =
          getPackageState store other := by
  intro hseparate
  have hsame := hseparate ∅ { hash := hashPackageName (lit "com.dxu.rhb"), cleanupCount := 1 }
    (lit "com.dxu.rhb") (lit "com.che.uem") (by decide)
  revert hsame
  decide +kernel

end FreshCore.Cache

namespace FreshCore

open Posix Imperative Config Device Cache

/-! ## What a turn does to the records -/

/-- The records after the turn of a directory of the given size. -/
def scanRecord (now : UInt64) (states : PackageStore) (pkgName : Bytes) (size : UInt64) :
    PackageStore :=
  let state := getPackageState states pkgName
  if isCoolingDown now state then states
  else updatePackageState states pkgName (recordScan now size state)

/-- The turn of a directory: the records it found, and what the loop's body came to. -/
structure Turn where
  dir : CacheDirInfo
  states : PackageStore
  result : Option (CacheDirInfo × Option MaintenanceTarget)

namespace Turn

/-- The record of the directory's package. -/
def state (turn : Turn) : PackageState := getPackageState turn.states turn.dir.pkgName

def isSkipped (now : UInt64) (turn : Turn) : Bool := isCoolingDown now turn.state

/-- The directory with its size, as the loop leaves it. -/
def measured (turn : Turn) : CacheDirInfo := (turn.result.map Prod.fst).getD turn.dir

def size (turn : Turn) : UInt64 := turn.measured.sizeBytes

def target? (turn : Turn) : Option MaintenanceTarget := turn.result.bind Prod.snd

end Turn

variable (env : Env) (depth : Nat)

def analysisTurns (now : UInt64) : List CacheDirInfo → World → List Turn
  | [], _ => []
  | dir :: rest, w =>
      let outcome := (analyzeDir env depth now dir).run w
      { dir, states := w.process.states, result := outcome.1 } ::
        analysisTurns now rest outcome.2

/-- The time an analysis that starts in `w` reads. -/
def analysisTime (w : World) : UInt64 := (env.realtime w.tick).ms

/-- The turns of the analysis that starts in `w`. -/
def turnsOf (scannedDirs : List CacheDirInfo) (w : World) : List Turn :=
  analysisTurns env depth (analysisTime env w) scannedDirs
    (w.record (.analyze w.process.states)).next

/-- A turn that came to its end under the given configuration: the directory is the one that
was scanned, now with its size, and it becomes a target unless it is skipped or small. -/
structure Turn.IsDone (config : Configuration) (now : UInt64) (turn : Turn) : Prop where
  pkgName : turn.measured.pkgName = turn.dir.pkgName
  path : turn.measured.path = turn.dir.path
  target : turn.target? =
    if turn.isSkipped now = true ∨ shouldCleanCache config turn.size = false then none
    else some {
      cacheDir := turn.measured
      priority := targetPriority turn.size (recordScan now turn.size turn.state) }

/-- The turns follow one another from the first store to the second. -/
inductive Scanned (config : Configuration) (now : UInt64) :
    PackageStore → List Turn → PackageStore → Prop
  | nil (states : PackageStore) : Scanned config now states [] states
  | cons {turn : Turn} {rest : List Turn} {final : PackageStore} :
      turn.IsDone config now →
      Scanned config now (scanRecord now turn.states turn.dir.pkgName turn.size) rest final →
      Scanned config now turn.states (turn :: rest) final

/-- Every target is a directory that was scanned. -/
theorem Turn.IsDone.target_path {config : Configuration} {now : UInt64} {turn : Turn}
    {target : MaintenanceTarget} (h : turn.IsDone config now)
    (htarget : turn.target? = some target) : target.cacheDir.path = turn.dir.path := by
  rw [h.target] at htarget
  split at htarget
  · cases htarget
  · cases htarget
    exact h.path

theorem Scanned.isDone {config : Configuration} {now : UInt64} {turns : List Turn}
    {states final : PackageStore} (h : Scanned config now states turns final) (turn : Turn)
    (hturn : turn ∈ turns) : turn.IsDone config now := by
  induction h with
  | nil => cases hturn
  | cons hdone _ ih =>
      rcases List.mem_cons.mp hturn with rfl | hrest
      · exact hdone
      · exact ih hrest

/-! ## The loop and its turns -/

variable {env depth}

theorem listScope_process {w w' : World} (h : listScope.Reaches w w') : w'.process = w.process := by
  have hid : id w'.process = id w.process := h.observe fun _ hchange => hchange.elim
  exact hid

theorem calculateCacheSize_returns {dir measured : CacheDirInfo} {w w' : World}
    (hrun : (calculateCacheSize env depth dir).run w = (some measured, w')) :
    measured.pkgName = dir.pkgName ∧ measured.path = dir.path ∧ w'.process = w.process := by
  have hreach := (calculateCacheSize_within env (Scope.Sub.refl listScope) depth dir).reaches w
  rw [hrun] at hreach
  refine ⟨?_, ?_, listScope_process hreach⟩ <;> unfold calculateCacheSize at hrun <;> split at hrun
  · cases hrun
    rfl
  · obtain ⟨size, w₁, _, hrun⟩ := Program.run_bind_eq_some.mp hrun
    cases hrun
    rfl
  · cases hrun
    rfl
  · obtain ⟨size, w₁, _, hrun⟩ := Program.run_bind_eq_some.mp hrun
    cases hrun
    rfl

/-- A turn passes over the directory, or measures it and enters its size in the record. -/
theorem analyzeDir_cases {now : UInt64} {dir : CacheDirInfo}
    {result : CacheDirInfo × Option MaintenanceTarget} {w w' : World}
    (hrun : (analyzeDir env depth now dir).run w = (some result, w')) :
    let state := getPackageState w.process.states dir.pkgName
    (isCoolingDown now state = true ∧ result = (dir, none) ∧ w' = w) ∨
      (isCoolingDown now state = false ∧ ∃ measured w₁,
        (calculateCacheSize env depth dir).run w = (some measured, w₁) ∧
        result.1 = measured ∧
        result.2 = (if shouldCleanCache w.process.config measured.sizeBytes = true then
          some {
            cacheDir := measured
            priority := targetPriority measured.sizeBytes
              (recordScan now measured.sizeBytes state) }
          else none) ∧
        w'.process = { w₁.process with
          states := updatePackageState w₁.process.states measured.pkgName
            (recordScan now measured.sizeBytes state) }) := by
  intro state
  obtain ⟨process, w₁, hprocess, hrun⟩ := Program.run_bind_eq_some.mp hrun
  cases hprocess
  dsimp only at hrun
  split at hrun
  next hskip =>
    cases hrun
    exact Or.inl ⟨hskip, rfl, rfl⟩
  next hskip =>
    obtain ⟨measured, w₂, hsize, hrun⟩ := Program.run_bind_eq_some.mp hrun
    obtain ⟨_, w₃, hset, hrun⟩ := Program.run_bind_eq_some.mp hrun
    cases hset
    refine Or.inr ⟨by simpa using hskip, measured, w₂, hsize, ?_⟩
    split at hrun
    next hclean =>
      cases hrun
      exact ⟨rfl, (if_pos hclean).symm, rfl⟩
    next hclean =>
      cases hrun
      exact ⟨rfl, (if_neg hclean).symm, rfl⟩

/-- One turn of the loop. -/
theorem analyzeDir_returns {now : UInt64} {dir : CacheDirInfo}
    {result : CacheDirInfo × Option MaintenanceTarget} {w w' : World}
    (hrun : (analyzeDir env depth now dir).run w = (some result, w')) :
    let turn : Turn := { dir, states := w.process.states, result := some result }
    turn.IsDone w.process.config now ∧ w'.process.config = w.process.config ∧
      w'.process.states = scanRecord now w.process.states dir.pkgName turn.size := by
  intro turn
  rcases analyzeDir_cases hrun with
    ⟨hskip, rfl, rfl⟩ | ⟨hscan, measured, w₁, hsize, rfl, htarget, hprocess'⟩
  · have hskips : turn.isSkipped now = true := hskip
    refine ⟨⟨rfl, rfl, ?_⟩, rfl, ?_⟩
    · rw [if_pos (Or.inl hskips)]
      rfl
    · rw [scanRecord, if_pos hskip]
  · obtain ⟨hname, hpath, hprocess⟩ := calculateCacheSize_returns hsize
    have hskips : turn.isSkipped now = false := hscan
    refine ⟨⟨hname, hpath, ?_⟩, ?_, ?_⟩
    · have hsizeEq : turn.size = result.1.sizeBytes := rfl
      change result.2 = _
      rw [htarget, hskips, hsizeEq]
      by_cases hclean : shouldCleanCache w.process.config result.1.sizeBytes = true
      · rw [if_pos hclean, if_neg (by simp [hclean])]
        rfl
      · rw [if_neg hclean, if_pos (by simpa using hclean)]
    · rw [hprocess', hprocess]
    · rw [hprocess', hprocess, scanRecord, if_neg (by simp [hscan]), hname]
      rfl

/-- The loop, turn by turn. -/
theorem analyzeDirs_returns {now : UInt64} {scannedDirs dirs : List CacheDirInfo}
    {targets : List MaintenanceTarget} {w w' : World}
    (hrun : (analyzeDirs env depth now scannedDirs).run w = (some (dirs, targets), w')) :
    let turns := analysisTurns env depth now scannedDirs w
    Scanned w.process.config now w.process.states turns w'.process.states ∧
      turns.map Turn.dir = scannedDirs ∧ dirs = turns.map Turn.measured ∧
        targets = turns.filterMap Turn.target? := by
  induction scannedDirs generalizing w dirs targets with
  | nil =>
      cases hrun
      exact ⟨.nil _, rfl, rfl, rfl⟩
  | cons dir rest ih =>
      obtain ⟨⟨measured, target⟩, w₁, hturn, hrun⟩ := Program.run_bind_eq_some.mp hrun
      obtain ⟨⟨dirs', targets'⟩, w₂, hrest, hrun⟩ := Program.run_bind_eq_some.mp hrun
      cases hrun
      obtain ⟨hdone, hconfig, hstates⟩ := analyzeDir_returns hturn
      obtain ⟨hscanned, hdirs, rfl, rfl⟩ := ih hrest
      rw [hconfig, hstates] at hscanned
      simp only [analysisTurns, hturn]
      refine ⟨.cons hdone hscanned, ?_, rfl, ?_⟩
      · rw [List.map_cons, hdirs]
      · rw [List.filterMap_cons]
        cases target <;> rfl

theorem saveStateAtomic_completes (env : Env) (w : World) :
    ∃ w', (saveStateAtomic env).run w = (some (), w') := by
  unfold saveStateAtomic
  dsimp only
  split <;> exact ⟨_, rfl⟩

theorem saveStateAtomic_returns {w w' : World}
    (hrun : (saveStateAtomic env).run w = (some (), w')) :
    w'.process = w.process ∧ ∃ new, w'.log = w.log ++ new := by
  unfold saveStateAtomic at hrun
  dsimp only at hrun
  split at hrun
  · cases hrun
    exact ⟨rfl, _, rfl⟩
  · cases hrun
    exact ⟨rfl, [], (List.append_nil _).symm⟩

/-- An analysis is the loop, from the time it reads, and then saves and sorts. -/
theorem analyzeCaches_split {scannedDirs dirs : List CacheDirInfo}
    {targets : List MaintenanceTarget} {w w' : World}
    (hrun : (analyzeCaches env depth scannedDirs).run w = (some (dirs, targets), w')) :
    ∃ unsorted w₁ tick, (analyzeDirs env depth (analysisTime env w) scannedDirs).run
        (w.record (.analyze w.process.states)).next = (some (dirs, unsorted), w₁) ∧
      w'.process = w₁.process ∧ targets = env.sortTargets tick unsorted := by
  obtain ⟨process, w₁, hprocess, hrun⟩ := Program.run_bind_eq_some.mp hrun
  cases hprocess
  obtain ⟨_, w₂, hnote, hrun⟩ := Program.run_bind_eq_some.mp hrun
  cases hnote
  obtain ⟨now, w₃, hnow, hrun⟩ := Program.run_bind_eq_some.mp hrun
  cases hnow
  obtain ⟨⟨dirs', unsorted⟩, w₄, hdirs, hrun⟩ := Program.run_bind_eq_some.mp hrun
  obtain ⟨_, w₅, hsave, hrun⟩ := Program.run_bind_eq_some.mp hrun
  obtain ⟨sorted, w₆, hsort, hrun⟩ := Program.run_bind_eq_some.mp hrun
  cases hsort
  cases hrun
  exact ⟨unsorted, w₄, w₅.tick, hdirs, (saveStateAtomic_returns hsave).1, rfl⟩

/-- An analysis: the targets are those of the turns, in another order. -/
theorem analyzeCaches_returns {scannedDirs dirs : List CacheDirInfo}
    {targets : List MaintenanceTarget} {w w' : World}
    (hrun : (analyzeCaches env depth scannedDirs).run w = (some (dirs, targets), w')) :
    let turns := turnsOf env depth scannedDirs w
    Scanned w.process.config (analysisTime env w) w.process.states turns w'.process.states ∧
      turns.map Turn.dir = scannedDirs ∧ dirs = turns.map Turn.measured ∧
        targets.Perm (turns.filterMap Turn.target?) := by
  obtain ⟨unsorted, w₁, tick, hdirs, hprocess, htargets⟩ := analyzeCaches_split hrun
  obtain ⟨hscanned, hmap, hmeasured, hunsorted⟩ := analyzeDirs_returns hdirs
  refine ⟨?_, hmap, hmeasured, ?_⟩
  · rw [hprocess]
    exact hscanned
  · rw [htargets, hunsorted]
    exact env.sortTargets_perm _ _

end FreshCore
