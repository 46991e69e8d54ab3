import FreshCore.Cache.AnalysisTurns

/-!
# The cooldown after a cleanup

All that is remembered of a cleanup is the time in the record of its package. An analysis
keeps that time and a later cleanup of a package with the same record moves it on, so
between the cleanup and the clock it stays, and the package is left alone for six hours.
-/

namespace FreshCore

open Posix Imperative Config Device Cache

/-! ## Calls that work on the records -/

inductive CacheCall where
  | analyze (scannedDirs : List CacheDirInfo)
  | clean (targetDir : CacheDirInfo)

/-- A call, with the worlds before and after it. -/
structure CacheStep where
  call : CacheCall
  depth : Nat
  before : World
  after : World

/-- The package and the time of a cleanup that was recorded. -/
def Event.cleaned? : Event → Option (Bytes × UInt64)
  | cleaned pkgName timeMs => some (pkgName, timeMs)
  | _ => none

/-- The cleanup among the events, if there is one. -/
def recordedCleanup (events : List Event) : Option (Bytes × UInt64) :=
  events.findSome? Event.cleaned?

namespace CacheStep

/-- The call was made and came to its end. -/
def Ran (env : Env) (step : CacheStep) : Prop :=
  match step.call with
  | .analyze scannedDirs =>
      ∃ result, (analyzeCaches env step.depth scannedDirs).run step.before =
        (some result, step.after)
  | .clean targetDir =>
      ∃ completed, (cleanDirectorySafely env step.depth targetDir).run step.before =
        (some completed, step.after)

/-- The cleanup that the call recorded. -/
def recorded? (step : CacheStep) : Option (Bytes × UInt64) :=
  recordedCleanup (step.after.log.drop step.before.log.length)

/-- The wall clock that the call goes by: an analysis reads it when it starts, a cleaning
when it records the cleanup. -/
def clock? (env : Env) (step : CacheStep) : Option UInt64 :=
  match step.call with
  | .analyze _ => some (analysisTime env step.before)
  | .clean _ => step.recorded?.map Prod.snd

end CacheStep

/-- Calls made one after the other in one session, each on the records that the one before it
has left; whatever else happens between them leaves the records alone. -/
inductive CacheRun (env : Env) : PackageStore → List CacheStep → PackageStore → Prop
  | nil (states : PackageStore) : CacheRun env states [] states
  | cons {states final : PackageStore} {step : CacheStep} {rest : List CacheStep} :
      step.before.process.states = states → step.Ran env →
      CacheRun env step.after.process.states rest final →
      CacheRun env states (step :: rest) final

/-- The step that a call makes in a world. -/
def CacheCall.step (env : Env) (depth : Nat) (w : World) (call : CacheCall) : CacheStep where
  call := call
  depth := depth
  before := w
  after :=
    match call with
    | .analyze scannedDirs => ((analyzeCaches env depth scannedDirs).run w).2
    | .clean targetDir => ((cleanDirectorySafely env depth targetDir).run w).2

theorem CacheCall.step_before {env : Env} {depth : Nat} {w : World} {call : CacheCall} :
    (call.step env depth w).before = w := rfl

/-- The call is not cut off. -/
def CacheCall.isComplete (env : Env) (depth : Nat) (w : World) : CacheCall → Bool
  | .analyze scannedDirs => ((analyzeCaches env depth scannedDirs).run w).1.isSome
  | .clean targetDir => ((cleanDirectorySafely env depth targetDir).run w).1.isSome

theorem CacheCall.step_ran {env : Env} {depth : Nat} {w : World} {call : CacheCall}
    (hcomplete : call.isComplete env depth w = true) : (call.step env depth w).Ran env := by
  cases call with
  | analyze scannedDirs =>
      obtain ⟨result, hresult⟩ := Option.isSome_iff_exists.mp hcomplete
      exact ⟨result, Program.run_eq_of_result hresult⟩
  | clean targetDir =>
      obtain ⟨completed, hresult⟩ := Option.isSome_iff_exists.mp hcomplete
      exact ⟨completed, Program.run_eq_of_result hresult⟩

/-! ## What a call does to the record of a package -/

variable {env : Env} {depth : Nat}

theorem removalScope_recordedCleanup {w w' : World} (h : removalScope.Reaches w w') :
    ∃ new, w'.log = w.log ++ new ∧ recordedCleanup new = none := by
  obtain ⟨new, hlog, hnew⟩ := h.log
  refine ⟨new, hlog, List.findSome?_eq_none_iff.mpr fun event hevent => ?_⟩
  rcases hnew event hevent with hremoval | hambient
  · cases event <;> first | rfl | exact hremoval.elim
  · cases event <;> first | rfl | cases hambient

theorem removalScope_states {w w' : World} (h : removalScope.Reaches w w') :
    w'.process.states = w.process.states := by
  refine h.observe fun f hf p => ?_
  obtain ⟨time, start, files, bytes, hremoval⟩ := hf p
  rw [hremoval]

/-- A cleaning leaves the records alone or records one cleanup, and reports it. -/
theorem cleanDirectorySafely_returns {targetDir : CacheDirInfo} {completed : Bool}
    {w w' : World}
    (hrun : (cleanDirectorySafely env depth targetDir).run w = (some completed, w')) :
    let recorded := recordedCleanup (w'.log.drop w.log.length)
    (recorded = none ∧ w'.process.states = w.process.states) ∨
      ∃ now, recorded = some (targetDir.pkgName, now) ∧
        w'.process.states = updatePackageState w.process.states targetDir.pkgName
          (recordCleanup now (getPackageState w.process.states targetDir.pkgName)) := by
  have hsub := Scope.Sub.refl removalScope
  have hquiet {w'' : World} (h : removalScope.Reaches w w'') :
      recordedCleanup (w''.log.drop w.log.length) = none ∧
        w''.process.states = w.process.states := by
    obtain ⟨new, hlog, hnone⟩ := removalScope_recordedCleanup h
    rw [hlog, List.drop_left]
    exact ⟨hnone, removalScope_states h⟩
  obtain ⟨children, w₁, hlist, hrun⟩ := Program.run_bind_eq_some.mp hrun
  have hreach := (getDirectoryChildren_within env
    (listScope_sub_removalScope.trans hsub) targetDir.path).reaches w
  rw [hlist] at hreach
  cases children with
  | none =>
      cases hrun
      exact Or.inl (hquiet hreach)
  | some children =>
      obtain ⟨_, w₂, henter, hrun⟩ := Program.run_bind_eq_some.mp hrun
      obtain ⟨whole, w₃, hclean, hrun⟩ := Program.run_bind_eq_some.mp hrun
      obtain ⟨_, w₄, hleave, hrun⟩ := Program.run_bind_eq_some.mp hrun
      have hreach₂ : removalScope.Reaches w₁ w₂ := by
        cases henter
        exact .event rfl rfl (Or.inl trivial)
      have hreach₃ := (cleanChildren_within env depth hsub targetDir.path children).reaches w₂
      rw [hclean] at hreach₃
      have hreach₄ : removalScope.Reaches w₃ w₄ := by
        cases hleave
        exact .event rfl rfl (Or.inl trivial)
      have hremoved := ((hreach.trans hreach₂).trans hreach₃).trans hreach₄
      cases whole with
      | false =>
          cases hrun
          exact Or.inl (hquiet hremoved)
      | true =>
          right
          obtain ⟨process, w₅, hprocess, hrun⟩ := Program.run_bind_eq_some.mp hrun
          cases hprocess
          obtain ⟨now, w₆, hnow, hrun⟩ := Program.run_bind_eq_some.mp hrun
          obtain ⟨_, w₇, hset, hrun⟩ := Program.run_bind_eq_some.mp hrun
          obtain ⟨_, w₈, hnote, hrun⟩ := Program.run_bind_eq_some.mp hrun
          obtain ⟨_, w₉, hsave, hrun⟩ := Program.run_bind_eq_some.mp hrun
          cases hrun
          cases hnow
          cases hset
          cases hnote
          obtain ⟨hprocess, saved, hsaved⟩ := saveStateAtomic_returns hsave
          obtain ⟨new, hlog, hnone⟩ := removalScope_recordedCleanup hremoved
          refine ⟨(env.realtime w₄.tick).ms, ?_, ?_⟩
          · simp only [World.record, World.next, hlog] at hsaved
            rw [hsaved, List.append_assoc, List.append_assoc, List.drop_left, recordedCleanup,
              List.findSome?_append, ← recordedCleanup, hnone]
            rfl
          · rw [hprocess]
            simp only [World.record, World.next, removalScope_states hremoved]

/-- An analysis keeps the time of the last cleanup of every package. -/
theorem Scanned.lastCleanupMs {config : Configuration} {now : UInt64} {turns : List Turn}
    {states final : PackageStore} (h : Scanned config now states turns final) (pkgName : Bytes) :
    (∀ turn ∈ turns, (getPackageState turn.states pkgName).lastCleanupMs =
        (getPackageState states pkgName).lastCleanupMs) ∧
      (getPackageState final pkgName).lastCleanupMs =
        (getPackageState states pkgName).lastCleanupMs := by
  induction h with
  | nil => exact ⟨by simp, rfl⟩
  | @cons turn rest final _ _ ih =>
      have hturn : (getPackageState (scanRecord now turn.states turn.dir.pkgName turn.size)
          pkgName).lastCleanupMs = (getPackageState turn.states pkgName).lastCleanupMs := by
        unfold scanRecord
        dsimp only
        split
        · rfl
        · rw [getPackageState_update]
          split
          next hhash => rw [getPackageState_congr hhash]; rfl
          next => rfl
      rw [hturn] at ih
      refine ⟨fun other hother => ?_, ih.2⟩
      rcases List.mem_cons.mp hother with rfl | hrest
      · rfl
      · exact ih.1 other hrest

/-! ## Runs -/

/-- What a call does to the time of the last cleanup of a package: it keeps it, or moves it to
the time the call goes by. -/
theorem CacheStep.Ran.lastCleanupMs {step : CacheStep} (h : step.Ran env) (pkgName : Bytes) :
    (getPackageState step.after.process.states pkgName).lastCleanupMs =
        (getPackageState step.before.process.states pkgName).lastCleanupMs ∨
      ∃ now, step.clock? env = some now ∧
        (getPackageState step.after.process.states pkgName).lastCleanupMs = now := by
  obtain ⟨call, depth, before, after⟩ := step
  cases call with
  | analyze scannedDirs =>
      obtain ⟨⟨dirs, targets⟩, hrun⟩ := h
      obtain ⟨hscanned, _⟩ := analyzeCaches_returns hrun
      exact Or.inl (hscanned.lastCleanupMs pkgName).2
  | clean targetDir =>
      obtain ⟨completed, hrun⟩ := h
      rcases cleanDirectorySafely_returns hrun with ⟨_, hstates⟩ | ⟨now, hrecorded, hstates⟩
      · left
        dsimp only
        rw [hstates]
      · dsimp only
        rw [hstates, getPackageState_update]
        split
        · right
          refine ⟨now, ?_, rfl⟩
          rw [clock?, recorded?, hrecorded]
          rfl
        · exact Or.inl rfl

/-- The record of a cleanup at `time` is still there in every later call: it was not made
before `time`, nor after the last reading of the clock. -/
theorem CacheRun.lastCleanupMs {states final : PackageStore} {middle back : List CacheStep}
    {later : CacheStep} {pkgName : Bytes} {time last : UInt64}
    (hrun : CacheRun env states (middle ++ later :: back) final)
    (hclock : (last :: (middle ++ later :: back).filterMap (CacheStep.clock? env)).Pairwise
      (· < ·))
    (hlow : time ≤ (getPackageState states pkgName).lastCleanupMs)
    (hhigh : (getPackageState states pkgName).lastCleanupMs ≤ last) :
    time ≤ (getPackageState later.before.process.states pkgName).lastCleanupMs ∧
      ∀ now, later.clock? env = some now →
        (getPackageState later.before.process.states pkgName).lastCleanupMs < now := by
  induction middle generalizing states last with
  | nil =>
      cases hrun with
      | cons hbefore hran hrest =>
          rw [hbefore]
          refine ⟨hlow, fun now hnow => UInt64.lt_of_le_of_lt hhigh ?_⟩
          apply List.rel_of_pairwise_cons hclock
          rw [List.nil_append, List.filterMap_cons, hnow]
          exact List.mem_cons_self
  | cons step rest ih =>
      cases hrun with
      | cons hbefore hran hrest =>
          rw [List.cons_append, List.filterMap_cons] at hclock
          rcases hran.lastCleanupMs pkgName with hsame | ⟨now, hnow, htime⟩
          · rw [← hbefore, ← hsame] at hlow hhigh
            refine ih hrest ?_ hlow hhigh
            split at hclock
            · exact hclock
            · exact hclock.sublist ((List.sublist_cons_self _ _).cons_cons last)
          · rw [hnow] at hclock
            have hlater : last < now := List.rel_of_pairwise_cons hclock List.mem_cons_self
            refine ih hrest (List.Pairwise.of_cons hclock) ?_ (UInt64.le_of_eq htime)
            rw [htime]
            exact UInt64.le_trans (UInt64.le_trans hlow hhigh) (UInt64.le_of_lt hlater)

/-- A run can be entered anywhere. -/
theorem CacheRun.suffix {states final : PackageStore} {front back : List CacheStep}
    {step : CacheStep} (h : CacheRun env states (front ++ step :: back) final) :
    step.Ran env ∧ CacheRun env step.after.process.states back final := by
  induction front generalizing states with
  | nil =>
      cases h with
      | cons _ hran hrest => exact ⟨hran, hrest⟩
  | cons first rest ih =>
      cases h with
      | cons _ _ hrest => exact ih hrest

theorem isCoolingDown_of_recent {now : UInt64} {state : PackageState}
    (hlater : state.lastCleanupMs < now)
    (hsoon : now.toNat < state.lastCleanupMs.toNat + minCleanupIntervalMs.toNat)
    (hslow : state.growthRateBytesPerDay.toUInt64 < 500 * 1024 * 1024) :
    isCoolingDown now state = true := by
  have hrecent : now - state.lastCleanupMs < minCleanupIntervalMs := by
    rw [UInt64.lt_iff_toNat_lt, UInt64.toNat_sub_of_le _ _ (UInt64.le_of_lt hlater)]
    have := UInt64.lt_iff_toNat_lt.mp hlater
    omega
  rw [isCoolingDown, decide_eq_true hlater, decide_eq_true hrecent, decide_eq_true hslow]
  rfl

/-- After a cleanup of a package has been recorded, and for six hours on a clock that always
moves on, no analysis makes a directory of the package a target, unless its recorded growth
is at least 500 MiB a day when its turn comes. -/
theorem cacheRun_cooldown {states final : PackageStore} {steps front middle back : List CacheStep}
    {cleaning analysis : CacheStep} (hrun : CacheRun env states steps final)
    (hclock : (steps.filterMap (CacheStep.clock? env)).Pairwise (· < ·))
    (hsplit : steps = front ++ cleaning :: (middle ++ analysis :: back))
    {targetDir : CacheDirInfo} (hclean : cleaning.call = .clean targetDir)
    {pkgName : Bytes} {time : UInt64} (hrecorded : cleaning.recorded? = some (pkgName, time))
    {scannedDirs : List CacheDirInfo} (hanalyze : analysis.call = .analyze scannedDirs)
    {result : List CacheDirInfo × List MaintenanceTarget}
    (hresult : ((analyzeCaches env analysis.depth scannedDirs).run analysis.before).1 =
      some result)
    (hsoon : (analysisTime env analysis.before).toNat <
      time.toNat + minCleanupIntervalMs.toNat) :
    let turns := turnsOf env analysis.depth scannedDirs analysis.before
    result.2.Perm (turns.filterMap Turn.target?) ∧
      ∀ turn ∈ turns, turn.dir.pkgName = pkgName → turn.target?.isSome →
        500 * 1024 * 1024 ≤ turn.state.growthRateBytesPerDay.toUInt64 := by
  intro turns
  subst hsplit
  obtain ⟨hscanned, _, _, htargets⟩ := analyzeCaches_returns (Program.run_eq_of_result hresult)
  refine ⟨htargets, fun turn hturn hname htarget => ?_⟩
  obtain ⟨hran, hrest⟩ := hrun.suffix
  -- the clock of the cleaning is the time it recorded
  have hcleaned : cleaning.clock? env = some time := by
    rw [CacheStep.clock?, hclean]
    simp [hrecorded]
  have hreadings : (time :: (middle ++ analysis :: back).filterMap
      (CacheStep.clock? env)).Pairwise (· < ·) := by
    rw [List.filterMap_append, List.filterMap_cons, hcleaned] at hclock
    exact (List.pairwise_append.mp hclock).2.1
  have hset : (getPackageState cleaning.after.process.states pkgName).lastCleanupMs = time := by
    rw [CacheStep.Ran, hclean] at hran
    obtain ⟨completed, hcall⟩ := hran
    rw [CacheStep.recorded?] at hrecorded
    rcases cleanDirectorySafely_returns hcall with ⟨hnone, _⟩ | ⟨now, hsome, hstates⟩
    · rw [hnone] at hrecorded
      cases hrecorded
    · rw [hsome, Option.some.injEq, Prod.mk.injEq] at hrecorded
      obtain ⟨rfl, rfl⟩ := hrecorded
      rw [hstates, getPackageState_update, if_pos rfl]
      rfl
  obtain ⟨hlow, hbefore⟩ := hrest.lastCleanupMs hreadings (UInt64.le_of_eq hset.symm)
    (UInt64.le_of_eq hset)
  have hnow : analysis.clock? env = some (analysisTime env analysis.before) := by
    rw [CacheStep.clock?, hanalyze]
  -- at the turn, the record still holds that time
  have hkept : turn.state.lastCleanupMs =
      (getPackageState analysis.before.process.states pkgName).lastCleanupMs := by
    rw [Turn.state, hname]
    exact (hscanned.lastCleanupMs pkgName).1 turn hturn
  rw [← hkept] at hlow hbefore
  have hdone : turn.IsDone analysis.before.process.config (analysisTime env analysis.before) :=
    hscanned.isDone turn hturn
  rw [hdone.target] at htarget
  apply UInt64.not_lt.mp
  intro hslow
  have hskip : turn.isSkipped (analysisTime env analysis.before) = true := by
    apply isCoolingDown_of_recent (hbefore _ hnow) _ hslow
    have := UInt64.le_iff_toNat_le.mp hlow
    omega
  rw [if_pos (Or.inl hskip)] at htarget
  cases htarget

/-- A device whose clocks move on with each observation. -/
def tickingDevice : Env :=
  { restingDevice with
    realtime := fun tick => { sec := 1700000000 + .ofNat tick, nsec := 0 } }

/-- The app's cache directory is empty. -/
def emptyCacheWorld : World where
  process.config.cacheThresholdMb := 0
  fs := FsStep.applyAll .bare [
    .mkdir [] (lit "data"),
    .mkdir [lit "data"] (lit "com.a"),
    .mkdir [lit "data", lit "com.a"] (lit "cache")]

def emptyCache : CacheDirInfo := { path := lit "/data/com.a/cache", pkgName := lit "com.a" }

/-- First the cache is cleaned. -/
def emptyCacheCleaned : CacheStep :=
  CacheCall.step tickingDevice 1 emptyCacheWorld (.clean emptyCache)

/-- Then it is analyzed. -/
def emptyCacheAnalyzed : CacheStep :=
  CacheCall.step tickingDevice 1 emptyCacheCleaned.after (.analyze [emptyCache])

theorem cacheRun_emptyCache : CacheRun tickingDevice ∅ [emptyCacheCleaned, emptyCacheAnalyzed]
    emptyCacheAnalyzed.after.process.states := by
  have hcleaned : emptyCacheCleaned.Ran tickingDevice := CacheCall.step_ran (by decide +kernel)
  have hanalyzed : emptyCacheAnalyzed.Ran tickingDevice := CacheCall.step_ran (by decide +kernel)
  have hbefore : emptyCacheAnalyzed.before = emptyCacheCleaned.after := CacheCall.step_before
  exact .cons rfl hcleaned (.cons (by rw [hbefore]) hanalyzed (.nil _))

/-- The cache is left alone seconds after it was cleaned. -/
theorem cacheRun_cooldown_emptyCache :
    let turns :=
      turnsOf tickingDevice emptyCacheAnalyzed.depth [emptyCache] emptyCacheAnalyzed.before
    ([] : List MaintenanceTarget).Perm (turns.filterMap Turn.target?) ∧
      ∀ turn ∈ turns, turn.dir.pkgName = lit "com.a" → turn.target?.isSome →
        500 * 1024 * 1024 ≤ turn.state.growthRateBytesPerDay.toUInt64 := by
  have hrecorded : emptyCacheCleaned.recorded? = some (lit "com.a", 1700000001000) := by
    decide +kernel
  have hsplit : [emptyCacheCleaned, emptyCacheAnalyzed] =
      [] ++ emptyCacheCleaned :: ([] ++ emptyCacheAnalyzed :: []) := rfl
  have hresult : ((analyzeCaches tickingDevice emptyCacheAnalyzed.depth [emptyCache]).run
      emptyCacheAnalyzed.before).1 = some ([emptyCache], []) := by decide +kernel
  exact cacheRun_cooldown cacheRun_emptyCache (by decide +kernel) hsplit rfl hrecorded rfl
    hresult (by decide +kernel)

end FreshCore
