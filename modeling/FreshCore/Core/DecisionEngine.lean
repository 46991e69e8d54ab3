import FreshCore.Cache.CacheCleaner

/-! # The decision engine -/

namespace FreshCore

open Posix Imperative Config Device Cache

variable (env : Env) (depth : Nat)

def transitionTo (newState : EngineState) : Daemon Unit := do
  let process ← getProcess
  if process.engine ≠ newState then do
    setProcess fun p => { p with engine := newState }
    note (.transition newState)
  else return ()

def optimizeDoze : Daemon Unit := note (.doze .optimizeDoze)

def wakeFromDoze : Daemon Unit := note (.doze .wakeFromDoze)

/-- The loop over the packages; `none` is the early return with the screen on. -/
def scanPackages : List PackageInfo → Daemon (Option (List CacheDirInfo))
  | [] => return some []
  | pkg :: rest => do
      let on ← isScreenOn env
      if on then return none
      else do
        let pkgCaches ← scanPackageCache env pkg
        let others ← scanPackages rest
        return others.map (pkgCaches ++ ·)

/-- The loop over the targets; `false` is the early return. -/
def cleanTargets : List MaintenanceTarget → Daemon Bool
  | [] => return true
  | target :: rest => do
      let idle ← evaluateIdleState env
      if idle = .notIdle then return false
      else do
        let completed ← cleanDirectorySafely env depth target.cacheDir
        if !completed then return false else cleanTargets rest

/-- `PerformMaintenance` after the sweeps; `false` stands for an early return. -/
def maintainCaches : Daemon Bool := do
  let on ← isScreenOn env
  if on then return false
  else do
    let packages ← sense fun tick => getInstalledPackages (env.packagesList tick)
    let allCacheDirs ← scanPackages env packages
    match allCacheDirs with
    | none => return false
    | some allCacheDirs => do
        let (_, targets) ← analyzeCaches env depth allCacheDirs
        cleanTargets env depth targets

def performMaintenance : Daemon Unit := do
  note .maintenance
  runSystemMaintenanceSweeps env depth
  let finished ← maintainCaches env depth
  if finished then do
    optimizeDoze
    transitionTo .active
  else transitionTo .aborting

/-- The `switch` of `EvaluateAndTransition`. -/
def advance (current : EngineState) (idleState : IdleState) : Daemon Unit :=
  match current with
  | .boot => transitionTo .screenOff
  | .active => transitionTo .screenOff
  | .screenOff =>
      if idleState = .idleCandidate then transitionTo .idleCandidate else return ()
  | .idleCandidate => transitionTo .deepIdle
  -- the verdict of this evaluation is not looked at
  | .deepIdle => do
      transitionTo .maintenance
      performMaintenance env depth
  | .maintenance => return ()
  | .aborting => transitionTo .active
  | .errorBackoff => transitionTo .active

def evaluateAndTransition : Daemon Unit := do
  let process ← getProcess
  let idleState ← evaluateIdleState env
  if idleState = .notIdle then
    -- only a change of state wakes the device from Doze
    if process.engine ≠ .active then do
      wakeFromDoze
      transitionTo .active
    else return ()
  else advance env depth process.engine idleState

/-! ## The scheduler and `main` -/

/-- The seconds until the next evaluation. -/
def nextSleepSec (config : Configuration) : EngineState → UInt32
  | .active => .ofInt config.checkIntervalActiveSec.toInt
  | .screenOff => .ofInt config.checkIntervalScreenOffSec.toInt
  | .idleCandidate => .ofInt config.checkIntervalDeepIdleSec.toInt
  | .deepIdle => .ofInt config.checkIntervalScreenOffSec.toInt
  | .maintenance => .ofInt config.checkIntervalScreenOffSec.toInt
  | .aborting => 30
  | .errorBackoff => 300
  | .boot => 60

/-- The event loop, until it has seen the given number of timer expirations. -/
def eventLoop : Nat → Daemon Unit
  | 0 => return ()
  | expirations + 1 => do
      evaluateAndTransition env depth
      let process ← getProcess
      note (.timer (nextSleepSec process.config process.engine))
      eventLoop expirations

def runScheduler (expirations : Nat) : Daemon Unit := do
  note (.timer 1)
  eventLoop env depth expirations

/-- `main`, as far as it concerns the maintenance engine: its log, the boot tweaks and the audio
thread are left out. -/
def main (expirations : Nat) : Daemon Unit := do
  let file ← sense env.configFile
  setProcess fun p => { p with config := (loadConfig p.config file).2 }
  let process ← getProcess
  if !process.config.enabled then return ()
  else runScheduler env depth expirations

/-- A new process starts on what the one before it has left behind. -/
def World.restart (w : World) : World := { w with process := {}, working := [] }

/-! ## What maintenance leaves behind -/

/-- Sweeping and cleaning say nothing about the engine or Doze and change neither the
engine's state nor the configuration. -/
def maintenanceScope : Scope where
  event
    | .maintenance => False
    | .doze _ => False
    | .transition _ => False
    | .timer _ => False
    | _ => True
  change f := ∀ p, (f p).config = p.config ∧ (f p).engine = p.engine

theorem cleanScope_sub_maintenanceScope : cleanScope.Sub maintenanceScope where
  event event hevent := by cases event <;> first | exact hevent | exact trivial
  change _ hchange := hchange

theorem sweepScope_sub_maintenanceScope : sweepScope.Sub maintenanceScope where
  event event hevent := by cases event <;> first | exact hevent | exact trivial
  change f hf := removalScope_sub_cleanScope.change f hf

theorem analysisScope_sub_maintenanceScope : analysisScope.Sub maintenanceScope where
  event event hevent := by cases event <;> first | exact hevent | exact trivial
  change f hf p := by
    obtain ⟨states, hstates⟩ := hf p
    rw [hstates]
    exact ⟨rfl, rfl⟩

theorem idleScope_sub_maintenanceScope : idleScope.Sub maintenanceScope :=
  (idleScope_sub_removalScope.trans removalScope_sub_cleanScope).trans
    cleanScope_sub_maintenanceScope

variable {scope : Scope}

theorem scanPackages_within (hsub : idleScope.Sub scope) (packages : List PackageInfo) :
    Within env scope (scanPackages env packages) := by
  induction packages with
  | nil => exact .pure _
  | cons pkg rest ih =>
      refine .bind (isScreenOn_within env hsub) fun on => ?_
      split
      · exact .pure _
      · exact .bind (scanPackageCache_within env pkg) fun _ => .bind ih fun _ => .pure _

theorem cleanTargets_within (hsub : cleanScope.Sub scope) (targets : List MaintenanceTarget) :
    Within env scope (cleanTargets env depth targets) := by
  induction targets with
  | nil => exact .pure _
  | cons target rest ih =>
      have hidle := (idleScope_sub_removalScope.trans removalScope_sub_cleanScope).trans hsub
      refine .bind (evaluateIdleState_within env hidle) fun idle => ?_
      split
      · exact .pure _
      refine .bind (cleanDirectorySafely_within env depth hsub _) fun completed => ?_
      split
      · exact .pure _
      · exact ih

theorem maintainCaches_within : Within env maintenanceScope (maintainCaches env depth) := by
  refine .bind (isScreenOn_within env idleScope_sub_maintenanceScope) fun on => ?_
  split
  · exact .pure _
  refine .bind (.prim (.sense _)) fun packages => ?_
  refine .bind (scanPackages_within env idleScope_sub_maintenanceScope packages) fun dirs => ?_
  split
  · exact .pure _
  · exact .bind (analyzeCaches_within env depth analysisScope_sub_maintenanceScope _) fun _ =>
      cleanTargets_within env depth cleanScope_sub_maintenanceScope _

theorem sweeps_within : Within env maintenanceScope (runSystemMaintenanceSweeps env depth) :=
  runSystemMaintenanceSweeps_within env depth sweepScope_sub_maintenanceScope

theorem maintenanceScope_engine {w w' : World} (h : maintenanceScope.Reaches w w') :
    w'.process.engine = w.process.engine :=
  h.observe fun _ hchange p => (hchange p).2

theorem maintenanceScope_config {w w' : World} (h : maintenanceScope.Reaches w w') :
    w'.process.config = w.process.config :=
  h.observe fun _ hchange p => (hchange p).1

/-! ## What an evaluation does -/

theorem transitionTo_run (newState : EngineState) (w : World) :
    (transitionTo newState).run w = (some (),
      if w.process.engine ≠ newState then
        { w with
          process := { w.process with engine := newState }
          log := w.log ++ [.transition newState] }
      else w) := by
  unfold transitionTo
  by_cases hsame : w.process.engine = newState <;>
    simp [Program.run_bind, getProcess, setProcess, note, World.record, hsame]

/-- Maintenance that was not cut off has swept and cleaned, and then either finished and
forced the device into Doze, or been interrupted. -/
theorem performMaintenance_returns {w w' : World}
    (hrun : (performMaintenance env depth).run w = (some (), w'))
    (hengine : w.process.engine = .maintenance) :
    w'.process.config = w.process.config ∧
    ∃ new, (∀ event ∈ new, maintenanceScope.event event ∨ event.isAmbient) ∧
      ((w'.process.engine = .active ∧
          w'.log = w.log ++ .maintenance :: (new ++
            [.doze .optimizeDoze, .transition .active])) ∨
        (w'.process.engine = .aborting ∧
          w'.log = w.log ++ .maintenance :: (new ++ [.transition .aborting]))) := by
  obtain ⟨_, w₁, hnote, hrun⟩ := Program.run_bind_eq_some.mp hrun
  cases hnote
  obtain ⟨_, w₂, hsweeps, hrun⟩ := Program.run_bind_eq_some.mp hrun
  obtain ⟨finished, w₃, hcaches, hrun⟩ := Program.run_bind_eq_some.mp hrun
  have hreach₂ := (sweeps_within env depth).reaches (w.record .maintenance)
  rw [hsweeps] at hreach₂
  have hreach₃ := (maintainCaches_within env depth).reaches w₂
  rw [hcaches] at hreach₃
  have hreach : maintenanceScope.Reaches (w.record .maintenance) w₃ := hreach₂.trans hreach₃
  obtain ⟨new, hlog, hnew⟩ := hreach.log
  have hengine₃ : w₃.process.engine = .maintenance :=
    (maintenanceScope_engine hreach).trans hengine
  have hconfig₃ : w₃.process.config = (w.record .maintenance).process.config :=
    maintenanceScope_config hreach
  have hlog₃ : w₃.log = w.log ++ .maintenance :: new := by
    rw [hlog, World.record, List.append_assoc, List.singleton_append]
  cases finished with
  | true =>
      obtain ⟨_, w₄, hdoze, hrun⟩ := Program.run_bind_eq_some.mp hrun
      cases hdoze
      rw [transitionTo_run, if_pos (by simp [World.record, hengine₃])] at hrun
      cases hrun
      refine ⟨hconfig₃, new, hnew, Or.inl ⟨rfl, ?_⟩⟩
      simp [World.record, hlog₃]
  | false =>
      replace hrun : (transitionTo .aborting).run w₃ = (some (), w') := hrun
      rw [transitionTo_run, if_pos (by rw [hengine₃]; decide)] at hrun
      cases hrun
      refine ⟨hconfig₃, new, hnew, Or.inr ⟨rfl, ?_⟩⟩
      simp [hlog₃]

/-- The engine's state after an evaluation that found the device idle and started no
maintenance. -/
def nextEngine (verdict : IdleState) : EngineState → EngineState
  | .boot => .screenOff
  | .active => .screenOff
  | .screenOff => if verdict = .idleCandidate then .idleCandidate else .screenOff
  | .idleCandidate => .deepIdle
  | .deepIdle => .maintenance
  | .maintenance => .maintenance
  | .aborting => .active
  | .errorBackoff => .active

/-- What one evaluation can do to the engine and the log. -/
inductive Evaluated (w w' : World) : List Event → Prop
  /-- The screen is on, and was so before. -/
  | awake : idleVerdict env w = .notIdle → w.process.engine = .active →
      w'.process.engine = .active → Evaluated w w' []
  /-- The screen was just turned on. -/
  | woken : idleVerdict env w = .notIdle → w.process.engine ≠ .active →
      w'.process.engine = .active →
      Evaluated w w' [.doze .wakeFromDoze, .transition .active]
  | advanced {moved : List Event} : idleVerdict env w ≠ .notIdle →
      w.process.engine ≠ .deepIdle →
      w'.process.engine = nextEngine (idleVerdict env w) w.process.engine →
      (moved = [] ∨ ∃ state, moved = [.transition state]) → Evaluated w w' moved
  | finished {new : List Event} : idleVerdict env w ≠ .notIdle →
      w.process.engine = .deepIdle → w'.process.engine = .active →
      (∀ event ∈ new, maintenanceScope.event event ∨ event.isAmbient) →
      Evaluated w w' (.transition .maintenance :: .maintenance ::
        (new ++ [.doze .optimizeDoze, .transition .active]))
  | interrupted {new : List Event} : idleVerdict env w ≠ .notIdle →
      w.process.engine = .deepIdle → w'.process.engine = .aborting →
      (∀ event ∈ new, maintenanceScope.event event ∨ event.isAmbient) →
      Evaluated w w' (.transition .maintenance :: .maintenance ::
        (new ++ [.transition .aborting]))

theorem advance_moves {verdict : IdleState} {w w' : World}
    (hrun : (advance env depth w.process.engine verdict).run w = (some (), w'))
    (hengine : w.process.engine ≠ .deepIdle) :
    w'.process.config = w.process.config ∧
      w'.process.engine = nextEngine verdict w.process.engine ∧
      ∃ moved, w'.log = w.log ++ moved ∧
        (moved = [] ∨ ∃ state, moved = [.transition state]) := by
  have hstay (hsame : w' = w) : w'.process.config = w.process.config ∧
      w'.process.engine = w.process.engine ∧ ∃ moved, w'.log = w.log ++ moved ∧
        (moved = [] ∨ ∃ state, moved = [.transition state]) := by
    subst hsame
    exact ⟨rfl, rfl, [], (List.append_nil _).symm, Or.inl rfl⟩
  have hmove {state : EngineState} (hrun : (transitionTo state).run w = (some (), w')) :
      w'.process.config = w.process.config ∧ w'.process.engine = state ∧
        ∃ moved, w'.log = w.log ++ moved ∧
          (moved = [] ∨ ∃ state, moved = [.transition state]) := by
    rw [transitionTo_run] at hrun
    split at hrun
    · cases hrun
      exact ⟨rfl, rfl, [.transition state], rfl, Or.inr ⟨state, rfl⟩⟩
    next hsame =>
      cases hrun
      exact ⟨rfl, not_not.mp hsame, [], (List.append_nil _).symm, Or.inl rfl⟩
  generalize hcurrent : w.process.engine = current at hrun hengine hstay ⊢
  cases current with
  | boot => exact hmove hrun
  | active => exact hmove hrun
  | screenOff =>
      unfold advance at hrun
      dsimp only at hrun
      split at hrun
      next hcandidate =>
        rw [nextEngine, if_pos hcandidate]
        exact hmove hrun
      next hcandidate =>
        cases hrun
        rw [nextEngine, if_neg hcandidate]
        exact hstay rfl
  | idleCandidate => exact hmove hrun
  | deepIdle => exact absurd rfl hengine
  | maintenance => cases hrun; exact hstay rfl
  | aborting => exact hmove hrun
  | errorBackoff => exact hmove hrun

/-- An evaluation checks the device, reports the verdict, and acts on it. -/
theorem evaluateAndTransition_returns {w w' : World}
    (hrun : (evaluateAndTransition env depth).run w = (some (), w')) :
    w'.process.config = w.process.config ∧
    ∃ checks acts, ScreenChecks (idleVerdict env w) checks ∧
      w'.log = w.log ++ (checks ++ .idle (idleVerdict env w) :: acts) ∧
      Evaluated env w w' acts := by
  obtain ⟨tick, made, heval, hchecks, _⟩ := evaluateIdleState_run env w
  generalize made.map Prod.snd = checks at heval hchecks
  generalize hverdict : idleVerdict env w = verdict at heval hchecks
  obtain ⟨process, _, hprocess, hrun⟩ := Program.run_bind_eq_some.mp hrun
  cases hprocess
  obtain ⟨idleState, w₁, hidle, hrun⟩ := Program.run_bind_eq_some.mp hrun
  rw [heval] at hidle
  have hlog : w₁.log = w.log ++ (checks ++ [.idle verdict]) := by cases hidle; rfl
  have hengine : w₁.process.engine = w.process.engine := by cases hidle; rfl
  have hconfig : w₁.process.config = w.process.config := by cases hidle; rfl
  obtain rfl : verdict = idleState := by cases hidle; rfl
  clear hidle heval
  have hwhole {acts : List Event} (hacts : w'.log = w₁.log ++ acts) :
      w'.log = w.log ++ (checks ++ .idle verdict :: acts) := by
    rw [hacts, hlog]
    simp
  split at hrun
  next hnot =>
    subst hnot
    split at hrun
    next hactive =>
      obtain ⟨_, w₂, hwake, hrun⟩ := Program.run_bind_eq_some.mp hrun
      cases hwake
      rw [transitionTo_run, if_pos (by simpa [World.record, hengine] using hactive)] at hrun
      cases hrun
      refine ⟨hconfig, checks, _, hchecks, hwhole ?_, .woken hverdict hactive rfl⟩
      simp [World.record]
    next hactive =>
      cases hrun
      have hactive' := not_not.mp hactive
      exact ⟨hconfig, checks, [], hchecks, hwhole (List.append_nil _).symm,
        .awake hverdict hactive' (hengine.trans hactive')⟩
  next hnot =>
    have hnot' : idleVerdict env w ≠ .notIdle := by rwa [hverdict]
    by_cases hdeep : w.process.engine = .deepIdle
    · rw [hdeep] at hrun
      obtain ⟨_, w₂, htransition, hrun⟩ := Program.run_bind_eq_some.mp hrun
      rw [transitionTo_run, if_pos (by rw [hengine, hdeep]; decide)] at htransition
      cases htransition
      obtain ⟨hconfig', new, hnew, hend⟩ := performMaintenance_returns env depth hrun rfl
      rcases hend with ⟨hactive, hlog'⟩ | ⟨haborting, hlog'⟩
      · refine ⟨hconfig'.trans hconfig, checks, _, hchecks, hwhole ?_,
          .finished hnot' hdeep hactive hnew⟩
        rw [hlog', List.append_assoc, List.singleton_append]
      · refine ⟨hconfig'.trans hconfig, checks, _, hchecks, hwhole ?_,
          .interrupted hnot' hdeep haborting hnew⟩
        rw [hlog', List.append_assoc, List.singleton_append]
    · rw [← hengine] at hrun
      obtain ⟨hconfig', hnext, moved, hlog', hmoved⟩ :=
        advance_moves env depth hrun (by rwa [hengine])
      rw [hengine, ← hverdict] at hnext
      exact ⟨hconfig'.trans hconfig, checks, moved, hchecks, hwhole hlog',
        .advanced hnot' hdeep hnext hmoved⟩

end FreshCore
