import FreshCore.Daemon.Scope

/-! # The idle detector -/

namespace FreshCore

open Posix Imperative Config Device

variable (env : Env)

/-- `android::IsScreenOn` -/
def isScreenOn : Daemon Bool := do
  let tick ← moment
  let on ← sense fun tick => (env.screen tick).isOn
  report tick (.screen on)
  return on

/-- `android::IsHeavyForegroundActivity` -/
def isHeavyForegroundActivity : Daemon Bool := do
  let on ← isScreenOn env
  if !on then return false
  else do
    let focus ← sense env.currentFocus
    return isHeavyFocus focus

def getMonotonicTimeSec : Daemon UInt64 := sense fun tick => (env.monotonic tick).sec

def isBatterySafe : Daemon Bool := do
  let process ← getProcess
  sense fun tick => (env.battery tick).isSafe process.config

def isThermalSafe : Daemon Bool := do
  let process ← getProcess
  sense fun tick => Device.isThermalSafe process.config (env.thermalZones tick)

def isMemoryPressureSafe : Daemon Bool :=
  sense fun tick => Device.isMemoryPressureSafe (env.memoryPressure tick)

/-- `idle_delay_minutes * 60` in `int` arithmetic, then converted to `uint64_t`. -/
def requiredDelaySec (config : Configuration) : UInt64 :=
  .ofInt (config.idleDelayMinutes * 60).toInt

/-- The checks after the idle delay has passed, each made only if the ones before it
found nothing. -/
def checkConditions : Daemon IdleState := do
  let batterySafe ← isBatterySafe env
  if !batterySafe then return .screenOff
  else do
    let thermalSafe ← isThermalSafe env
    if !thermalSafe then return .screenOff
    else do
      let memorySafe ← isMemoryPressureSafe env
      if !memorySafe then return .screenOff
      else do
        let heavy ← isHeavyForegroundActivity env
        if heavy then return .screenOff else return .idleCandidate

/-- The body of `EvaluateIdleState`. -/
def checkIdle : Daemon IdleState := do
  let on ← isScreenOn env
  if on then do
    setProcess fun p => { p with screenOffTime := 0 }
    return .notIdle
  else do
    let now ← getMonotonicTimeSec env
    setProcess fun p => if p.screenOffTime = 0 then { p with screenOffTime := now } else p
    let process ← getProcess
    if now - process.screenOffTime < requiredDelaySec process.config then return .screenOff
    else checkConditions env

def evaluateIdleState : Daemon IdleState := do
  let tick ← moment
  let state ← checkIdle env
  report tick (.idle state)
  return state

/-! ## What a check does -/

/-- A check reports what it saw, and keeps the time the screen went off. -/
def idleScope : Scope where
  event
    | .screen _ => True
    | .idle _ => True
    | _ => False
  change f := ∀ p, ∃ time, f p = { p with screenOffTime := time }

variable {scope : Scope}

theorem isScreenOn_within (hsub : idleScope.Sub scope) : Within env scope (isScreenOn env) :=
  .bind (.prim .moment) fun _ => .bind (.prim (.sense _)) fun _ =>
    .bind (.prim (.report (hsub.event _ trivial))) fun _ => .pure _

theorem isHeavyForegroundActivity_within (hsub : idleScope.Sub scope) :
    Within env scope (isHeavyForegroundActivity env) := by
  refine .bind (isScreenOn_within env hsub) fun on => ?_
  split
  · exact .pure _
  · exact .bind (.prim (.sense _)) fun _ => .pure _

theorem checkConditions_within (hsub : idleScope.Sub scope) :
    Within env scope (checkConditions env) := by
  refine .bind (.bind (.prim .getProcess) fun _ => .prim (.sense _)) fun batterySafe => ?_
  split
  · exact .pure _
  refine .bind (.bind (.prim .getProcess) fun _ => .prim (.sense _)) fun thermalSafe => ?_
  split
  · exact .pure _
  refine .bind (.prim (.sense _)) fun memorySafe => ?_
  split
  · exact .pure _
  refine .bind (isHeavyForegroundActivity_within env hsub) fun heavy => ?_
  split <;> exact .pure _

theorem evaluateIdleState_within (hsub : idleScope.Sub scope) :
    Within env scope (evaluateIdleState env) := by
  refine .bind (.prim .moment) fun tick => .bind ?_ fun state =>
    .bind (.prim (.report (hsub.event _ trivial))) fun _ => .pure _
  refine .bind (isScreenOn_within env hsub) fun on => ?_
  split
  · exact .bind (.prim (.setProcess (hsub.change _ fun p => ⟨0, rfl⟩))) fun _ => .pure _
  refine .bind (.prim (.sense _)) fun now => ?_
  refine .bind (.prim (.setProcess (hsub.change _ fun p => ?_))) fun _ => ?_
  · split
    · exact ⟨now, rfl⟩
    · exact ⟨p.screenOffTime, rfl⟩
  refine .bind (.prim .getProcess) fun process => ?_
  split
  · exact .pure _
  · exact checkConditions_within env hsub

/-! ## The verdict as a function of the readings -/

/-- The battery, thermal, memory and foreground checks, on the readings they make from
the given observation on. -/
def conditionsSafe (config : Configuration) (tick : Nat) : Bool :=
  (env.battery tick).isSafe config &&
    Device.isThermalSafe config (env.thermalZones (tick + 1)) &&
    Device.isMemoryPressureSafe (env.memoryPressure (tick + 2)) &&
    !((env.screen (tick + 3)).isOn && isHeavyFocus (env.currentFocus (tick + 4)))

/-- The time since when the screen counts as off, if it is seen off at `now`. -/
def screenOffSince (process : Process) (now : UInt64) : UInt64 :=
  if process.screenOffTime = 0 then now else process.screenOffTime

/-- The idle delay has passed in `w` and all the other checks find nothing. -/
def conditionsMet (w : World) : Bool :=
  let now := (env.monotonic (w.tick + 1)).sec
  !(now - screenOffSince w.process now < requiredDelaySec w.process.config) &&
    conditionsSafe env w.process.config (w.tick + 2)

/-- What `EvaluateIdleState` returns in `w`. -/
def idleVerdict (w : World) : IdleState :=
  if (env.screen w.tick).isOn then .notIdle
  else if conditionsMet env w then .idleCandidate
  else .screenOff

theorem idleVerdict_eq_notIdle (w : World) :
    idleVerdict env w = .notIdle ↔ (env.screen w.tick).isOn := by
  unfold idleVerdict
  split
  next hon => simp [hon]
  next hon =>
    split <;> simp [hon]

theorem isScreenOn_run (w : World) :
    (isScreenOn env).run w =
      (some (env.screen w.tick).isOn,
        { w with
          tick := w.tick + 1
          log := w.log ++ [.screen (env.screen w.tick).isOn]
          checks := w.checks ++ [(w.tick, .screen (env.screen w.tick).isOn)] }) :=
  rfl

/-- The checks after the idle delay make one of the screen at most. -/
theorem checkConditions_run (w : World) :
    ∃ tick made, (checkConditions env).run w =
        (some (if conditionsSafe env w.process.config w.tick then .idleCandidate
          else .screenOff),
          { w with tick, log := w.log ++ made.map Prod.snd, checks := w.checks ++ made }) ∧
      w.tick < tick ∧
      (made = [] ∨ ∃ on, made = [(w.tick + 3, .screen on)] ∧ w.tick + 3 < tick) := by
  unfold checkConditions conditionsSafe isBatterySafe isThermalSafe
    FreshCore.isMemoryPressureSafe isHeavyForegroundActivity
  by_cases hbattery : (env.battery w.tick).isSafe w.process.config
  swap
  · refine ⟨w.tick + 1, [], ?_, by omega, Or.inl rfl⟩
    simp [Program.run_bind, sense, getProcess, World.next, hbattery]
  by_cases hthermal : Device.isThermalSafe w.process.config (env.thermalZones (w.tick + 1))
  swap
  · refine ⟨w.tick + 2, [], ?_, by omega, Or.inl rfl⟩
    simp [Program.run_bind, sense, getProcess, World.next, hbattery, hthermal]
  by_cases hmemory : Device.isMemoryPressureSafe (env.memoryPressure (w.tick + 2))
  swap
  · refine ⟨w.tick + 3, [], ?_, by omega, Or.inl rfl⟩
    simp [Program.run_bind, sense, getProcess, World.next, hbattery, hthermal, hmemory]
  by_cases hon : (env.screen (w.tick + 3)).isOn
  swap
  · refine ⟨w.tick + 4, [(w.tick + 3, .screen false)], ?_, by omega, Or.inr ⟨false, rfl, by omega⟩⟩
    simp [Program.run_bind, sense, getProcess, World.next, isScreenOn_run, hbattery, hthermal,
      hmemory, hon]
  refine ⟨w.tick + 5, [(w.tick + 3, .screen true)], ?_, by omega, Or.inr ⟨true, rfl, by omega⟩⟩
  by_cases hfocus : isHeavyFocus (env.currentFocus (w.tick + 4)) <;>
    simp [Program.run_bind, sense, getProcess, World.next, isScreenOn_run, hbattery, hthermal,
      hmemory, hon, hfocus]

/-- The screen checks an evaluation makes: the second one is the foreground check's. -/
def ScreenChecks (verdict : IdleState) (checks : List Event) : Prop :=
  (verdict = .notIdle ∧ checks = [.screen true]) ∨
    (verdict ≠ .notIdle ∧
      (checks = [.screen false] ∨ ∃ on, checks = [.screen false, .screen on]))

/-- The time the screen went off, as an evaluation in `w` leaves it. -/
def screenOffAfter (w : World) : UInt64 :=
  if (env.screen w.tick).isOn then 0
  else screenOffSince w.process (env.monotonic (w.tick + 1)).sec

/-- The first check of an evaluation in `w` is made at once, and the others after it. -/
def MadeInOrder (w w' : World) (made : List (Nat × Event)) : Prop :=
  w.tick < w'.tick ∧ ∃ later, made = (w.tick, .screen (env.screen w.tick).isOn) :: later ∧
    ∀ check ∈ later, w.tick < check.1 ∧ check.1 < w'.tick

/-- An evaluation returns the verdict, and touches only the screen-off time and the logs. -/
theorem evaluateIdleState_run (w : World) :
    ∃ tick made, (evaluateIdleState env).run w =
        (some (idleVerdict env w),
          { w with
            process := { w.process with screenOffTime := screenOffAfter env w }
            tick
            log := w.log ++ (made.map Prod.snd ++ [.idle (idleVerdict env w)])
            checks := w.checks ++ (made ++ [(w.tick, .idle (idleVerdict env w))]) }) ∧
      ScreenChecks (idleVerdict env w) (made.map Prod.snd) ∧
      MadeInOrder env w { w with tick } made := by
  unfold screenOffAfter
  by_cases hon : (env.screen w.tick).isOn
  · have hverdict := (idleVerdict_eq_notIdle env w).mpr hon
    refine ⟨w.tick + 1, [(w.tick, .screen true)], ?_, Or.inl ⟨hverdict, rfl⟩,
      Nat.lt_succ_self _, [], by rw [hon], by simp⟩
    simp [evaluateIdleState, checkIdle, Program.run_bind, isScreenOn_run, setProcess, moment,
      report, World.record, hon, hverdict]
  have hverdict := mt (idleVerdict_eq_notIdle env w).mp hon
  let now := (env.monotonic (w.tick + 1)).sec
  let since := screenOffSince w.process now
  let w₁ : World :=
    { w with
      process := { w.process with screenOffTime := since }
      tick := w.tick + 2
      log := w.log ++ [.screen false]
      checks := w.checks ++ [(w.tick, .screen false)] }
  -- both branches of the delay test start from the state in which the time is recorded
  have hstart : (checkIdle env).run w =
      (if now - since < requiredDelaySec w.process.config then pure .screenOff
        else checkConditions env).run w₁ := by
    by_cases hzero : w.process.screenOffTime = 0 <;>
      simp [checkIdle, Program.run_bind, isScreenOn_run, getMonotonicTimeSec, sense, setProcess,
        getProcess, World.next, hon, w₁, since, now, screenOffSince, hzero]
  have hoff : (env.screen w.tick).isOn = false := by simpa using hon
  by_cases hdelay : now - since < requiredDelaySec w.process.config
  · have hmet : conditionsMet env w = false := by
      simp only [conditionsMet]
      rw [decide_eq_true hdelay]
      rfl
    refine ⟨w.tick + 2, [(w.tick, .screen false)], ?_, Or.inr ⟨hverdict, Or.inl rfl⟩,
      by dsimp only; omega, [], by rw [hoff], by simp⟩
    rw [evaluateIdleState, Program.run_bind, moment, Program.run_inspect]
    dsimp only
    rw [Program.run_bind, hstart, if_pos hdelay]
    simp [Program.run_bind, report, World.record, w₁, since, now, idleVerdict, hon, hmet]
  · obtain ⟨tick, made, hrun, htick, hmade⟩ := checkConditions_run env w₁
    have hmet : conditionsMet env w = conditionsSafe env w.process.config (w.tick + 2) := by
      simp only [conditionsMet]
      rw [decide_eq_false hdelay]
      rfl
    refine ⟨tick, (w.tick, .screen false) :: made, ?_, Or.inr ⟨hverdict, ?_⟩, ?_, made,
      by rw [hoff], ?_⟩
    · rw [evaluateIdleState, Program.run_bind, moment, Program.run_inspect]
      dsimp only
      rw [Program.run_bind, hstart, if_neg hdelay, hrun]
      simp [Program.run_bind, report, World.record, w₁, since, now, idleVerdict, hon, hmet]
    · rcases hmade with rfl | ⟨on, rfl, _⟩
      · exact Or.inl rfl
      · exact Or.inr ⟨on, rfl⟩
    · dsimp only [w₁] at htick ⊢
      omega
    · rcases hmade with rfl | ⟨on, rfl, hlast⟩
      · simp
      · dsimp only [w₁] at hlast ⊢
        simp only [List.mem_singleton, forall_eq]
        omega

end FreshCore
