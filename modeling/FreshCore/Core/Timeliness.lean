import FreshCore.Core.IdleStreak
import FreshCore.Core.Scheduler

/-!
# When maintenance comes

The timer paces the engine, and the engine goes a fixed way to maintenance. Each state on that
way has a least time that it still takes, which bounds how often maintenance comes, and on a
device that is left alone a greatest one, which says by when it does.
-/

namespace FreshCore

open Posix Imperative Config Device Cache

namespace Evaluation

/-- The clock as the evaluation begins. -/
def time (env : Env) (evaluation : Evaluation) : Nat := env.clock evaluation.1.tick

/-- The clock as the evaluation reads it, with the screen off. -/
def reading (env : Env) (evaluation : Evaluation) : Nat := env.clock (evaluation.1.tick + 1)

/-- What the timer is set to after the evaluation. -/
def sleepSec (evaluation : Evaluation) : Nat :=
  (nextSleepSec evaluation.2.process.config evaluation.2.process.engine).toNat

/-- The timer does not expire before its time. -/
def NotEarly (env : Env) (evaluation : Evaluation) : Prop :=
  evaluation.time env + evaluation.sleepSec ≤ env.clock evaluation.2.tick

/-- Unless it is one of maintenance, the evaluation and what comes between the timer and the
next one take no more than the given time. -/
def NotLate (env : Env) (latency : Nat) (evaluation : Evaluation) : Prop :=
  evaluation.entersMaintenance = false →
    env.clock evaluation.2.tick ≤ evaluation.time env + evaluation.sleepSec + latency

/-- The screen is off, and none of the other checks would find anything. -/
def IsRestful (env : Env) (evaluation : Evaluation) : Prop :=
  (env.screen evaluation.1.tick).isOn = false ∧
    conditionsSafe env evaluation.1.process.config (evaluation.1.tick + 2) = true

instance (env : Env) (evaluation : Evaluation) : Decidable (evaluation.NotEarly env) := by
  unfold NotEarly
  infer_instance

instance (env : Env) (latency : Nat) (evaluation : Evaluation) :
    Decidable (evaluation.NotLate env latency) := by
  unfold NotLate
  infer_instance

instance (env : Env) (evaluation : Evaluation) : Decidable (evaluation.IsRestful env) := by
  unfold IsRestful
  infer_instance

end Evaluation

variable {env : Env} {depth : Nat}

/-! ## The intervals by state -/

/-- The seconds between an evaluation that ends in the given state and the next. -/
def EngineState.interval : EngineState → Nat
  | active => 1800
  | screenOff => 300
  | idleCandidate => 60
  | deepIdle => 300
  | maintenance => 300
  | aborting => 30
  | errorBackoff => 300
  | boot => 60

theorem HasIntervals.interval {config : Configuration} (h : HasIntervals config)
    (engine : EngineState) : (FreshCore.nextSleepSec config engine).toNat = engine.interval := by
  cases engine <;> simp only [FreshCore.nextSleepSec, h.active, h.screenOff, h.deepIdle] <;> rfl

theorem evaluation_intervals {w w' : World} (h : HasIntervals w.process.config)
    (hrun : (evaluateAndTransition env depth).run w = (some (), w')) :
    HasIntervals w'.process.config ∧
      Evaluation.sleepSec (w, w') = w'.process.engine.interval := by
  have hkept : HasIntervals w'.process.config := by
    rw [(evaluateAndTransition_returns env depth hrun).1]
    exact h
  exact ⟨hkept, hkept.interval _⟩

/-! ## How often -/

/-- The seconds that maintenance is away at least, at an evaluation in the given state. -/
def EngineState.soonest : EngineState → Nat
  | deepIdle => 0
  | idleCandidate => 300
  | screenOff => 360
  | boot => 660
  | active => 660
  | maintenance => 2460
  | aborting => 2460
  | errorBackoff => 2460

theorem EngineState.soonest_le (engine : EngineState) : engine.soonest ≤ 2460 := by
  cases engine <;> decide

/-- The way to maintenance is no shorter after an evaluation than before it, and a new one
after maintenance. -/
theorem Evaluated.soonest {w w' : World} {acts : List Event} (h : Evaluated env w w' acts) :
    w.process.engine.soonest ≤ w'.process.engine.interval + w'.process.engine.soonest ∧
      (acts.any Event.isMaintenance = true →
        2460 ≤ w'.process.engine.interval + w'.process.engine.soonest) := by
  have hfar := w.process.engine.soonest_le
  cases h with
  | awake hverdict _ hengine =>
      rw [hengine]
      exact ⟨hfar, nofun⟩
  | woken _ _ hengine =>
      rw [hengine]
      exact ⟨hfar, fun _ => Nat.le_refl _⟩
  | finished _ _ hengine _ =>
      rw [hengine]
      exact ⟨hfar, fun _ => Nat.le_refl _⟩
  | interrupted _ _ hengine _ =>
      rw [hengine]
      exact ⟨hfar.trans (Nat.le_add_left _ _), fun _ => Nat.le_add_left _ _⟩
  | advanced _ hdeep hengine hmoved =>
      rw [hengine]
      constructor
      · generalize w.process.engine = engine
        cases engine <;> cases idleVerdict env w <;> decide
      · rcases hmoved with rfl | ⟨state, rfl⟩ <;> simp [Event.isMaintenance]

/-- No maintenance comes sooner than the state at the start of a run allows. -/
theorem EngineRun.soonest {start : World} {evaluations : List Evaluation}
    (hrun : EngineRun env start evaluations) (hintervals : HasIntervals start.process.config)
    (hearly : ∀ evaluation ∈ evaluations, evaluation.NotEarly env) :
    ∀ evaluation ∈ evaluations, evaluation.entersMaintenance = true →
      env.clock start.tick + start.process.engine.soonest ≤ evaluation.time env := by
  induction hrun with
  | nil => simp
  | @cons w w' depth rest hstep _ ih =>
      obtain ⟨hkept, hsleep⟩ := evaluation_intervals hintervals hstep
      obtain ⟨checks, acts, _, _, hevaluated⟩ := evaluation_events hstep
      have hfirst : env.clock w.tick + w'.process.engine.interval ≤ env.clock w'.tick := by
        rw [← hsleep]
        exact hearly _ (List.mem_cons_self ..)
      rw [List.forall_mem_cons] at hearly ⊢
      constructor
      · intro henters
        have hdeep : w.process.engine = .deepIdle :=
          ((evaluation_entersMaintenance hstep).mp henters).1
        rw [hdeep]
        exact Nat.le_refl _
      · intro evaluation hmem henters
        have hlater := ih hkept hearly.2 evaluation hmem henters
        have hway := hevaluated.soonest.1
        omega

/-- While the timer does not expire early, maintenance comes 41 minutes after the one before
at the soonest, in whatever way that one ended and whatever state the screen is in. -/
theorem maintenance_keepsDistance {start : World} {evaluations : List Evaluation}
    (hrun : EngineRun env start evaluations) (hintervals : HasIntervals start.process.config)
    (hearly : ∀ evaluation ∈ evaluations, evaluation.NotEarly env) :
    evaluations.Pairwise fun earlier later => earlier.entersMaintenance = true →
      later.entersMaintenance = true → earlier.time env + 2460 ≤ later.time env := by
  induction hrun with
  | nil => exact .nil
  | @cons w w' depth rest hstep hrest ih =>
      obtain ⟨hkept, hsleep⟩ := evaluation_intervals hintervals hstep
      obtain ⟨checks, acts, hchecks, hevents, hevaluated⟩ := evaluation_events hstep
      have hfirst : env.clock w.tick + w'.process.engine.interval ≤ env.clock w'.tick := by
        rw [← hsleep]
        exact hearly _ (List.mem_cons_self ..)
      rw [List.forall_mem_cons] at hearly
      refine .cons ?_ (ih hkept hearly.2)
      intro later hmem henters hlater
      have hacts : acts.any Event.isMaintenance = true :=
        hevaluated.entersMaintenance_iff.mpr ((evaluation_entersMaintenance hstep).mp henters)
      have hway := hevaluated.soonest.2 hacts
      have hreached := hrest.soonest hkept hearly.2 later hmem hlater
      dsimp only [Evaluation.time] at hreached ⊢
      omega

theorem maintenance_keepsDistance_slowDevice :
    (evaluationsFrom slowDevice 1 8 bootWorld).Pairwise fun earlier later =>
      earlier.entersMaintenance = true → later.entersMaintenance = true →
        earlier.time slowDevice + 2460 ≤ later.time slowDevice :=
  maintenance_keepsDistance (engineRun_evaluationsFrom (by decide +kernel)) ⟨rfl, rfl, rfl⟩
    (by decide +kernel)

/-- Maintenance comes twice in these. -/
example : (evaluationsFrom slowDevice 1 8 bootWorld).countP Evaluation.entersMaintenance = 2 := by
  decide +kernel

/-! ## By when -/

/-- The clock by which an evaluation in the given state that begins at the given time, and
those after it, have come to maintenance. The delay is over at `expiry`. -/
def EngineState.latest (expiry latency time : Nat) : EngineState → Nat
  | deepIdle => time
  | idleCandidate => time + 300 + latency
  | screenOff => max time (expiry + 300 + latency) + 360 + 2 * latency
  | boot => max time expiry + 660 + 3 * latency
  | active => max time expiry + 660 + 3 * latency
  | aborting => max (time + 1800 + latency) expiry + 660 + 3 * latency
  | errorBackoff => max (time + 1800 + latency) expiry + 660 + 3 * latency
  | maintenance => time

/-- How long a device at rest waits for maintenance at most. -/
def deadline (config : Configuration) (latency : Nat) : Nat :=
  max (delaySec config) (1800 + latency) + 660 + 3 * latency

theorem EngineState.le_latest (expiry latency time : Nat) (engine : EngineState) :
    time ≤ engine.latest expiry latency time := by
  cases engine <;> dsimp only [latest] <;> omega

theorem EngineState.latest_le {expiry latency time first : Nat} {config : Configuration}
    (engine : EngineState) (htime : time ≤ first) (hexpiry : expiry = first + delaySec config) :
    engine.latest expiry latency time ≤ first + deadline config latency := by
  unfold deadline
  cases engine <;> dsimp only [latest] <;> omega

/-- On its way to maintenance the engine is held up only by a delay that is not over. -/
theorem nextEngine_latest {verdict : IdleState} {engine : EngineState}
    {expiry latency time time' : Nat} (hdeep : engine ≠ .deepIdle) (hway : engine ≠ .maintenance)
    (htime : time' ≤ time + (nextEngine verdict engine).interval + latency)
    (hexpiry : expiry ≤ time → verdict = .idleCandidate) :
    (nextEngine verdict engine).latest expiry latency time' ≤ engine.latest expiry latency time ∧
      nextEngine verdict engine ≠ .maintenance := by
  cases engine with
  | boot | active | idleCandidate | aborting | errorBackoff =>
      dsimp only [nextEngine, EngineState.interval, EngineState.latest] at htime ⊢
      exact ⟨by omega, by decide⟩
  | screenOff =>
      dsimp only [nextEngine] at htime ⊢
      by_cases hcandidate : verdict = .idleCandidate
      · rw [if_pos hcandidate] at htime ⊢
        dsimp only [EngineState.interval, EngineState.latest] at htime ⊢
        exact ⟨by omega, by decide⟩
      · have hnotOver := mt hexpiry hcandidate
        rw [if_neg hcandidate] at htime ⊢
        dsimp only [EngineState.interval, EngineState.latest] at htime ⊢
        exact ⟨by omega, by decide⟩
  | deepIdle => exact absurd rfl hdeep
  | maintenance => exact absurd rfl hway

/-- What the evaluations of a device at rest keep: the time the screen went off is known and
no later than the given one, and the engine is on its way. -/
structure Resting (env : Env) (config : Configuration) (off : Nat) (w : World) : Prop where
  config_eq : w.process.config = config
  known : screenOffSince w.process (env.monotonic (w.tick + 1)).sec ≠ 0
  since : (screenOffSince w.process (env.monotonic (w.tick + 1)).sec).toNat ≤ off
  onTheWay : w.process.engine ≠ .maintenance

variable {config : Configuration} {off latency : Nat} {w w' : World}

/-- A device at rest is a candidate from the time on at which the delay is over. -/
theorem Resting.idleVerdict (h : Resting env config off w) (hclock : env.ClockGoesOn)
    (hfits : DelayFits config) (hrest : Evaluation.IsRestful env (w, w'))
    (hexpiry : off + delaySec config ≤ env.clock w.tick) :
    FreshCore.idleVerdict env w = .idleCandidate := by
  obtain ⟨hscreen, hsafe⟩ := hrest
  have hsince := h.since
  have hread : env.clock w.tick ≤ env.clock (w.tick + 1) := hclock (Nat.le_succ _)
  have hnow : (env.monotonic (w.tick + 1)).sec.toNat = env.clock (w.tick + 1) := rfl
  have hdelay : ¬ (env.monotonic (w.tick + 1)).sec -
      screenOffSince w.process (env.monotonic (w.tick + 1)).sec <
        requiredDelaySec w.process.config := by
    rw [UInt64.not_lt, UInt64.le_iff_toNat_le, h.config_eq, requiredDelaySec_toNat hfits,
      UInt64.toNat_sub_of_le _ _ (UInt64.le_iff_toNat_le.mpr (by omega)), hnow]
    omega
  have hmet : conditionsMet env w = true := by
    rw [conditionsMet, hsafe, decide_eq_false hdelay]
    rfl
  rw [FreshCore.idleVerdict, if_neg (by simp [hscreen]), if_pos hmet]

theorem Resting.idleVerdict_ne (hrest : Evaluation.IsRestful env (w, w')) :
    FreshCore.idleVerdict env w ≠ .notIdle := by
  rw [Ne, idleVerdict_eq_notIdle]
  simp [hrest.1]

/-- An evaluation that does not come to maintenance leaves the device resting, and the time by
which maintenance comes is not put off. -/
theorem Resting.evaluateAndTransition (h : Resting env config off w) (hclock : env.ClockGoesOn)
    (hfits : DelayFits config) (hintervals : HasIntervals config)
    (hrun : (FreshCore.evaluateAndTransition env depth).run w = (some (), w'))
    (hrest : Evaluation.IsRestful env (w, w')) (hlate : Evaluation.NotLate env latency (w, w'))
    (henters : Evaluation.entersMaintenance (w, w') = false) :
    Resting env config off w' ∧
      w'.process.engine.latest (off + delaySec config) latency (env.clock w'.tick) ≤
        w.process.engine.latest (off + delaySec config) latency (env.clock w.tick) := by
  have hverdict := idleVerdict_ne hrest
  have hdeep : w.process.engine ≠ .deepIdle := by
    intro hdeep
    rw [(evaluation_entersMaintenance hrun).mpr ⟨hdeep, hverdict⟩] at henters
    cases henters
  obtain ⟨hkept, hsleep⟩ := evaluation_intervals (by rwa [h.config_eq]) hrun
  have htime := hlate henters
  rw [hsleep] at htime
  dsimp only [Evaluation.time] at htime
  obtain ⟨checks, acts, _, _, hevaluated⟩ := evaluation_events hrun
  have hengine : w'.process.engine =
      nextEngine (FreshCore.idleVerdict env w) w.process.engine := by
    cases hevaluated with
    | awake hnot => exact absurd hnot hverdict
    | woken hnot => exact absurd hnot hverdict
    | advanced _ _ hengine => exact hengine
    | finished _ hengine => exact absurd hengine hdeep
    | interrupted _ hengine => exact absurd hengine hdeep
  have hoff : w'.process.screenOffTime =
      screenOffSince w.process (env.monotonic (w.tick + 1)).sec := by
    obtain ⟨_, _, hcheck, _⟩ := evaluateIdleState_run env w
    rw [(evaluation_unchecked hrun hdeep).screenOffTime, hcheck]
    dsimp only
    rw [screenOffAfter, if_neg (by simp [hrest.1])]
  have hlater : screenOffSince w'.process (env.monotonic (w'.tick + 1)).sec =
      screenOffSince w.process (env.monotonic (w.tick + 1)).sec := by
    rw [screenOffSince, if_neg (by rw [hoff]; exact h.known), hoff]
  have hway := nextEngine_latest hdeep h.onTheWay (hengine ▸ htime)
    (h.idleVerdict hclock hfits hrest)
  rw [← hengine] at hway
  refine ⟨⟨?_, ?_, ?_, hway.2⟩, hway.1⟩
  · rw [(evaluateAndTransition_returns env depth hrun).1, h.config_eq]
  · rw [hlater]
    exact h.known
  · rw [hlater]
    exact h.since

/-- A run on a device at rest that goes on for long enough comes to maintenance in time. -/
theorem EngineRun.latest {window : List Evaluation} (hrun : EngineRun env w window)
    (h : Resting env config off w) (hclock : env.ClockGoesOn) (hfits : DelayFits config)
    (hintervals : HasIntervals config) (hrest : ∀ evaluation ∈ window, evaluation.IsRestful env)
    (hlate : ∀ evaluation ∈ window, evaluation.NotLate env latency) {due : Nat}
    (hdue : w.process.engine.latest (off + delaySec config) latency (env.clock w.tick) ≤ due)
    (hlong : ∃ evaluation ∈ window, due < evaluation.time env) :
    ∃ evaluation ∈ window, evaluation.entersMaintenance = true ∧ evaluation.time env ≤ due := by
  induction hrun with
  | nil => simp at hlong
  | @cons w w' depth rest hstep hrest' ih =>
      have htime : env.clock w.tick ≤ due := (EngineState.le_latest ..).trans hdue
      rw [List.forall_mem_cons] at hrest hlate
      cases henters : Evaluation.entersMaintenance (w, w') with
      | true => exact ⟨(w, w'), List.mem_cons_self .., henters, htime⟩
      | false =>
          obtain ⟨hnext, hway⟩ := h.evaluateAndTransition hclock hfits hintervals hstep hrest.1
            hlate.1 henters
          obtain ⟨evaluation, hmem, hafter⟩ := hlong
          rcases List.mem_cons.mp hmem with rfl | hmem
          · exact absurd htime (Nat.not_le_of_lt hafter)
          obtain ⟨found, hfound, hentered⟩ :=
            ih hnext hrest.2 hlate.2 (hway.trans hdue) ⟨evaluation, hmem, hafter⟩
          exact ⟨found, List.mem_cons_of_mem _ hfound, hentered⟩

theorem EngineRun.suffix {start : World} {before window : List Evaluation}
    (hrun : EngineRun env start (before ++ window)) : ∃ w, EngineRun env w window := by
  induction before generalizing start with
  | nil => exact ⟨start, hrun⟩
  | cons _ _ ih =>
      cases hrun with
      | cons _ hrest => exact ih hrest

/-- At every point of a run from the start it is known how far the engine has come. -/
theorem EngineRun.nearing {start : World} {before rest : List Evaluation} {first : Evaluation}
    (hrun : EngineRun env start (before ++ first :: rest)) (hboot : start.process.engine = .boot)
    (hchecks : start.checks = []) (hoff : start.process.screenOffTime = 0)
    (hclock : env.ClockGoesOn) (hfits : DelayFits start.process.config) :
    Nearing env start.process.config before first.1 := by
  have hstart : Nearing env start.process.config [] start := by
    refine ⟨⟨⟨rfl, ?_⟩, Or.inl hoff, ?_⟩, ?_, ?_, ?_⟩
    · simp [hchecks]
    · simp [hchecks, callsOf]
    · simp [hboot]
    · simp [hboot]
    · simp [hboot]
  have hall : Throughout (fun before evaluation =>
      Nearing env start.process.config before evaluation.1) ([] ++ (before ++ first :: rest)) := by
    refine hrun.throughout Throughout.nil hstart ?_
    intro before w w' depth hnearing hevaluated
    exact ⟨hnearing, hnearing.evaluateAndTransition hclock hfits hevaluated⟩
  exact hall before first ⟨rest, by simp⟩

/-- An evaluation that may be the first to find the screen off starts a rest, as long as the
clock is not at zero, which stands for a screen that is on. -/
theorem Nearing.resting {before : List Evaluation} (h : Nearing env config before w)
    (hclock : env.ClockGoesOn) (hstarted : 0 < env.clock (w.tick + 1)) :
    Resting env config (env.clock (w.tick + 1)) w where
  config_eq := h.timed.config_eq
  known := by
    rw [screenOffSince]
    split
    · rintro hzero
      rw [Env.clock, hzero] at hstarted
      cases hstarted
    next hoff => exact hoff
  since := by
    have hcall := @Timed.since env config w h.timed { tick := w.tick, verdict := .screenOff } rfl
    obtain ⟨call, _, htime, htick⟩ := hcall (by simp)
    rw [htime]
    exact hclock (Nat.succ_le_succ htick)
  onTheWay := h.rests.1

/-- Whatever came before: once the device is at rest and stays so, with a timer that is late by
no more than the given time, maintenance comes by the deadline. -/
theorem maintenance_comes {start : World} {before rest : List Evaluation} {first : Evaluation}
    (hrun : EngineRun env start (before ++ first :: rest)) (hboot : start.process.engine = .boot)
    (hchecks : start.checks = []) (hoff : start.process.screenOffTime = 0)
    (hintervals : HasIntervals start.process.config) (hfits : DelayFits start.process.config)
    (hclock : env.ClockGoesOn) (hstarted : 0 < first.reading env)
    (hrest : ∀ evaluation ∈ first :: rest, evaluation.IsRestful env)
    (hlate : ∀ evaluation ∈ first :: rest, evaluation.NotLate env latency)
    (hlong : ∃ evaluation ∈ first :: rest,
      first.reading env + deadline start.process.config latency < evaluation.time env) :
    ∃ evaluation ∈ first :: rest, evaluation.entersMaintenance = true ∧
      evaluation.time env ≤ first.reading env + deadline start.process.config latency := by
  have hresting := (hrun.nearing hboot hchecks hoff hclock hfits).resting hclock hstarted
  obtain ⟨w, hwindow⟩ := hrun.suffix
  have hw : w = first.1 := by
    cases hwindow
    rfl
  subst hw
  apply hwindow.latest hresting hclock hfits hintervals hrest hlate _ hlong
  apply EngineState.latest_le
  · exact hclock (Nat.le_succ _)
  · rfl

theorem maintenance_comes_patientDevice :
    ∃ evaluation ∈ evaluationsFrom patientDevice 1 6 bootWorld,
      evaluation.entersMaintenance = true ∧
        evaluation.time patientDevice ≤ 900 + deadline bootWorld.process.config 5400 := by
  have hrun : EngineRun patientDevice bootWorld
      ([] ++ evaluationsFrom patientDevice 1 6 bootWorld) :=
    engineRun_evaluationsFrom (by decide +kernel)
  exact maintenance_comes hrun rfl rfl rfl ⟨rfl, rfl, rfl⟩ ⟨by decide, by decide⟩
    (clockGoesOn_of_patientClock rfl) (by decide +kernel) (by decide +kernel) (by decide +kernel)
    (by decide +kernel)

end FreshCore
