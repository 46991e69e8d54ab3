import FreshCore.Core.Restart
import FreshCore.Core.Termination

/-!
# The event loop and its timer

`RunScheduler` sleeps until its one-shot timer expires, evaluates, and sets the timer again.
A signal may come at any moment: between the test of `g_running` and `epoll_wait` it wakes
nobody up, so that it is the timer that ends the wait. That this always happens rests on the
timer being set whenever the loop sleeps.
-/

namespace FreshCore

open Posix Imperative Config Device Cache

/-- The timer behind the file descriptor. -/
inductive Timer where
  | disarmed
  | armed (seconds : UInt32)
  /-- The descriptor is ready to be read. -/
  | expired
  deriving DecidableEq, Repr

/-- `SetTimer`; a time of zero disarms it. -/
def setTimer (seconds : UInt32) : Timer :=
  if seconds = 0 then .disarmed else .armed seconds

/-- Where `RunScheduler` is. -/
inductive SchedulerPoint where
  /-- Before the test of `g_running`. -/
  | test
  /-- In `epoll_wait`. -/
  | wait
  /-- The timer was reported, and has not been read. -/
  | ready
  | evaluate
  /-- Evaluated, and the timer has not been set again. -/
  | arm
  | stopped
  deriving DecidableEq, Repr

/-- The event loop. How many expirations it has handled no code looks at. -/
structure Scheduler where
  running : Bool := true
  timer : Timer
  point : SchedulerPoint := .test
  world : World
  handled : Nat := 0

namespace Scheduler

/-- The loop as it is entered. -/
def start (w : World) : Scheduler where
  timer := setTimer 1
  world := w.record (.timer 1)

/-- The seconds until the next evaluation. -/
def sleepSec (s : Scheduler) : UInt32 :=
  nextSleepSec s.world.process.config s.world.process.engine

end Scheduler

variable {env : Env} {depth : Nat}

/-- What the loop and the timer do by themselves. -/
inductive SchedulerStep (env : Env) (depth : Nat) : Scheduler → Scheduler → Prop
  | expire {s : Scheduler} {seconds : UInt32} : s.timer = .armed seconds →
      SchedulerStep env depth s { s with timer := .expired }
  | sleep {s : Scheduler} : s.point = .test → s.running = true →
      SchedulerStep env depth s { s with point := .wait }
  | leave {s : Scheduler} : s.point = .test → s.running = false →
      SchedulerStep env depth s { s with point := .stopped, timer := .disarmed }
  | wake {s : Scheduler} : s.point = .wait → s.timer = .expired →
      SchedulerStep env depth s { s with point := .ready }
  | read {s : Scheduler} : s.point = .ready → s.timer = .expired →
      SchedulerStep env depth s { s with point := .evaluate, timer := .disarmed }
  | evaluate {s : Scheduler} {world : World} : s.point = .evaluate →
      (evaluateAndTransition env depth).run s.world = (some (), world) →
      SchedulerStep env depth s { s with point := .arm, world }
  | arm {s : Scheduler} : s.point = .arm →
      SchedulerStep env depth s { s with
        point := .test
        timer := setTimer s.sleepSec
        world := s.world.record (.timer s.sleepSec)
        handled := s.handled + 1 }

/-- What may go wrong in the system calls. -/
inductive SchedulerMishap : Scheduler → Scheduler → Prop
  /-- `EINTR` -/
  | interrupted {s : Scheduler} : s.point = .wait → SchedulerMishap s { s with point := .test }
  /-- Any other error of `epoll_wait` ends the loop. -/
  | failed {s : Scheduler} : s.point = .wait →
      SchedulerMishap s { s with point := .stopped, timer := .disarmed }
  /-- The timer could not be read, and stays ready. -/
  | unread {s : Scheduler} : s.point = .ready → SchedulerMishap s { s with point := .test }

/-- Runs of the loop, with the numbers of steps and of mishaps. A signal may come at any
time. -/
inductive SchedulerRun (env : Env) (depth : Nat) : Nat → Nat → Scheduler → Scheduler → Prop
  | refl (s : Scheduler) : SchedulerRun env depth 0 0 s s
  | step {n k : Nat} {s t u : Scheduler} : SchedulerRun env depth n k s t →
      SchedulerStep env depth t u → SchedulerRun env depth (n + 1) k s u
  | mishap {n k : Nat} {s t u : Scheduler} : SchedulerRun env depth n k s t →
      SchedulerMishap t u → SchedulerRun env depth n (k + 1) s u
  | signal {n k : Nat} {s t : Scheduler} : SchedulerRun env depth n k s t →
      SchedulerRun env depth n k s { t with running := false }

theorem SchedulerRun.trans {n k m j : Nat} {s t u : Scheduler}
    (h : SchedulerRun env depth n k s t) (h' : SchedulerRun env depth m j t u) :
    SchedulerRun env depth (n + m) (k + j) s u := by
  induction h' with
  | refl => exact h
  | step _ hstep ih => exact .step (ih h) hstep
  | mishap _ hmishap ih => exact .mishap (ih h) hmishap
  | signal _ ih => exact .signal (ih h)

/-! ## The intervals -/

/-- The intervals are those the source gives them. -/
structure HasIntervals (config : Configuration) : Prop where
  active : config.checkIntervalActiveSec = 1800
  screenOff : config.checkIntervalScreenOffSec = 300
  deepIdle : config.checkIntervalDeepIdleSec = 60

theorem HasIntervals.ite {c : Prop} [Decidable c] {config config' : Configuration}
    (h : HasIntervals config) (h' : HasIntervals config') :
    HasIntervals (if c then config else config') := by
  split
  · exact h
  · exact h'

theorem HasIntervals.assign {config : Configuration} (h : HasIntervals config)
    (key value : Bytes) : HasIntervals (assign config key value) := by
  unfold Config.assign
  repeat' apply HasIntervals.ite
  all_goals exact ⟨h.active, h.screenOff, h.deepIdle⟩

/-- No line of a configuration file sets an interval. -/
theorem HasIntervals.loadConfig {config : Configuration} (h : HasIntervals config)
    (file : Option Bytes) : HasIntervals (loadConfig config file).2 := by
  cases file with
  | none => exact h
  | some text =>
      unfold Config.loadConfig
      dsimp only
      generalize getlines text = lines
      induction lines generalizing config with
      | nil => exact h
      | cons line rest ih =>
          apply ih
          unfold loadLine
          dsimp only
          split
          · exact h
          · split
            · exact h
            · exact h.assign _ _

theorem HasIntervals.nextSleepSec {config : Configuration} (h : HasIntervals config)
    (engine : EngineState) :
    30 ≤ nextSleepSec config engine ∧ nextSleepSec config engine ≤ 1800 := by
  cases engine <;> simp only [FreshCore.nextSleepSec, h.active, h.screenOff, h.deepIdle] <;> decide

theorem setTimer_of_pos {seconds : UInt32} (h : 1 ≤ seconds) :
    setTimer seconds = .armed seconds := by
  rw [setTimer, if_neg]
  rintro rfl
  revert h
  decide

/-! ## The loop and its runs -/

/-- A run over one more expiration ends with that one. -/
theorem eventLoop_succ {expirations : Nat} {w w₁ w₂ : World}
    (hrun : (eventLoop env depth expirations).run w = (some (), w₁))
    (hstep : (evaluateAndTransition env depth).run w₁ = (some (), w₂)) :
    (eventLoop env depth (expirations + 1)).run w =
      (some (), w₂.record (.timer (nextSleepSec w₂.process.config w₂.process.engine))) := by
  induction expirations generalizing w with
  | zero =>
      cases hrun
      rw [eventLoop, Program.run_bind_of_some hstep]
      rfl
  | succ expirations ih =>
      rw [eventLoop] at hrun ⊢
      obtain ⟨_, w', hfirst, hrest⟩ := Program.run_bind_eq_some.mp hrun
      obtain ⟨process, w'', hprocess, hrest⟩ := Program.run_bind_eq_some.mp hrest
      cases hprocess
      obtain ⟨_, w''', hnote, hrest⟩ := Program.run_bind_eq_some.mp hrest
      cases hnote
      rw [Program.run_bind_of_some hfirst]
      exact ih hrest

/-- The loop has yet to see the timer expire. -/
def SchedulerPoint.awaits : SchedulerPoint → Bool
  | test => true
  | wait => true
  | ready => true
  | _ => false

/-- The loop has come as far as `runScheduler` does over the expirations handled so far, and
while it awaits the timer, that one is set. -/
structure Scheduler.Follows (env : Env) (depth : Nat) (w : World) (s : Scheduler) : Prop where
  intervals : HasIntervals s.world.process.config
  reached : s.point ≠ .arm → (runScheduler env depth s.handled).run w = (some (), s.world)
  evaluated : s.point = .arm → ∃ w', (runScheduler env depth s.handled).run w = (some (), w') ∧
    (evaluateAndTransition env depth).run w' = (some (), s.world)
  awaited : s.point.awaits = true →
    s.timer = .expired ∨ s.timer = .armed (if s.handled = 0 then 1 else s.sleepSec)
  ready : s.point = .ready → s.timer = .expired
  spent : s.point.awaits = false → s.timer = .disarmed

namespace Scheduler.Follows

variable {w : World} {s t : Scheduler}

theorem start (h : HasIntervals w.process.config) : (Scheduler.start w).Follows env depth w where
  intervals := h
  reached _ := rfl
  evaluated := nofun
  awaited _ := Or.inr rfl
  ready := nofun
  spent := nofun

theorem signal (h : s.Follows env depth w) : ({ s with running := false }).Follows env depth w :=
  ⟨h.intervals, h.reached, h.evaluated, h.awaited, h.ready, h.spent⟩

theorem mishap (h : s.Follows env depth w) (hmishap : SchedulerMishap s t) :
    t.Follows env depth w := by
  cases hmishap with
  | interrupted hwait =>
      exact ⟨h.intervals, fun _ => h.reached (by simp [hwait]), nofun,
        fun _ => h.awaited (by rw [hwait]; rfl), nofun, nofun⟩
  | failed hwait =>
      exact ⟨h.intervals, fun _ => h.reached (by simp [hwait]), nofun, nofun, nofun,
        fun _ => rfl⟩
  | unread hready =>
      exact ⟨h.intervals, fun _ => h.reached (by simp [hready]), nofun,
        fun _ => Or.inl (h.ready hready), nofun, nofun⟩

theorem step (h : s.Follows env depth w) (hstep : SchedulerStep env depth s t) :
    t.Follows env depth w := by
  cases hstep with
  | expire harmed =>
      refine ⟨h.intervals, h.reached, h.evaluated, fun _ => Or.inl rfl, fun _ => rfl, ?_⟩
      intro hspent
      -- the timer is armed only where it is awaited
      rw [h.spent hspent] at harmed
      cases harmed
  | sleep htest _ =>
      exact ⟨h.intervals, fun _ => h.reached (by simp [htest]), nofun,
        fun _ => h.awaited (by rw [htest]; rfl), nofun, nofun⟩
  | leave htest _ =>
      exact ⟨h.intervals, fun _ => h.reached (by simp [htest]), nofun, nofun, nofun,
        fun _ => rfl⟩
  | wake hwait hexpired =>
      exact ⟨h.intervals, fun _ => h.reached (by simp [hwait]), nofun, fun _ => Or.inl hexpired,
        fun _ => hexpired, nofun⟩
  | read hready _ =>
      exact ⟨h.intervals, fun _ => h.reached (by simp [hready]), nofun, nofun, nofun,
        fun _ => rfl⟩
  | evaluate hpoint hrun =>
      have hconfig := (evaluateAndTransition_returns env depth hrun).1
      refine ⟨by rw [hconfig]; exact h.intervals, fun hne => absurd rfl hne,
        fun _ => ⟨s.world, h.reached (by simp [hpoint]), hrun⟩, nofun, nofun,
        fun _ => h.spent (by rw [hpoint]; rfl)⟩
  | arm harm =>
      obtain ⟨w', hrun, hevaluate⟩ := h.evaluated harm
      have hsleep := h.intervals.nextSleepSec s.world.process.engine
      have hset : setTimer s.sleepSec = .armed s.sleepSec :=
        setTimer_of_pos (UInt32.le_trans (by decide) hsleep.1)
      refine ⟨h.intervals, fun _ => eventLoop_succ hrun hevaluate, nofun, fun _ => Or.inr ?_,
        nofun, nofun⟩
      rw [if_neg (Nat.succ_ne_zero _)]
      exact hset

theorem of_run (hintervals : HasIntervals w.process.config) {n k : Nat}
    (hrun : SchedulerRun env depth n k (.start w) s) : s.Follows env depth w := by
  generalize hstart : Scheduler.start w = first at hrun
  induction hrun with
  | refl => exact hstart ▸ start hintervals
  | step _ hstep ih => exact (ih hstart).step hstep
  | mishap _ hmishap ih => exact (ih hstart).mishap hmishap
  | signal _ ih => exact (ih hstart).signal

end Scheduler.Follows

/-! ## How far a run can go -/

/-- The stages between two settings of the timer. -/
def SchedulerPoint.stage : SchedulerPoint → Nat
  | test => 0
  | wait => 1
  | ready => 2
  | evaluate => 3
  | arm => 4
  | stopped => 4

/-- The stages that are left, once the loop was told to stop. -/
def SchedulerPoint.left : SchedulerPoint → Nat
  | stopped => 0
  | test => 1
  | arm => 2
  | evaluate => 3
  | ready => 4
  | wait => 5

/-- The expirations that may still be handled, once the loop was told to stop. -/
def SchedulerPoint.pending : SchedulerPoint → Nat
  | stopped => 0
  | test => 0
  | _ => 1

/-- One for a timer that does not run. -/
def Timer.past : Timer → Nat
  | armed _ => 0
  | _ => 1

theorem Timer.past_disarmed : Timer.past .disarmed = 1 := rfl

theorem Timer.past_le (timer : Timer) : timer.past ≤ 1 := by
  cases timer <;> simp [past]

namespace Scheduler

/-- How far the loop has come: each expiration takes six stages. -/
def progress (s : Scheduler) : Nat := 6 * s.handled + s.point.stage + s.timer.past

/-- How much a loop that was told to stop has left to do. -/
def remaining (s : Scheduler) : Nat := 2 * s.point.left + (1 - s.timer.past)

/-- The expirations that were handled or may still be, once the loop was told to stop. -/
def committed (s : Scheduler) : Nat := s.handled + s.point.pending

theorem progress_lt (s : Scheduler) : s.progress < 6 * s.handled + 6 := by
  have hpast := s.timer.past_le
  have hstage : s.point.stage ≤ 4 := by cases s.point <;> decide
  unfold progress
  omega

theorem le_progress (s : Scheduler) : 6 * s.handled ≤ s.progress := by
  unfold progress
  omega

theorem remaining_le (s : Scheduler) : s.remaining ≤ 11 := by
  have hleft : s.point.left ≤ 5 := by cases s.point <;> decide
  unfold remaining
  omega

theorem committed_le (s : Scheduler) : s.handled ≤ s.committed ∧ s.committed ≤ s.handled + 1 := by
  have hpending : s.point.pending ≤ 1 := by cases s.point <;> decide
  unfold committed
  omega

end Scheduler

theorem SchedulerStep.progress {s t : Scheduler} (h : SchedulerStep env depth s t) :
    s.progress < t.progress := by
  have hpast := s.timer.past_le
  cases h with
  | expire harmed =>
      dsimp only [Scheduler.progress]
      rw [harmed]
      exact Nat.lt_succ_self _
  | sleep htest _ =>
      dsimp only [Scheduler.progress]
      rw [htest]
      dsimp only [SchedulerPoint.stage]
      omega
  | leave htest _ =>
      dsimp only [Scheduler.progress]
      rw [htest, Timer.past_disarmed]
      dsimp only [SchedulerPoint.stage]
      omega
  | wake hwait _ =>
      dsimp only [Scheduler.progress]
      rw [hwait]
      dsimp only [SchedulerPoint.stage]
      omega
  | read hready _ =>
      dsimp only [Scheduler.progress]
      rw [hready, Timer.past_disarmed]
      dsimp only [SchedulerPoint.stage]
      omega
  | evaluate hpoint _ =>
      dsimp only [Scheduler.progress]
      rw [hpoint]
      dsimp only [SchedulerPoint.stage]
      omega
  | arm _ =>
      have hlt := s.progress_lt
      dsimp only [Scheduler.progress] at hlt ⊢
      omega

theorem SchedulerMishap.progress {s t : Scheduler} (h : SchedulerMishap s t) :
    s.progress ≤ t.progress + 2 := by
  have hpast := s.timer.past_le
  cases h with
  | interrupted hwait =>
      dsimp only [Scheduler.progress]
      rw [hwait]
      dsimp only [SchedulerPoint.stage]
      omega
  | failed hwait =>
      dsimp only [Scheduler.progress]
      rw [hwait, Timer.past_disarmed]
      dsimp only [SchedulerPoint.stage]
      omega
  | unread hready =>
      dsimp only [Scheduler.progress]
      rw [hready]
      dsimp only [SchedulerPoint.stage]
      omega

/-- Evaluations go on: six steps bring the next one, or two more for each mishap. -/
theorem SchedulerRun.progress {n k : Nat} {s t : Scheduler} (h : SchedulerRun env depth n k s t) :
    s.progress + n ≤ t.progress + 2 * k := by
  induction h with
  | refl => exact le_refl _
  | step _ hstep ih =>
      have hprogress := hstep.progress
      omega
  | mishap _ hmishap ih =>
      have hprogress := hmishap.progress
      omega
  | signal _ ih => exact ih

/-- What a step leaves a loop to do that was told to stop. -/
structure Stopping (s t : Scheduler) : Prop where
  running : t.running = false
  remaining : t.remaining < s.remaining
  committed : t.committed ≤ s.committed

theorem SchedulerStep.stopping {s t : Scheduler} (h : SchedulerStep env depth s t)
    (hsignal : s.running = false) : Stopping s t := by
  cases h with
  | expire harmed =>
      refine ⟨hsignal, ?_, le_refl _⟩
      dsimp only [Scheduler.remaining]
      rw [harmed]
      exact Nat.lt_succ_self _
  | sleep _ hrunning =>
      rw [hsignal] at hrunning
      cases hrunning
  | leave htest _ =>
      refine ⟨hsignal, ?_, ?_⟩ <;> dsimp only [Scheduler.remaining, Scheduler.committed] <;>
        rw [htest] <;> dsimp only [SchedulerPoint.left, SchedulerPoint.pending] <;> omega
  | wake hwait _ =>
      refine ⟨hsignal, ?_, ?_⟩ <;> dsimp only [Scheduler.remaining, Scheduler.committed] <;>
        rw [hwait] <;> dsimp only [SchedulerPoint.left, SchedulerPoint.pending] <;> omega
  | read hready hexpired =>
      refine ⟨hsignal, ?_, ?_⟩ <;> dsimp only [Scheduler.remaining, Scheduler.committed] <;>
        rw [hready] <;> dsimp only [SchedulerPoint.left, SchedulerPoint.pending] <;> omega
  | evaluate hpoint _ =>
      refine ⟨hsignal, ?_, ?_⟩ <;> dsimp only [Scheduler.remaining, Scheduler.committed] <;>
        rw [hpoint] <;> dsimp only [SchedulerPoint.left, SchedulerPoint.pending] <;> omega
  | arm harm =>
      refine ⟨hsignal, ?_, ?_⟩ <;> dsimp only [Scheduler.remaining, Scheduler.committed] <;>
        rw [harm] <;> dsimp only [SchedulerPoint.left, SchedulerPoint.pending] <;> omega

theorem SchedulerMishap.stopping {s t : Scheduler} (h : SchedulerMishap s t)
    (hsignal : s.running = false) : Stopping s t := by
  cases h with
  | interrupted hwait =>
      refine ⟨hsignal, ?_, ?_⟩ <;> dsimp only [Scheduler.remaining, Scheduler.committed] <;>
        rw [hwait] <;> dsimp only [SchedulerPoint.left, SchedulerPoint.pending] <;> omega
  | failed hwait =>
      refine ⟨hsignal, ?_, ?_⟩ <;> dsimp only [Scheduler.remaining, Scheduler.committed] <;>
        rw [hwait] <;> dsimp only [SchedulerPoint.left, SchedulerPoint.pending] <;> omega
  | unread hready =>
      refine ⟨hsignal, ?_, ?_⟩ <;> dsimp only [Scheduler.remaining, Scheduler.committed] <;>
        rw [hready] <;> dsimp only [SchedulerPoint.left, SchedulerPoint.pending] <;> omega

theorem SchedulerRun.stopping {n k : Nat} {s t : Scheduler} (h : SchedulerRun env depth n k s t)
    (hsignal : s.running = false) :
    t.running = false ∧ t.remaining + n + k ≤ s.remaining ∧ t.committed ≤ s.committed := by
  induction h with
  | refl => exact ⟨hsignal, le_refl _, le_refl _⟩
  | step _ hstep ih =>
      obtain ⟨hrunning, hremaining, hcommitted⟩ := ih hsignal
      obtain ⟨hrunning', hless, hcommitted'⟩ := hstep.stopping hrunning
      exact ⟨hrunning', by omega, hcommitted'.trans hcommitted⟩
  | mishap _ hmishap ih =>
      obtain ⟨hrunning, hremaining, hcommitted⟩ := ih hsignal
      obtain ⟨hrunning', hless, hcommitted'⟩ := hmishap.stopping hrunning
      exact ⟨hrunning', by omega, hcommitted'.trans hcommitted⟩
  | signal _ ih =>
      obtain ⟨_, hremaining, hcommitted⟩ := ih hsignal
      exact ⟨rfl, hremaining, hcommitted⟩

/-! ## Main results -/

variable {w : World} {file : Option Bytes}

theorem intervals_of_load (hload : w.process.config = (loadConfig {} file).2) :
    HasIntervals w.process.config := by
  have hdefault : HasIntervals {} := ⟨rfl, rfl, rfl⟩
  rw [hload]
  exact hdefault.loadConfig file

/-- Whatever the configuration file says, and whenever signals and errors come: the loop does
what `runScheduler` does, and while it has to be woken the timer has expired or will do so in
half an hour at most. -/
theorem scheduler_awake (hload : w.process.config = (loadConfig {} file).2) {n k : Nat}
    {s : Scheduler} (hrun : SchedulerRun env depth n k (.start w) s) :
    (s.point.awaits = true → s.timer = .expired ∨
      ∃ seconds, s.timer = .armed seconds ∧ 1 ≤ seconds ∧ seconds ≤ 1800) ∧
    (s.point ≠ .arm → (runScheduler env depth s.handled).run w = (some (), s.world)) := by
  have hfollows := Scheduler.Follows.of_run (intervals_of_load hload) hrun
  refine ⟨fun hawaits => (hfollows.awaited hawaits).imp_right fun harmed => ?_, hfollows.reached⟩
  refine ⟨_, harmed, ?_⟩
  split
  · decide
  · obtain ⟨hmin, hmax⟩ := hfollows.intervals.nextSleepSec s.world.process.engine
    exact ⟨UInt32.le_trans (by decide) hmin, hmax⟩

/-- A loop that has not stopped can go on by itself. -/
theorem Scheduler.Follows.can_step (hquiet : env.Quiet)
    (hdepth : ∀ loc ∈ w.fs.locs, loc.length < depth) {s : Scheduler}
    (h : s.Follows env depth w) : s.point = .stopped ∨ ∃ t, SchedulerStep env depth s t := by
  cases hpoint : s.point with
  | test =>
      cases hrunning : s.running with
      | true => exact Or.inr ⟨_, .sleep hpoint hrunning⟩
      | false => exact Or.inr ⟨_, .leave hpoint hrunning⟩
  | wait =>
      rcases h.awaited (by rw [hpoint]; rfl) with hexpired | harmed
      · exact Or.inr ⟨_, .wake hpoint hexpired⟩
      · exact Or.inr ⟨_, .expire harmed⟩
  | ready => exact Or.inr ⟨_, .read hpoint (h.ready hpoint)⟩
  | evaluate =>
      have hscheduler : Ends w.fs (runScheduler env depth s.handled) :=
        .bind (note_ends _) fun _ => eventLoop_ends hquiet hdepth _
      have hsub := hscheduler w (.refl _)
      rw [h.reached (by simp [hpoint])] at hsub
      have hevaluate : Ends w.fs (evaluateAndTransition env depth) :=
        evaluateAndTransition_ends hquiet hdepth
      obtain ⟨_, hresult⟩ := Option.isSome_iff_exists.mp (hevaluate.isSome hsub)
      exact Or.inr ⟨_, .evaluate hpoint (Program.run_eq_of_result hresult)⟩
  | arm => exact Or.inr ⟨_, .arm hpoint⟩
  | stopped => exact Or.inl rfl

/-- Evaluations go on until the loop stops: it can always take a step, and no more than six in
a row lie between the expirations that it handles, but for two with each mishap. -/
theorem scheduler_goesOn (hquiet : env.Quiet) (hdepth : ∀ loc ∈ w.fs.locs, loc.length < depth)
    (hload : w.process.config = (loadConfig {} file).2) {n k : Nat} {s : Scheduler}
    (hrun : SchedulerRun env depth n k (.start w) s) :
    (s.point = .stopped ∨ ∃ t, SchedulerStep env depth s t) ∧
    ∀ m j t, SchedulerRun env depth m j s t → m ≤ 6 * (t.handled - s.handled) + 5 + 2 * j := by
  refine ⟨?_, fun m j t hmore => ?_⟩
  · exact (Scheduler.Follows.of_run (intervals_of_load hload) hrun).can_step hquiet hdepth
  · have hprogress := hmore.progress
    have hstart := s.le_progress
    have hend := t.progress_lt
    omega

/-- Once told to stop, the loop stops: whatever else happens, it takes at most eleven steps
and handles at most one more expiration, and until it has stopped it can take one. -/
theorem scheduler_stops (hquiet : env.Quiet) (hdepth : ∀ loc ∈ w.fs.locs, loc.length < depth)
    (hload : w.process.config = (loadConfig {} file).2) {n k : Nat} {s : Scheduler}
    (hrun : SchedulerRun env depth n k (.start w) s) (hsignal : s.running = false) :
    ∀ m j t, SchedulerRun env depth m j s t →
      m + j ≤ 11 ∧ t.handled ≤ s.handled + 1 ∧
        (t.point = .stopped ∨ ∃ u, SchedulerStep env depth t u) := by
  intro m j t hmore
  obtain ⟨_, hremaining, hcommitted⟩ := hmore.stopping hsignal
  have hmost := s.remaining_le
  have hhandled := t.committed_le.1.trans (hcommitted.trans s.committed_le.2)
  refine ⟨by omega, hhandled, ?_⟩
  exact (Scheduler.Follows.of_run (intervals_of_load hload) (hrun.trans hmore)).can_step hquiet
    hdepth

/-! ## A signal that wakes nobody -/

/-- The loop about to sleep. -/
def sleepyLoop : Scheduler := { Scheduler.start onePackageWorld with point := .wait }

theorem sleepyLoop_run : SchedulerRun onePackageDevice 6 1 0 (.start onePackageWorld) sleepyLoop :=
  .step (.refl _) (.sleep rfl rfl)

theorem onePackageWorld_load :
    onePackageWorld.process.config = (loadConfig {} none).2 := rfl

theorem onePackageWorld_depth : ∀ loc ∈ onePackageWorld.fs.locs, loc.length < 6 := by
  decide +kernel

theorem scheduler_awake_sleepyLoop :
    (sleepyLoop.point.awaits = true → sleepyLoop.timer = .expired ∨
      ∃ seconds, sleepyLoop.timer = .armed seconds ∧ 1 ≤ seconds ∧ seconds ≤ 1800) ∧
    (sleepyLoop.point ≠ .arm →
      (runScheduler onePackageDevice 6 sleepyLoop.handled).run onePackageWorld =
        (some (), sleepyLoop.world)) :=
  scheduler_awake onePackageWorld_load sleepyLoop_run

theorem scheduler_goesOn_sleepyLoop :
    (sleepyLoop.point = .stopped ∨ ∃ t, SchedulerStep onePackageDevice 6 sleepyLoop t) ∧
    ∀ m j t, SchedulerRun onePackageDevice 6 m j sleepyLoop t →
      m ≤ 6 * (t.handled - sleepyLoop.handled) + 5 + 2 * j :=
  scheduler_goesOn (fun _ => rfl) onePackageWorld_depth onePackageWorld_load sleepyLoop_run

/-- The signal came after the test and before the sleep, and then the timer expired. -/
def signalledLoop : Scheduler := { sleepyLoop with running := false, timer := .expired }

theorem scheduler_stops_signalledLoop :
    1 + 0 ≤ 11 ∧ signalledLoop.handled ≤ 0 + 1 ∧
      (signalledLoop.point = .stopped ∨ ∃ u, SchedulerStep onePackageDevice 6 signalledLoop u) :=
  scheduler_stops (fun _ => rfl) onePackageWorld_depth onePackageWorld_load
    (.signal sleepyLoop_run) rfl 1 0 signalledLoop (.step (.refl _) (.expire rfl))

end FreshCore
