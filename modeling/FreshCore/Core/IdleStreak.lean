import FreshCore.Core.Assembly
import FreshCore.Core.EngineRuns
import FreshCore.Imperative.History

/-!
# The idle streak before maintenance

`EvaluateIdleState` remembers one time, which is that of a call since the screen was last
found on. The engine needs three evaluations to get from the screen being off into
maintenance, the first of them with the verdict that the delay has passed, and a verdict
that the device is in use sends it back. So the calls before maintenance hold a whole delay.
-/

namespace FreshCore

open Posix Imperative Config Device Cache

/-! ## The calls of `EvaluateIdleState` -/

/-- The observation at which a call began, and what it returned. -/
structure IdleCall where
  tick : Nat
  verdict : IdleState
  deriving DecidableEq, Repr

def callsOf (checks : List (Nat × Event)) : List IdleCall :=
  checks.filterMap fun (tick, event) => event.verdict?.map fun verdict => { tick, verdict }

/-- The calls since the last one that found the screen on. -/
def streak (calls : List IdleCall) : List IdleCall :=
  calls.rtakeWhile fun call => call.verdict ≠ .notIdle

/-- The clock in seconds. -/
def Env.clock (env : Env) (tick : Nat) : Nat := (env.monotonic tick).sec.toNat

/-- The time of a call is its reading of the clock, which comes after that of the screen. -/
def IdleCall.time (env : Env) (call : IdleCall) : Nat := env.clock (call.tick + 1)

/-- The clock does not go back. -/
def Env.ClockGoesOn (env : Env) : Prop :=
  ∀ ⦃tick tick' : Nat⦄, tick ≤ tick' → env.clock tick ≤ env.clock tick'

/-- The idle delay in seconds. -/
def delaySec (config : Configuration) : Nat := 60 * config.idleDelayMinutes.toInt.toNat

/-- A delay that is not negative and whose seconds are an `int`. -/
def DelayFits (config : Configuration) : Prop :=
  0 ≤ config.idleDelayMinutes.toInt ∧ config.idleDelayMinutes.toInt ≤ (2 ^ 31 - 1) / 60

theorem callsOf_append (checks new : List (Nat × Event)) :
    callsOf (checks ++ new) = callsOf checks ++ callsOf new := by
  simp [callsOf]

theorem streak_concat (calls : List IdleCall) (call : IdleCall) :
    streak (calls ++ [call]) = if call.verdict = .notIdle then [] else streak calls ++ [call] := by
  rw [streak, List.rtakeWhile_concat]
  by_cases hnot : call.verdict = .notIdle
  · simp [hnot]
  · simp [hnot, streak]

theorem mem_of_mem_streak {calls : List IdleCall} {call : IdleCall} (h : call ∈ streak calls) :
    call ∈ calls :=
  (List.rtakeWhile_suffix _ _).mem h

theorem requiredDelaySec_toNat {config : Configuration} (h : DelayFits config) :
    (requiredDelaySec config).toNat = delaySec config := by
  obtain ⟨hlow, hhigh⟩ := h
  have hsixty : (60 : Int32).toInt = 60 := rfl
  have hproduct : (config.idleDelayMinutes * 60).toInt = config.idleDelayMinutes.toInt * 60 := by
    rw [Int32.toInt_mul, hsixty]
    apply Int.bmod_eq_of_le <;> omega
  rw [requiredDelaySec, hproduct, delaySec, UInt64.ofInt, UInt64.toNat_ofNat']
  omega

/-- The configuration is that of the run, and the checks made so far are in the past. -/
structure Recorded (config : Configuration) (w : World) : Prop where
  config_eq : w.process.config = config
  past : ∀ check ∈ w.checks, check.1 < w.tick

/-- The time the screen went off is that of a call of the current streak, and each candidate
was found a whole delay after a call of its streak. -/
structure Timed (env : Env) (config : Configuration) (w : World) : Prop
    extends Recorded config w where
  off : w.process.screenOffTime = 0 ∨
    ∃ call ∈ streak (callsOf w.checks), w.process.screenOffTime.toNat = call.time env
  delayed : Throughout (fun front call => call.verdict = .idleCandidate →
    ∃ first ∈ streak (front ++ [call]), first.tick ≤ call.tick ∧
      first.time env + delaySec config ≤ call.time env) (callsOf w.checks)

variable {env : Env} {config : Configuration}

theorem mem_checks_of_mem_callsOf {checks : List (Nat × Event)} {call : IdleCall}
    (h : call ∈ callsOf checks) : (call.tick, .idle call.verdict) ∈ checks := by
  obtain ⟨⟨tick, event⟩, hmem, hcall⟩ := List.mem_filterMap.mp h
  cases event with
  | idle verdict =>
      cases hcall
      exact hmem
  | _ => cases hcall

theorem Recorded.unchecked {w w' : World} (h : Recorded config w) (hrest : Unchecked w w') :
    Recorded config w' where
  config_eq := hrest.config.trans h.config_eq
  past := by
    rw [hrest.checks]
    intro check hcheck
    exact lt_of_lt_of_le (h.past check hcheck) hrest.tick

theorem Recorded.isScreenOn {w : World} (h : Recorded config w) :
    Recorded config ((FreshCore.isScreenOn env).run w).2 := by
  refine ⟨h.config_eq, ?_⟩
  intro check hcheck
  rcases List.mem_append.mp hcheck with hearlier | hlast
  · exact Nat.lt_succ_of_lt (h.past check hearlier)
  · rw [List.mem_singleton.mp hlast]
    exact Nat.lt_succ_self _

theorem Recorded.evaluateIdleState {w : World} (h : Recorded config w) :
    Recorded config ((FreshCore.evaluateIdleState env).run w).2 := by
  obtain ⟨tick, made, hrun, _, htick, later, hmade, hlater⟩ := evaluateIdleState_run env w
  dsimp only at htick hlater
  rw [hrun]
  refine ⟨h.config_eq, ?_⟩
  intro check hcheck
  rw [hmade] at hcheck
  simp only [List.cons_append, List.mem_cons, List.mem_append, List.not_mem_nil,
    or_false] at hcheck
  rcases hcheck with hearlier | rfl | hmem | rfl
  · exact lt_trans (h.past check hearlier) htick
  · exact htick
  · exact (hlater check hmem).2
  · exact htick

theorem Timed.unchecked {w w' : World} (h : Timed env config w) (hrest : Unchecked w w') :
    Timed env config w' where
  toRecorded := h.toRecorded.unchecked hrest
  off := by
    rw [hrest.checks, hrest.screenOffTime]
    exact h.off
  delayed := by
    rw [hrest.checks]
    exact h.delayed

theorem Timed.isScreenOn {w : World} (h : Timed env config w) :
    Timed env config ((FreshCore.isScreenOn env).run w).2 := by
  have hcalls : callsOf ((FreshCore.isScreenOn env).run w).2.checks = callsOf w.checks := by
    rw [isScreenOn_run, callsOf_append]
    simp [callsOf, Event.verdict?]
  refine ⟨h.toRecorded.isScreenOn, ?_, ?_⟩
  · rw [hcalls]
    exact h.off
  · rw [hcalls]
    exact h.delayed

/-- A call that finds the screen off goes by the time of a call of the streak it belongs to. -/
theorem Timed.since {w : World} (h : Timed env config w) {call : IdleCall}
    (htick : call.tick = w.tick) (hverdict : call.verdict ≠ .notIdle) :
    ∃ first ∈ streak (callsOf w.checks ++ [call]),
      (screenOffSince w.process (env.monotonic (w.tick + 1)).sec).toNat = first.time env ∧
        first.tick ≤ w.tick := by
  rw [streak_concat, if_neg hverdict, screenOffSince]
  by_cases hzero : w.process.screenOffTime = 0
  · rw [if_pos hzero]
    refine ⟨call, by simp, ?_, Nat.le_of_eq htick⟩
    rw [IdleCall.time, htick]
    rfl
  · rw [if_neg hzero]
    obtain ⟨first, hfirst, htime⟩ := h.off.resolve_left hzero
    refine ⟨first, List.mem_append_left _ hfirst, htime, ?_⟩
    have hpast := h.past _ (mem_checks_of_mem_callsOf (mem_of_mem_streak hfirst))
    exact Nat.le_of_lt hpast

/-- A candidate was found with the screen off and the delay over. -/
theorem idleVerdict_candidate {w : World} (h : idleVerdict env w = .idleCandidate) :
    (env.screen w.tick).isOn = false ∧
      requiredDelaySec w.process.config ≤ (env.monotonic (w.tick + 1)).sec -
        screenOffSince w.process (env.monotonic (w.tick + 1)).sec := by
  unfold idleVerdict at h
  split at h
  · cases h
  next hoff =>
    refine ⟨by simpa using hoff, ?_⟩
    split at h
    next hmet =>
      simp only [conditionsMet, Bool.and_eq_true, Bool.not_eq_true',
        decide_eq_false_iff_not] at hmet
      exact UInt64.not_lt.mp hmet.1
    · cases h

theorem callsOf_screens {verdict : IdleState} {made : List (Nat × Event)}
    (h : ScreenChecks verdict (made.map Prod.snd)) : callsOf made = [] := by
  apply List.filterMap_eq_nil_iff.mpr
  rintro ⟨tick, event⟩ hmem
  have hsilent := (h.silent event (List.mem_map.mpr ⟨(tick, event), hmem, rfl⟩)).1
  simp [hsilent]

theorem callsOf_call {verdict : IdleState} {made : List (Nat × Event)}
    (h : ScreenChecks verdict (made.map Prod.snd)) (tick : Nat) :
    callsOf (made ++ [(tick, .idle verdict)]) = [{ tick, verdict }] := by
  rw [callsOf_append, callsOf_screens h]
  rfl

/-- A candidate is found a whole delay after the time it goes by. -/
theorem delay_of_idleVerdict {w : World} (hfits : DelayFits w.process.config)
    (hpast : (screenOffSince w.process (env.monotonic (w.tick + 1)).sec).toNat ≤
      env.clock (w.tick + 1))
    (h : idleVerdict env w = .idleCandidate) :
    (screenOffSince w.process (env.monotonic (w.tick + 1)).sec).toNat +
      delaySec w.process.config ≤ env.clock (w.tick + 1) := by
  obtain ⟨_, hdelay⟩ := idleVerdict_candidate h
  have hnow : (env.monotonic (w.tick + 1)).sec.toNat = env.clock (w.tick + 1) := rfl
  rw [UInt64.le_iff_toNat_le, requiredDelaySec_toNat hfits,
    UInt64.toNat_sub_of_le _ _ (UInt64.le_iff_toNat_le.mpr hpast), hnow] at hdelay
  omega

/-- A call keeps the time the streak began, or begins a new one. -/
theorem Timed.evaluateIdleState {w : World} (h : Timed env config w) (hclock : env.ClockGoesOn)
    (hfits : DelayFits config) :
    Timed env config ((FreshCore.evaluateIdleState env).run w).2 := by
  have hrecorded : Recorded config ((FreshCore.evaluateIdleState env).run w).2 :=
    h.toRecorded.evaluateIdleState
  obtain ⟨tick, made, hrun, hscreens, _⟩ := evaluateIdleState_run env w
  have hcalls : callsOf (w.checks ++ (made ++ [(w.tick, .idle (idleVerdict env w))])) =
      callsOf w.checks ++ [{ tick := w.tick, verdict := idleVerdict env w }] := by
    rw [callsOf_append, callsOf_call hscreens]
  rw [hrun] at hrecorded ⊢
  generalize hcall : IdleCall.mk w.tick (idleVerdict env w) = call at hcalls
  have hcallTick : call.tick = w.tick := by rw [← hcall]
  have hcallVerdict : call.verdict = idleVerdict env w := by rw [← hcall]
  refine ⟨hrecorded, ?_, ?_⟩
  · dsimp only
    rw [hcalls, screenOffAfter]
    by_cases hon : (env.screen w.tick).isOn
    · left
      rw [if_pos hon]
    · right
      rw [if_neg hon]
      have hverdict : call.verdict ≠ .notIdle := by
        rw [hcallVerdict]
        exact mt (idleVerdict_eq_notIdle env w).mp hon
      obtain ⟨first, hfirst, htime, _⟩ := h.since hcallTick hverdict
      exact ⟨first, hfirst, htime⟩
  · dsimp only
    rw [hcalls]
    refine Throughout.concat_iff.mpr ⟨h.delayed, fun hcandidate => ?_⟩
    obtain ⟨first, hfirst, htime, hbefore⟩ := h.since hcallTick (by rw [hcandidate]; decide)
    refine ⟨first, hfirst, hbefore.trans_eq hcallTick.symm, ?_⟩
    have horder : first.time env ≤ env.clock (w.tick + 1) := hclock (Nat.succ_le_succ hbefore)
    rw [← htime] at horder
    have hdelay := delay_of_idleVerdict (by rwa [h.config_eq]) horder
      (hcallVerdict.symm.trans hcandidate)
    rw [h.config_eq, htime] at hdelay
    rw [IdleCall.time, IdleCall.time, hcallTick]
    exact hdelay

/-! ## Along a run -/

/-- The device is checked once in an evaluation that does not come to maintenance. -/
theorem advance_unchecked (env : Env) (depth : Nat) (verdict : IdleState) {current : EngineState}
    (hengine : current ≠ .deepIdle) (w : World) :
    Unchecked w ((advance env depth current verdict).run w).2 := by
  have hstay : Unchecked w w := ⟨rfl, rfl, rfl, Nat.le_refl _⟩
  cases current with
  | boot => exact transitionTo_unchecked _ w
  | active => exact transitionTo_unchecked _ w
  | screenOff =>
      unfold advance
      dsimp only
      split
      · exact transitionTo_unchecked _ w
      · exact hstay
  | idleCandidate => exact transitionTo_unchecked _ w
  | deepIdle => exact absurd rfl hengine
  | maintenance => exact hstay
  | aborting => exact transitionTo_unchecked _ w
  | errorBackoff => exact transitionTo_unchecked _ w

/-- An evaluation that does not come to maintenance checks the device, and then only moves on. -/
theorem evaluation_unchecked {depth : Nat} {w w' : World}
    (hrun : (evaluateAndTransition env depth).run w = (some (), w'))
    (hengine : w.process.engine ≠ .deepIdle) :
    Unchecked ((evaluateIdleState env).run w).2 w' := by
  obtain ⟨process, _, hprocess, hrun⟩ := Program.run_bind_eq_some.mp hrun
  cases hprocess
  obtain ⟨idleState, w₁, hidle, hrun⟩ := Program.run_bind_eq_some.mp hrun
  rw [hidle]
  split at hrun
  · split at hrun
    · obtain ⟨_, w₂, hwake, hrun⟩ := Program.run_bind_eq_some.mp hrun
      cases hwake
      have htransition := transitionTo_unchecked .active (w₁.record (.doze .wakeFromDoze))
      replace hrun : (transitionTo .active).run (w₁.record (.doze .wakeFromDoze)) =
        (some (), w') := hrun
      rw [hrun] at htransition
      exact ⟨htransition.checks, htransition.screenOffTime, htransition.config,
        htransition.tick⟩
    · cases hrun
      exact ⟨rfl, rfl, rfl, Nat.le_refl _⟩
  · have hadvance := advance_unchecked env depth idleState hengine w₁
    rw [hrun] at hadvance
    exact hadvance

theorem evaluation_calls {depth : Nat} {w w' : World}
    (hrun : (evaluateAndTransition env depth).run w = (some (), w'))
    (hengine : w.process.engine ≠ .deepIdle) :
    callsOf w'.checks = callsOf w.checks ++ [{ tick := w.tick, verdict := idleVerdict env w }] := by
  obtain ⟨tick, made, heval, hscreens, _⟩ := evaluateIdleState_run env w
  rw [(evaluation_unchecked hrun hengine).checks, heval]
  dsimp only
  rw [callsOf_append, callsOf_call hscreens]

theorem Timed.evaluateAndTransition {depth : Nat} {w w' : World} (h : Timed env config w)
    (hclock : env.ClockGoesOn) (hfits : DelayFits config)
    (hrun : (evaluateAndTransition env depth).run w = (some (), w')) : Timed env config w' := by
  have hbuilt : Assembled env (FreshCore.evaluateAndTransition env depth) :=
    .evaluateAndTransition depth
  have hkept := hbuilt.triple (fun _ _ hw hrest => hw.unchecked hrest)
    (fun _ hw => hw.isScreenOn) (fun _ hw => hw.evaluateIdleState hclock hfits) w h
  rw [hrun] at hkept
  exact hkept

/-- The run up to maintenance: a candidate was found, with the delay over in the streak it
belongs to, and no call has found the screen on since. -/
def EntersAfterStreak (env : Env) (config : Configuration) (before : List Evaluation)
    (evaluation : Evaluation) : Prop :=
  let calls := streak (callsOf evaluation.1.checks)
  evaluation.verdict? ≠ some .notIdle ∧
    ∃ earlier candidate second, before = earlier ++ [candidate, second] ∧
      candidate.verdict? = some .idleCandidate ∧ second.verdict? ≠ some .notIdle ∧
      ∃ call ∈ calls, call = { tick := candidate.1.tick, verdict := .idleCandidate } ∧
        ∃ first ∈ calls, first.tick ≤ call.tick ∧
          first.time env + delaySec config ≤ call.time env

/-- How far a run has come towards maintenance. -/
structure Nearing (env : Env) (config : Configuration) (before : List Evaluation) (w : World) :
    Prop where
  timed : Timed env config w
  rests : w.process.engine ≠ .maintenance ∧ w.process.engine ≠ .errorBackoff
  candidate : w.process.engine = .idleCandidate →
    ∃ earlier candidate, before = earlier ++ [candidate] ∧
      candidate.verdict? = some .idleCandidate ∧
      callsOf w.checks =
        callsOf candidate.1.checks ++ [{ tick := candidate.1.tick, verdict := .idleCandidate }]
  deepIdle : w.process.engine = .deepIdle →
    ∃ earlier candidate second, before = earlier ++ [candidate, second] ∧
      candidate.verdict? = some .idleCandidate ∧ second.verdict? ≠ some .notIdle ∧
      ∃ verdict, verdict ≠ .notIdle ∧
        callsOf w.checks =
          callsOf candidate.1.checks ++ [{ tick := candidate.1.tick, verdict := .idleCandidate },
            { tick := second.1.tick, verdict }]

theorem Nearing.entersAfterStreak {depth : Nat} {before : List Evaluation} {w w' : World}
    (h : Nearing env config before w)
    (hrun : (FreshCore.evaluateAndTransition env depth).run w = (some (), w'))
    (henters : Evaluation.entersMaintenance (w, w') = true) :
    EntersAfterStreak env config before (w, w') := by
  obtain ⟨hdeep, hverdict⟩ := (evaluation_entersMaintenance hrun).mp henters
  obtain ⟨earlier, candidate, second, hbefore, hcandidate, hsecond, verdict, hnot, hcalls⟩ :=
    h.deepIdle hdeep
  refine ⟨?_, earlier, candidate, second, hbefore, hcandidate, hsecond, ?_⟩
  · rw [evaluation_verdict? hrun]
    simpa using hverdict
  set call : IdleCall := { tick := candidate.1.tick, verdict := .idleCandidate } with hcall
  have hstreak : streak (callsOf w.checks) =
      streak (callsOf candidate.1.checks ++ [call]) ++ [{ tick := second.1.tick, verdict }] := by
    rw [hcalls, List.append_cons, streak_concat, if_neg hnot]
  obtain ⟨first, hfirst, horder, hdelay⟩ :=
    h.timed.delayed (callsOf candidate.1.checks) call
      ⟨[{ tick := second.1.tick, verdict }], by rw [hcalls]; simp⟩ rfl
  have hmem : call ∈ streak (callsOf candidate.1.checks ++ [call]) := by
    rw [streak_concat, if_neg (by simp [hcall])]
    simp
  dsimp only
  rw [hstreak]
  exact ⟨call, List.mem_append_left _ hmem, rfl, first, List.mem_append_left _ hfirst, horder,
    hdelay⟩

theorem nextEngine_idleCandidate {verdict : IdleState} {engine : EngineState}
    (h : nextEngine verdict engine = .idleCandidate) :
    engine = .screenOff ∧ verdict = .idleCandidate := by
  cases engine <;> simp_all [nextEngine]

theorem nextEngine_deepIdle {verdict : IdleState} {engine : EngineState}
    (h : nextEngine verdict engine = .deepIdle) : engine = .idleCandidate := by
  cases engine <;> cases verdict <;> simp_all [nextEngine]

theorem nextEngine_rests {verdict : IdleState} {engine : EngineState}
    (hdeep : engine ≠ .deepIdle) (h : engine ≠ .maintenance ∧ engine ≠ .errorBackoff) :
    nextEngine verdict engine ≠ .maintenance ∧ nextEngine verdict engine ≠ .errorBackoff := by
  cases engine <;> cases verdict <;> simp_all [nextEngine]

/-- The engine is ready for maintenance, or a candidate, only after an evaluation that moved
it there. -/
theorem Evaluated.nears {w w' : World} {acts : List Event} (h : Evaluated env w w' acts) :
    (w'.process.engine = .idleCandidate →
      w.process.engine = .screenOff ∧ idleVerdict env w = .idleCandidate) ∧
    (w'.process.engine = .deepIdle →
      w.process.engine = .idleCandidate ∧ idleVerdict env w ≠ .notIdle) ∧
    (w.process.engine ≠ .maintenance ∧ w.process.engine ≠ .errorBackoff →
      w'.process.engine ≠ .maintenance ∧ w'.process.engine ≠ .errorBackoff) := by
  have hat {state : EngineState} (hengine : w'.process.engine = state)
      (hstate : state = .active ∨ state = .aborting) :
      w'.process.engine ≠ .idleCandidate ∧ w'.process.engine ≠ .deepIdle ∧
        w'.process.engine ≠ .maintenance ∧ w'.process.engine ≠ .errorBackoff := by
    rw [hengine]
    rcases hstate with rfl | rfl <;> decide
  cases h with
  | awake _ _ hengine | woken _ _ hengine | finished _ _ hengine _ =>
      obtain ⟨hcandidate, hdeep, hrests⟩ := hat hengine (Or.inl rfl)
      exact ⟨fun h => absurd h hcandidate, fun h => absurd h hdeep, fun _ => hrests⟩
  | interrupted _ _ hengine _ =>
      obtain ⟨hcandidate, hdeep, hrests⟩ := hat hengine (Or.inr rfl)
      exact ⟨fun h => absurd h hcandidate, fun h => absurd h hdeep, fun _ => hrests⟩
  | advanced hverdict hdeep hengine _ =>
      rw [hengine]
      exact ⟨nextEngine_idleCandidate, fun h => ⟨nextEngine_deepIdle h, hverdict⟩,
        nextEngine_rests hdeep⟩

theorem Nearing.evaluateAndTransition {depth : Nat} {before : List Evaluation} {w w' : World}
    (h : Nearing env config before w) (hclock : env.ClockGoesOn) (hfits : DelayFits config)
    (hrun : (FreshCore.evaluateAndTransition env depth).run w = (some (), w')) :
    Nearing env config (before ++ [(w, w')]) w' := by
  obtain ⟨checks, acts, _, _, hevaluated⟩ := evaluation_events hrun
  obtain ⟨hcandidate, hdeep, hrests⟩ := hevaluated.nears
  refine ⟨h.timed.evaluateAndTransition hclock hfits hrun, hrests h.rests, ?_, ?_⟩
  · intro hengine
    obtain ⟨hoff, hverdict⟩ := hcandidate hengine
    refine ⟨before, (w, w'), rfl, ?_, ?_⟩
    · rw [evaluation_verdict? hrun, hverdict]
    · rw [evaluation_calls hrun (by rw [hoff]; decide), hverdict]
  · intro hengine
    obtain ⟨hengine, hverdict⟩ := hdeep hengine
    obtain ⟨earlier, candidate, rfl, hfound, hcalls⟩ := h.candidate hengine
    refine ⟨earlier, candidate, (w, w'), by simp, hfound, ?_, idleVerdict env w, hverdict, ?_⟩
    · rw [evaluation_verdict? hrun]
      simpa using hverdict
    · rw [evaluation_calls hrun (by rw [hengine]; decide), hcalls]
      simp

/-- Maintenance comes after an unbroken streak, and is over when the evaluation is. -/
theorem engineRun_idleStreak {env : Env} {start : World} {evaluations : List Evaluation}
    (hrun : EngineRun env start evaluations) (hboot : start.process.engine = .boot)
    (hchecks : start.checks = []) (hoff : start.process.screenOffTime = 0)
    (hclock : env.ClockGoesOn) (hfits : DelayFits start.process.config) :
    Throughout (fun before evaluation =>
      (evaluation.entersMaintenance = true →
        EntersAfterStreak env start.process.config before evaluation) ∧
      evaluation.2.process.engine ≠ .maintenance ∧
      evaluation.2.process.engine ≠ .errorBackoff) evaluations := by
  have hstart : Nearing env start.process.config [] start := by
    refine ⟨⟨⟨rfl, ?_⟩, Or.inl hoff, ?_⟩, ?_, ?_, ?_⟩
    · simp [hchecks]
    · simp [hchecks, callsOf]
    · simp [hboot]
    · simp [hboot]
    · simp [hboot]
  rw [← List.nil_append evaluations]
  refine hrun.throughout Throughout.nil hstart ?_
  intro before w w' depth hnearing hevaluated
  have hnext := hnearing.evaluateAndTransition hclock hfits hevaluated
  exact ⟨⟨hnearing.entersAfterStreak hevaluated, hnext.rests⟩, hnext⟩

/-- A clock that goes on by a quarter of an hour with each reading for the first ten hours. -/
def patientClock (first tick : Nat) : Timespec :=
  { sec := .ofNat (min (900 * (first + tick)) 36000), nsec := 0 }

theorem clockGoesOn_of_patientClock {first : Nat} (h : env.monotonic = patientClock first) :
    env.ClockGoesOn := by
  have hclock (tick : Nat) : env.clock tick = min (900 * (first + tick)) 36000 := by
    rw [Env.clock, h, patientClock, UInt64.toNat_ofNat']
    omega
  intro tick tick' hle
  rw [hclock, hclock]
  omega

/-- The device is at rest, and its clock starts at zero. -/
def patientDevice : Env := { restingDevice with monotonic := patientClock 0 }

theorem engineRun_idleStreak_patientDevice :
    Throughout (fun before evaluation =>
      (evaluation.entersMaintenance = true →
        EntersAfterStreak patientDevice bootWorld.process.config before evaluation) ∧
      evaluation.2.process.engine ≠ .maintenance ∧
      evaluation.2.process.engine ≠ .errorBackoff)
      (evaluationsFrom patientDevice 1 4 bootWorld) :=
  engineRun_idleStreak (engineRun_evaluationsFrom (by decide +kernel)) rfl rfl rfl
    (clockGoesOn_of_patientClock rfl) ⟨by decide, by decide⟩

/-- The device comes to maintenance in its fourth evaluation. -/
example : (evaluationsFrom patientDevice 1 4 bootWorld).map Evaluation.entersMaintenance =
    [false, false, false, true] := by decide +kernel

end FreshCore
