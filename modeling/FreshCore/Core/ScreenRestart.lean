import FreshCore.Core.IdleStreak

/-!
# The idle delay after the screen was on

The time the screen went off is forgotten in one place only, where `EvaluateIdleState` finds
the screen on. Maintenance looks at the screen in other places too. It gives up there, but the
time stays, and whether the delay starts anew is left to the next call.
-/

namespace FreshCore

open Posix Imperative Config Device Cache

/-! ## Checks that found the screen on -/

def Event.seesOn : Event → Bool
  | screen on => on
  | _ => false

/-- The checks that found the screen on, each with the first call of `EvaluateIdleState` that
returned after it. -/
def onChecks : List (Nat × Event) → List (Nat × Option IdleCall)
  | [] => []
  | (tick, event) :: later =>
      if event.seesOn then (tick, (callsOf later).head?) :: onChecks later else onChecks later

/-- No call finds the device idle before a whole delay has passed since each of the checks
before it that found the screen on. The foreground check is left out: the first call to return
after it is the one that made it, and had begun before. -/
def DelayRestarts (env : Env) (config : Configuration) (checks : List (Nat × Event)) : Prop :=
  Throughout (fun front check => check.2.verdict? = some .idleCandidate →
    ∀ on ∈ onChecks (front ++ [check]), ∀ call ∈ on.2, on.1 ≤ call.tick →
      env.clock on.1 + delaySec config ≤ IdleCall.time env ⟨check.1, .idleCandidate⟩) checks

/-- If a check by maintenance itself found the screen on, then the next call finds it on too,
or is made when the delay has passed. -/
def OwnChecksHeeded (env : Env) (config : Configuration) (checks : List (Nat × Event)) : Prop :=
  ∀ on ∈ onChecks checks, ∀ call ∈ on.2, on.1 < call.tick →
    (env.screen call.tick).isOn = true ∨ env.clock on.1 + delaySec config ≤ call.time env

instance (env : Env) (config : Configuration) (checks : List (Nat × Event)) :
    Decidable (DelayRestarts env config checks) := by
  unfold DelayRestarts
  infer_instance

instance (env : Env) (config : Configuration) (checks : List (Nat × Event)) :
    Decidable (OwnChecksHeeded env config checks) := by
  unfold OwnChecksHeeded
  infer_instance

theorem onChecks_append (checks new : List (Nat × Event)) :
    onChecks (checks ++ new) =
      (onChecks checks).map (fun on => (on.1, on.2.or (callsOf new).head?)) ++ onChecks new := by
  induction checks with
  | nil => rfl
  | cons check later ih =>
      obtain ⟨tick, event⟩ := check
      rw [List.cons_append, onChecks, onChecks, ih, callsOf_append, List.head?_append]
      split <;> rfl

theorem mem_onChecks_append {checks new : List (Nat × Event)} {tick : Nat}
    {next : Option IdleCall} :
    (tick, next) ∈ onChecks (checks ++ new) ↔
      (∃ earlier, (tick, earlier) ∈ onChecks checks ∧ earlier.or (callsOf new).head? = next) ∨
        (tick, next) ∈ onChecks new := by
  simp [onChecks_append]

theorem mem_callsOf_of_mem_onChecks {checks : List (Nat × Event)} {tick : Nat}
    {call : IdleCall} (h : (tick, some call) ∈ onChecks checks) : call ∈ callsOf checks := by
  induction checks with
  | nil => cases h
  | cons check later ih =>
      have hlater : call ∈ callsOf later → call ∈ callsOf (check :: later) := by
        rw [← List.singleton_append, callsOf_append]
        exact List.mem_append_right _
      obtain ⟨_, event⟩ := check
      rw [onChecks] at h
      apply hlater
      split at h
      · rcases List.mem_cons.mp h with heq | h
        · obtain ⟨_, hnext⟩ := Prod.mk.inj heq
          exact List.mem_of_mem_head? hnext.symm
        · exact ih h
      · exact ih h

/-- While no call returns, no check gets a first call after it. -/
theorem mem_onChecks_screens {checks new : List (Nat × Event)} (hnew : callsOf new = [])
    {tick : Nat} {call : IdleCall} :
    (tick, some call) ∈ onChecks (checks ++ new) ↔ (tick, some call) ∈ onChecks checks := by
  rw [mem_onChecks_append, hnew]
  constructor
  · rintro (⟨earlier, hearlier, hnext⟩ | hlast)
    · rw [List.head?_nil, Option.or_none] at hnext
      rwa [hnext] at hearlier
    · have hcall := mem_callsOf_of_mem_onChecks hlast
      rw [hnew] at hcall
      cases hcall
  · intro h
    exact Or.inl ⟨some call, h, rfl⟩

theorem mem_of_mem_onChecks {checks : List (Nat × Event)} {on : Nat × Option IdleCall}
    (h : on ∈ onChecks checks) : (on.1, .screen true) ∈ checks := by
  induction checks with
  | nil => cases h
  | cons check later ih =>
      obtain ⟨tick, event⟩ := check
      rw [onChecks] at h
      split at h
      next hsees =>
        rcases List.mem_cons.mp h with rfl | h
        · cases event with
          | screen on =>
              cases hsees
              simp
          | _ => cases hsees
        · exact List.mem_cons_of_mem _ (ih h)
      next => exact List.mem_cons_of_mem _ (ih h)

theorem OwnChecksHeeded.of_append {env : Env} {config : Configuration}
    {checks new : List (Nat × Event)} (h : OwnChecksHeeded env config (checks ++ new)) :
    OwnChecksHeeded env config checks := by
  rintro ⟨tick, next⟩ hon call hcall
  obtain rfl : next = some call := hcall
  exact h (tick, some call) (mem_onChecks_append.mpr (Or.inl ⟨_, hon, rfl⟩)) call rfl

/-! ## The time the screen went off -/

/-- The time the screen went off is not before the check, if there is one, or the delay since
the check has passed. -/
def Settled (env : Env) (config : Configuration) (w : World) (tick : Nat) : Prop :=
  w.process.screenOffTime = 0 ∨ env.clock tick ≤ w.process.screenOffTime.toNat ∨
    env.clock tick + delaySec config ≤ env.clock w.tick

/-- The checks that found the screen on are settled once a call has returned. -/
structure Restarting (env : Env) (config : Configuration) (w : World) : Prop
    extends Recorded config w where
  off : w.process.screenOffTime.toNat ≤ env.clock w.tick
  settled : ∀ ⦃tick : Nat⦄ ⦃call : IdleCall⦄, (tick, some call) ∈ onChecks w.checks →
    tick ≤ call.tick → Settled env config w tick
  restarts : DelayRestarts env config w.checks

variable {env : Env} {config : Configuration}

theorem Settled.later {w w' : World} {tick : Nat} (h : Settled env config w tick)
    (hclock : env.ClockGoesOn) (hsame : w'.process.screenOffTime = w.process.screenOffTime)
    (htick : w.tick ≤ w'.tick) : Settled env config w' tick := by
  unfold Settled
  rw [hsame]
  rcases h with hzero | hsince | hpassed
  · exact Or.inl hzero
  · exact Or.inr (Or.inl hsince)
  · exact Or.inr (Or.inr (hpassed.trans (hclock htick)))

theorem Restarting.unchecked {w w' : World} (h : Restarting env config w)
    (hclock : env.ClockGoesOn) (hrest : Unchecked w w') : Restarting env config w' where
  toRecorded := h.toRecorded.unchecked hrest
  off := by
    rw [hrest.screenOffTime]
    exact h.off.trans (hclock hrest.tick)
  settled := by
    rw [hrest.checks]
    intro tick call hon hcounted
    exact (h.settled hon hcounted).later hclock hrest.screenOffTime hrest.tick
  restarts := by
    rw [hrest.checks]
    exact h.restarts

theorem DelayRestarts.screens {checks new : List (Nat × Event)}
    (h : DelayRestarts env config checks) (hnew : callsOf new = []) :
    DelayRestarts env config (checks ++ new) := by
  refine Throughout.append h fun front check hpart hcandidate => ?_
  have hsilent : check.2.verdict? = none := by
    have hcheck := List.filterMap_eq_nil_iff.mp hnew check (hpart.subset (by simp))
    simpa using hcheck
  rw [hsilent] at hcandidate
  cases hcandidate

/-- A check of the screen is no call, so it settles nothing. -/
theorem Restarting.isScreenOn {w : World} (h : Restarting env config w)
    (hclock : env.ClockGoesOn) :
    Restarting env config ((FreshCore.isScreenOn env).run w).2 := by
  have hscreen : callsOf [(w.tick, Event.screen (env.screen w.tick).isOn)] = [] := rfl
  refine ⟨h.toRecorded.isScreenOn, ?_, ?_, h.restarts.screens hscreen⟩
  · exact h.off.trans (hclock (Nat.le_succ _))
  · intro tick call hon hcounted
    have hsettled := h.settled ((mem_onChecks_screens hscreen).mp hon) hcounted
    exact hsettled.later hclock rfl (Nat.le_succ _)

/-- A call that finds the screen off goes by a time after each check that found it on: those
before the last call are settled, and those since are heeded by this one. -/
theorem Restarting.since {w : World} (h : Restarting env config w) (hclock : env.ClockGoesOn)
    (hoff : (env.screen w.tick).isOn = false) {new : List (Nat × Event)} {verdict : IdleState}
    (hcalls : callsOf new = [{ tick := w.tick, verdict }])
    (hnew : ∀ tick, (tick, .screen true) ∈ new → w.tick < tick)
    (hheeded : OwnChecksHeeded env config (w.checks ++ new)) :
    ∀ ⦃tick : Nat⦄ ⦃call : IdleCall⦄, (tick, some call) ∈ onChecks (w.checks ++ new) →
      tick ≤ call.tick →
      env.clock tick ≤ (screenOffSince w.process (env.monotonic (w.tick + 1)).sec).toNat ∨
        env.clock tick + delaySec config ≤ env.clock (w.tick + 1) := by
  have hgoes : env.clock w.tick ≤ env.clock (w.tick + 1) := hclock (Nat.le_succ _)
  intro tick call hon hcounted
  rcases mem_onChecks_append.mp hon with ⟨next, hearlier, hnext⟩ | hlast
  · have hpast : tick < w.tick := h.past _ (mem_of_mem_onChecks hearlier)
    rw [hcalls, List.head?_cons] at hnext
    cases next with
    | none =>
        obtain rfl : { tick := w.tick, verdict } = call := Option.some.inj hnext
        right
        rcases hheeded _ hon _ rfl hpast with hscreen | hpassed
        · rw [hoff] at hscreen
          cases hscreen
        · exact hpassed
    | some earlier =>
        obtain rfl : earlier = call := Option.some.inj hnext
        rw [screenOffSince]
        rcases h.settled hearlier hcounted with hzero | hsince | hpassed
        · left
          rw [if_pos hzero]
          exact hclock (Nat.le_succ_of_le (Nat.le_of_lt hpast))
        · left
          split
          · exact hclock (Nat.le_succ_of_le (Nat.le_of_lt hpast))
          · exact hsince
        · exact Or.inr (hpassed.trans hgoes)
  · have hcall := mem_callsOf_of_mem_onChecks hlast
    rw [hcalls] at hcall
    obtain rfl := List.mem_singleton.mp hcall
    have hlater := hnew tick (mem_of_mem_onChecks hlast)
    exact absurd hcounted (Nat.not_le.mpr hlater)

/-- Each call of the device keeps what is known, provided it heeds the checks before it. -/
theorem Restarting.evaluateIdleState {w : World} (h : Restarting env config w)
    (hclock : env.ClockGoesOn) (hfits : DelayFits config)
    (hheeded : OwnChecksHeeded env config ((FreshCore.evaluateIdleState env).run w).2.checks) :
    Restarting env config ((FreshCore.evaluateIdleState env).run w).2 := by
  have hrecorded : Recorded config ((FreshCore.evaluateIdleState env).run w).2 :=
    h.toRecorded.evaluateIdleState
  obtain ⟨tick, made, hrun, hscreens, htick, later, hmade, hlater⟩ := evaluateIdleState_run env w
  have hcalls := callsOf_call hscreens w.tick
  rw [hrun] at hheeded hrecorded ⊢
  dsimp only at hheeded htick hlater
  have hgoes : env.clock w.tick ≤ env.clock (w.tick + 1) := hclock (Nat.le_succ _)
  have hends : env.clock (w.tick + 1) ≤ env.clock tick := hclock htick
  -- with the screen off at the head of the call, only its foreground check can find it on
  have hsince (hoff : (env.screen w.tick).isOn = false) :=
    h.since hclock hoff hcalls (fun check hcheck => by
      rw [hmade, hoff] at hcheck
      rcases List.mem_append.mp hcheck with hmade | hlast
      · rcases List.mem_cons.mp hmade with hhead | hmade
        · cases hhead
        · exact (hlater _ hmade).1
      · cases List.mem_singleton.mp hlast) hheeded
  -- and the time it goes by is in the past
  have hpast : (screenOffSince w.process (env.monotonic (w.tick + 1)).sec).toNat ≤
      env.clock (w.tick + 1) := by
    rw [screenOffSince]
    split
    · exact Nat.le_refl _
    · exact h.off.trans hgoes
  refine ⟨hrecorded, ?_, ?_, ?_⟩
  · dsimp only
    rw [screenOffAfter]
    split
    · exact Nat.zero_le _
    · exact hpast.trans hends
  · intro on call hon hcounted
    unfold Settled
    dsimp only at hon ⊢
    rw [screenOffAfter]
    by_cases hscreen : (env.screen w.tick).isOn
    · left
      rw [if_pos hscreen]
    · right
      rw [if_neg hscreen]
      rcases hsince (by simpa using hscreen) hon hcounted with hsince | hpassed
      · exact Or.inl hsince
      · exact Or.inr (hpassed.trans hends)
  · dsimp only
    rw [← List.append_assoc]
    refine Throughout.concat_iff.mpr ⟨h.restarts.screens (callsOf_screens hscreens), ?_⟩
    rintro hcandidate ⟨on, next⟩ hon call hcall hcounted
    obtain rfl : next = some call := hcall
    rw [List.append_assoc] at hon
    have hverdict : idleVerdict env w = .idleCandidate := Option.some.inj hcandidate
    have hdelay := delay_of_idleVerdict (by rwa [h.config_eq]) hpast hverdict
    rw [h.config_eq] at hdelay
    rcases hsince (idleVerdict_candidate hverdict).1 hon hcounted with hsince | hpassed
    · exact (Nat.add_le_add_right hsince _).trans hdelay
    · exact hpassed

/-! ## Along a run -/

/-- What holds while the checks are heeded is kept by an evaluation, as they are heeded at
each point of it if they are at its end. -/
theorem heeded_evaluateAndTransition {depth : Nat} {w w' : World} (hclock : env.ClockGoesOn)
    (hfits : DelayFits config)
    (h : OwnChecksHeeded env config w.checks → Restarting env config w)
    (hrun : (evaluateAndTransition env depth).run w = (some (), w')) :
    OwnChecksHeeded env config w'.checks → Restarting env config w' := by
  have hbuilt : Assembled env (evaluateAndTransition env depth) := .evaluateAndTransition depth
  have hkept := hbuilt.triple
    (I := fun w => OwnChecksHeeded env config w.checks → Restarting env config w)
    (fun w w' hw hrest hheeded => by
      rw [hrest.checks] at hheeded
      exact (hw hheeded).unchecked hclock hrest)
    (fun w hw hheeded => (hw hheeded.of_append).isScreenOn hclock)
    (fun w hw hheeded => by
      obtain ⟨_, _, hidle, _⟩ := evaluateIdleState_run env w
      have hbefore : OwnChecksHeeded env config w.checks := by
        rw [hidle] at hheeded
        exact hheeded.of_append
      exact (hw hbefore).evaluateIdleState hclock hfits hheeded) w h
  rw [hrun] at hkept
  exact hkept

/-- In a run, the delay starts anew with each check that found the screen on, as long as the
calls heed those that maintenance makes itself. -/
theorem engineRun_delayRestarts {env : Env} {start : World} {evaluations : List Evaluation}
    (hrun : EngineRun env start evaluations) (hchecks : start.checks = [])
    (hoff : start.process.screenOffTime = 0) (hclock : env.ClockGoesOn)
    (hfits : DelayFits start.process.config) :
    ∀ evaluation ∈ evaluations,
      OwnChecksHeeded env start.process.config evaluation.2.checks →
        DelayRestarts env start.process.config evaluation.2.checks := by
  have hstart : Restarting env start.process.config start := by
    refine ⟨⟨rfl, ?_⟩, ?_, ?_, ?_⟩
    · simp [hchecks]
    · simp [hoff]
    · simp [hchecks, onChecks]
    · rw [hchecks]
      exact Throughout.nil
  have hall : Throughout (fun _ evaluation =>
      OwnChecksHeeded env start.process.config evaluation.2.checks →
        DelayRestarts env start.process.config evaluation.2.checks) ([] ++ evaluations) := by
    refine hrun.throughout (I := fun _ w =>
      OwnChecksHeeded env start.process.config w.checks →
        Restarting env start.process.config w) Throughout.nil (fun _ => hstart) ?_
    intro before w w' depth hw hevaluated
    have hnext := heeded_evaluateAndTransition hclock hfits hw hevaluated
    exact ⟨fun hheeded => (hnext hheeded).restarts, hnext⟩
  intro evaluation hmem hheeded
  obtain ⟨_, hrestarts⟩ := hall.of_mem hmem
  exact hrestarts hheeded

/-- The screen is turned on when maintenance looks at it after the sweeps, and stays on up to
the given reading. -/
def wokenDevice (last : Nat) : Env :=
  { restingDevice with
    monotonic := patientClock 1
    screen := fun tick =>
      if 55 ≤ tick ∧ tick ≤ last then { brightness := some 100, wakefulness := [] }
      else restingDevice.screen tick }

/-- The next call finds the screen on. -/
theorem engineRun_delayRestarts_wokenDevice :
    (∀ evaluation ∈ evaluationsFrom (wokenDevice 56) 1 6 bootWorld,
        OwnChecksHeeded (wokenDevice 56) bootWorld.process.config evaluation.2.checks) ∧
      ∀ evaluation ∈ evaluationsFrom (wokenDevice 56) 1 6 bootWorld,
        DelayRestarts (wokenDevice 56) bootWorld.process.config evaluation.2.checks := by
  have hheeded : ∀ evaluation ∈ evaluationsFrom (wokenDevice 56) 1 6 bootWorld,
      OwnChecksHeeded (wokenDevice 56) bootWorld.process.config evaluation.2.checks := by
    decide +kernel
  refine ⟨hheeded, ?_⟩
  intro evaluation hmem
  exact engineRun_delayRestarts (engineRun_evaluationsFrom (by decide +kernel)) rfl rfl
    (clockGoesOn_of_patientClock rfl) ⟨by decide, by decide⟩ evaluation hmem
    (hheeded evaluation hmem)

/-- The screen is off again when the next call looks, and the device is a candidate at once:
its clock has not gone on since the screen was found on. -/
theorem engineRun_not_delayRestarts_wokenDevice :
    (wokenDevice 55).ClockGoesOn ∧ 0 < (wokenDevice 55).clock 0 ∧
      ¬ ∀ evaluations, EngineRun (wokenDevice 55) bootWorld evaluations →
        ∀ evaluation ∈ evaluations,
          DelayRestarts (wokenDevice 55) bootWorld.process.config evaluation.2.checks := by
  refine ⟨clockGoesOn_of_patientClock rfl, by decide +kernel, ?_⟩
  intro hrestarts
  have hrun : EngineRun (wokenDevice 55) bootWorld
      (evaluationsFrom (wokenDevice 55) 1 5 bootWorld) :=
    engineRun_evaluationsFrom (by decide +kernel)
  have hall := hrestarts _ hrun
  revert hall
  decide +kernel

end FreshCore
