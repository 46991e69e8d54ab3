import FreshCore.Core.DecisionEngine
import FreshCore.Imperative.History

/-!
# Runs of the engine

A run is a sequence of evaluations, each made in the world the one before it has
left. What a run did is read off the log.
-/

namespace FreshCore

open Posix Imperative Config Device Cache

/-- The world before an evaluation and the one after it. -/
abbrev Evaluation := World × World

/-- The evaluations of a run that starts in the given world. -/
inductive EngineRun (env : Env) : World → List Evaluation → Prop
  | nil (w : World) : EngineRun env w []
  | cons {w w' : World} {depth : Nat} {rest : List Evaluation} :
      (evaluateAndTransition env depth).run w = (some (), w') → EngineRun env w' rest →
      EngineRun env w ((w, w') :: rest)

/-- The log entries of an evaluation. -/
def Evaluation.events (evaluation : Evaluation) : List Event :=
  evaluation.2.log.drop evaluation.1.log.length

def Event.verdict? : Event → Option IdleState
  | idle state => some state
  | _ => none

def Event.isMaintenance : Event → Bool
  | maintenance => true
  | _ => false

def Event.dozeCommand? : Event → Option DozeCommand
  | doze command => some command
  | _ => none

/-- What the first check of the evaluation returned, which is its own call of
`EvaluateIdleState`. -/
def Evaluation.verdict? (evaluation : Evaluation) : Option IdleState :=
  evaluation.events.findSome? Event.verdict?

/-- The evaluation entered `PerformMaintenance`. -/
def Evaluation.entersMaintenance (evaluation : Evaluation) : Bool :=
  evaluation.events.any Event.isMaintenance

/-- The last command to Doze, if there was one. -/
def lastDoze (log : List Event) : Option DozeCommand :=
  (log.filterMap Event.dozeCommand?).getLast?

/-- What a maintenance run logged. -/
def maintenanceEvents (env : Env) (depth : Nat) (w : World) : List Event :=
  ((performMaintenance env depth).run w).2.log.drop w.log.length

section Runs

variable {env : Env} {start : World}

theorem EngineRun.returns {evaluations : List Evaluation} (hrun : EngineRun env start evaluations)
    {evaluation : Evaluation} (hmem : evaluation ∈ evaluations) :
    ∃ depth, (evaluateAndTransition env depth).run evaluation.1 = (some (), evaluation.2) := by
  induction hrun with
  | nil => cases hmem
  | @cons w w' depth rest hstep _ ih =>
      rcases List.mem_cons.mp hmem with rfl | hrest
      · exact ⟨depth, hstep⟩
      · exact ih hrest

/-- What each evaluation keeps of the run so far is there at each point of the run, and so
is all that follows from it. -/
theorem EngineRun.throughout {I : List Evaluation → World → Prop}
    {P : List Evaluation → Evaluation → Prop} {evaluations before : List Evaluation}
    (hrun : EngineRun env start evaluations) (hbefore : Throughout P before)
    (hstart : I before start)
    (hstep : ∀ before w w' depth, I before w →
      (evaluateAndTransition env depth).run w = (some (), w') →
      P before (w, w') ∧ I (before ++ [(w, w')]) w') :
    Throughout P (before ++ evaluations) := by
  induction hrun generalizing before with
  | nil => simpa using hbefore
  | @cons w w' depth rest hevaluated _ ih =>
      obtain ⟨hentry, hnext⟩ := hstep before w w' depth hstart hevaluated
      rw [List.append_cons]
      apply ih
      · exact Throughout.concat_iff.mpr ⟨hbefore, hentry⟩
      · exact hnext

/-- The given number of evaluations from a world on. -/
def evaluationsFrom (env : Env) (depth : Nat) : Nat → World → List Evaluation
  | 0, _ => []
  | count + 1, w =>
      let w' := ((evaluateAndTransition env depth).run w).2
      (w, w') :: evaluationsFrom env depth count w'

/-- The evaluation was not cut off at the given depth. -/
def Evaluation.isComplete (env : Env) (depth : Nat) (evaluation : Evaluation) : Bool :=
  ((evaluateAndTransition env depth).run evaluation.1).1.isSome

theorem engineRun_evaluationsFrom {depth count : Nat}
    (hcomplete : (evaluationsFrom env depth count start).all
      (Evaluation.isComplete env depth) = true) :
    EngineRun env start (evaluationsFrom env depth count start) := by
  induction count generalizing start with
  | zero => exact .nil start
  | succ count ih =>
      rw [evaluationsFrom, List.all_cons, Bool.and_eq_true] at hcomplete
      obtain ⟨result, hresult⟩ := Option.isSome_iff_exists.mp hcomplete.1
      have hstep : (evaluateAndTransition env depth).run start =
          (some (), ((evaluateAndTransition env depth).run start).2) :=
        Program.run_eq_of_result hresult
      exact .cons hstep (ih hcomplete.2)

end Runs

/-! ## What an evaluation reports -/

section Reports

variable {env : Env}

theorem ScreenChecks.silent {verdict : IdleState} {checks : List Event}
    (h : ScreenChecks verdict checks) (event : Event) (hevent : event ∈ checks) :
    event.verdict? = none ∧ event.isMaintenance = false ∧ event.dozeCommand? = none := by
  rcases h with ⟨_, rfl⟩ | ⟨_, rfl | ⟨on, rfl⟩⟩ <;>
    simp only [List.mem_cons, List.not_mem_nil, or_false] at hevent
  · subst hevent; exact ⟨rfl, rfl, rfl⟩
  · subst hevent; exact ⟨rfl, rfl, rfl⟩
  · rcases hevent with rfl | rfl <;> exact ⟨rfl, rfl, rfl⟩

theorem maintenanceScope_silent {event : Event}
    (h : maintenanceScope.event event ∨ event.isAmbient) :
    event.isMaintenance = false ∧ event.dozeCommand? = none := by
  rcases h with h | h
  · cases event <;> first | exact ⟨rfl, rfl⟩ | exact h.elim
  · cases event <;> first | exact ⟨rfl, rfl⟩ | cases h

/-- Maintenance is entered from `DEEP_IDLE`, whatever kept the device from being idle, as
long as it is not the screen. -/
theorem Evaluated.entersMaintenance_iff {w w' : World} {acts : List Event}
    (h : Evaluated env w w' acts) :
    acts.any Event.isMaintenance = true ↔
      w.process.engine = .deepIdle ∧ idleVerdict env w ≠ .notIdle := by
  cases h with
  | awake hverdict hengine _ => simp [hverdict]
  | woken hverdict hengine _ => simp [hverdict, Event.isMaintenance]
  | advanced hverdict hengine _ hmoved =>
      rcases hmoved with rfl | ⟨state, rfl⟩ <;> simp [hengine, Event.isMaintenance]
  | finished hverdict hengine _ _ => simp [hverdict, hengine, Event.isMaintenance]
  | interrupted hverdict hengine _ _ => simp [hverdict, hengine, Event.isMaintenance]

theorem evaluation_events {w w' : World} {depth : Nat}
    (hrun : (evaluateAndTransition env depth).run w = (some (), w')) :
    ∃ checks acts, ScreenChecks (idleVerdict env w) checks ∧
      Evaluation.events (w, w') = checks ++ .idle (idleVerdict env w) :: acts ∧
      Evaluated env w w' acts := by
  obtain ⟨_, checks, acts, hchecks, hlog, hacts⟩ := evaluateAndTransition_returns env depth hrun
  refine ⟨checks, acts, hchecks, ?_, hacts⟩
  rw [Evaluation.events, hlog, List.drop_left]

theorem evaluation_verdict? {w w' : World} {depth : Nat}
    (hrun : (evaluateAndTransition env depth).run w = (some (), w')) :
    Evaluation.verdict? (w, w') = some (idleVerdict env w) := by
  obtain ⟨checks, acts, hchecks, hevents, _⟩ := evaluation_events hrun
  have hnone : checks.findSome? Event.verdict? = none :=
    List.findSome?_eq_none_iff.mpr fun event hevent =>
      (hchecks.silent event hevent).1
  rw [Evaluation.verdict?, hevents, List.findSome?_append, hnone]
  rfl

theorem evaluation_entersMaintenance {w w' : World} {depth : Nat}
    (hrun : (evaluateAndTransition env depth).run w = (some (), w')) :
    Evaluation.entersMaintenance (w, w') = true ↔
      w.process.engine = .deepIdle ∧ idleVerdict env w ≠ .notIdle := by
  obtain ⟨checks, acts, hchecks, hevents, hacts⟩ := evaluation_events hrun
  have hnone : checks.any Event.isMaintenance = false :=
    List.any_eq_false.mpr fun event hevent => by
      rw [(hchecks.silent event hevent).2.1]
      exact Bool.false_ne_true
  rw [Evaluation.entersMaintenance, hevents, List.any_append, hnone, List.any_cons]
  exact hacts.entersMaintenance_iff

end Reports

/-! ## Maintenance under safe conditions -/

/-- Maintenance was entered only with the verdict that the device is a candidate for it. -/
def Evaluation.StartsSafely (evaluation : Evaluation) : Prop :=
  evaluation.entersMaintenance = true → evaluation.verdict? = some .idleCandidate

/-- If the evaluation is made in `DEEP_IDLE` with the screen off, then the delay has
passed and the battery, thermal, memory and foreground checks find nothing. -/
def Evaluation.DeepIdleIsSafe (env : Env) (evaluation : Evaluation) : Prop :=
  evaluation.1.process.engine = .deepIdle →
    (env.screen evaluation.1.tick).isOn = false → conditionsMet env evaluation.1 = true

instance (evaluation : Evaluation) : Decidable evaluation.StartsSafely := by
  unfold Evaluation.StartsSafely
  infer_instance

instance (env : Env) (evaluation : Evaluation) : Decidable (evaluation.DeepIdleIsSafe env) := by
  unfold Evaluation.DeepIdleIsSafe
  infer_instance

theorem startsSafely_iff {env : Env} {w w' : World} {depth : Nat}
    (hrun : (evaluateAndTransition env depth).run w = (some (), w')) :
    Evaluation.StartsSafely (w, w') ↔ Evaluation.DeepIdleIsSafe env (w, w') := by
  rw [Evaluation.StartsSafely, evaluation_entersMaintenance hrun, evaluation_verdict? hrun]
  unfold Evaluation.DeepIdleIsSafe idleVerdict
  by_cases hon : (env.screen w.tick).isOn
  · simp [hon]
  · by_cases hmet : conditionsMet env w <;> simp [hon, hmet]

/-- In a run, maintenance starts only under safe conditions exactly when every evaluation
in `DEEP_IDLE` with the screen off finds them: the verdict itself is not looked at. -/
theorem engineRun_startsSafely_iff {env : Env} {start : World} {evaluations : List Evaluation}
    (hrun : EngineRun env start evaluations) :
    (∀ evaluation ∈ evaluations, evaluation.StartsSafely) ↔
      ∀ evaluation ∈ evaluations, evaluation.DeepIdleIsSafe env := by
  apply forall₂_congr
  intro evaluation hmem
  obtain ⟨depth, hstep⟩ := hrun.returns hmem
  exact startsSafely_iff hstep

/-- A process that has just started. -/
def bootWorld : World where
  fs := .bare

/-- The clock goes on by a quarter of an hour with each reading. -/
def slowDevice : Env :=
  { restingDevice with monotonic := fun tick => { sec := 900 * .ofNat (tick + 1), nsec := 0 } }

theorem engineRun_startsSafely_slowDevice :
    (∀ evaluation ∈ evaluationsFrom slowDevice 1 4 bootWorld, evaluation.StartsSafely) ↔
      ∀ evaluation ∈ evaluationsFrom slowDevice 1 4 bootWorld,
        evaluation.DeepIdleIsSafe slowDevice :=
  engineRun_startsSafely_iff (engineRun_evaluationsFrom (by decide +kernel))

/-- The charger is unplugged at a tenth of the capacity before the fourth evaluation. -/
def unpluggedDevice : Env :=
  { slowDevice with
    battery := fun tick =>
      if tick < 16 then slowDevice.battery tick
      else { nodeFound := true, status := some (lit "Discharging"), capacity := some 10 } }

/-- Maintenance starts on an empty battery: in `DEEP_IDLE` only the screen counts. -/
theorem engineRun_startsSafely_unpluggedDevice :
    ¬ ∀ evaluations, EngineRun unpluggedDevice bootWorld evaluations →
      ∀ evaluation ∈ evaluations, evaluation.StartsSafely := by
  intro hsafe
  have hrun : EngineRun unpluggedDevice bootWorld (evaluationsFrom unpluggedDevice 1 4 bootWorld) :=
    engineRun_evaluationsFrom (by decide +kernel)
  have hall := hsafe _ hrun
  revert hall
  decide +kernel

end FreshCore
