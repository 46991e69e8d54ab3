import FreshCore.Core.EngineRuns

/-!
# Doze and the screen

Maintenance ends by forcing the device into Doze and moving the engine to `ACTIVE`,
which is the one state in which a screen that comes on is not answered by
`WakeFromDoze`.
-/

namespace FreshCore

open Posix Imperative Config Device Cache

/-- The evaluation found the screen on, and left a device whose last Doze command, if
there was one, is the one that wakes it. -/
def Evaluation.ReleasesDoze (evaluation : Evaluation) : Prop :=
  evaluation.verdict? = some .notIdle → lastDoze evaluation.2.log ≠ some .optimizeDoze

/-- A maintenance run came to its end in the evaluation. -/
def Evaluation.finishes (env : Env) (evaluation : Evaluation) : Bool :=
  !(env.screen evaluation.1.tick).isOn && evaluation.1.process.engine = .deepIdle &&
    evaluation.2.process.engine = .active

/-- No evaluation finds the screen on in `ACTIVE` if a maintenance run has come to its end
since the screen was last found on; `pending` says that one has. -/
def NoWakeMissed (env : Env) : Bool → List Evaluation → Prop
  | _, [] => True
  | pending, evaluation :: rest =>
      if (env.screen evaluation.1.tick).isOn then
        (evaluation.1.process.engine = .active → pending = false) ∧ NoWakeMissed env false rest
      else NoWakeMissed env (pending || evaluation.finishes env) rest

instance (evaluation : Evaluation) : Decidable evaluation.ReleasesDoze := by
  unfold Evaluation.ReleasesDoze
  infer_instance

instance NoWakeMissed.decidable (env : Env) (pending : Bool) (evaluations : List Evaluation) :
    Decidable (NoWakeMissed env pending evaluations) := by
  induction evaluations generalizing pending with
  | nil => exact .isTrue trivial
  | cons evaluation rest ih => unfold NoWakeMissed; infer_instance

/-! ## The last command -/

theorem lastDoze_append (log acts : List Event) :
    lastDoze (log ++ acts) = (lastDoze acts).or (lastDoze log) := by
  rw [lastDoze, List.filterMap_append, List.getLast?_append]
  rfl

theorem lastDoze_eq_none {acts : List Event}
    (hacts : ∀ event ∈ acts, event.dozeCommand? = none) : lastDoze acts = none := by
  rw [lastDoze, List.filterMap_eq_nil_iff.mpr hacts]
  rfl

variable {env : Env}

/-- What an evaluation does about Doze: it wakes a device whose screen came on, unless the
engine is in `ACTIVE`, and forces Doze where a maintenance run comes to its end. -/
theorem Evaluated.lastDoze {w w' : World} {acts : List Event} (h : Evaluated env w w' acts) :
    FreshCore.lastDoze acts =
      if (env.screen w.tick).isOn then
        if w.process.engine = .active then none else some .wakeFromDoze
      else if Evaluation.finishes env (w, w') then some .optimizeDoze else none := by
  have hnotIdle (hon : (env.screen w.tick).isOn) : idleVerdict env w = .notIdle :=
    (idleVerdict_eq_notIdle env w).mpr hon
  have hisOn (hverdict : idleVerdict env w = .notIdle) : (env.screen w.tick).isOn :=
    (idleVerdict_eq_notIdle env w).mp hverdict
  have hsilent {new : List Event}
      (hnew : ∀ event ∈ new, maintenanceScope.event event ∨ event.isAmbient) :
      ∀ event ∈ new, event.dozeCommand? = none :=
    fun event hevent => (maintenanceScope_silent (hnew event hevent)).2
  cases h with
  | awake hverdict hengine _ =>
      rw [if_pos (hisOn hverdict), if_pos hengine]
      rfl
  | woken hverdict hengine _ =>
      rw [if_pos (hisOn hverdict), if_neg hengine]
      rfl
  | advanced hverdict hengine _ hmoved =>
      rw [if_neg (mt hnotIdle hverdict), if_neg (by simp [Evaluation.finishes, hengine])]
      rcases hmoved with rfl | ⟨state, rfl⟩ <;> rfl
  | @finished new hverdict hengine hengine' hnew =>
      have hoff := mt hnotIdle hverdict
      rw [if_neg hoff, if_pos (by simp [Evaluation.finishes, hoff, hengine, hengine'])]
      have hsplit : Event.transition .maintenance :: .maintenance ::
          (new ++ [.doze .optimizeDoze, .transition .active]) =
          ([.transition .maintenance, .maintenance] ++ new) ++
            [.doze .optimizeDoze, .transition .active] := by simp
      rw [hsplit, lastDoze_append]
      rfl
  | @interrupted new hverdict hengine hengine' hnew =>
      rw [if_neg (mt hnotIdle hverdict), if_neg (by simp [Evaluation.finishes, hengine'])]
      apply lastDoze_eq_none
      intro event hevent
      simp only [List.mem_cons, List.mem_append, List.not_mem_nil, or_false] at hevent
      rcases hevent with rfl | rfl | hmem | rfl
      · rfl
      · rfl
      · exact hsilent hnew event hmem
      · rfl

theorem evaluation_lastDoze {w w' : World} {depth : Nat}
    (hrun : (evaluateAndTransition env depth).run w = (some (), w')) :
    lastDoze w'.log =
      if (env.screen w.tick).isOn then
        if w.process.engine = .active then lastDoze w.log else some .wakeFromDoze
      else if Evaluation.finishes env (w, w') then some .optimizeDoze else lastDoze w.log := by
  obtain ⟨_, checks, acts, hchecks, hlog, hacts⟩ := evaluateAndTransition_returns env depth hrun
  have hquiet : lastDoze (checks ++ [.idle (idleVerdict env w)]) = none := by
    apply lastDoze_eq_none
    intro event hevent
    rcases List.mem_append.mp hevent with hmem | hmem
    · exact (hchecks.silent event hmem).2.2
    · rw [List.mem_singleton.mp hmem]
      rfl
  have hsplit : checks ++ .idle (idleVerdict env w) :: acts =
      (checks ++ [.idle (idleVerdict env w)]) ++ acts := by simp
  rw [hlog, lastDoze_append, hsplit, lastDoze_append, hquiet, hacts.lastDoze]
  split
  · split <;> rfl
  · split <;> rfl

/-! ## Over a run -/

/-- As long as every wake was answered, the device is left in forced Doze exactly while a
maintenance run has come to its end since. -/
theorem engineRun_releasesDoze_from {start : World} {evaluations : List Evaluation}
    (hrun : EngineRun env start evaluations) {pending : Bool}
    (hpending : lastDoze start.log = some .optimizeDoze ↔ pending = true) :
    (∀ evaluation ∈ evaluations, evaluation.ReleasesDoze) ↔
      NoWakeMissed env pending evaluations := by
  induction hrun generalizing pending with
  | nil => simp [NoWakeMissed]
  | @cons w w' depth rest hstep _ ih =>
      have hdoze := evaluation_lastDoze hstep
      rw [List.forall_mem_cons, NoWakeMissed]
      -- `pending` is what the last Doze command says, and each evaluation keeps it so
      by_cases hon : (env.screen w.tick).isOn
      · rw [if_pos hon] at hdoze ⊢
        have hreleases : Evaluation.ReleasesDoze (w, w') ↔
            lastDoze w'.log ≠ some .optimizeDoze := by
          rw [Evaluation.ReleasesDoze, evaluation_verdict? hstep,
            (idleVerdict_eq_notIdle env w).mpr hon]
          exact forall_prop_of_true rfl
        have hanswered : lastDoze w'.log ≠ some .optimizeDoze ↔
            (w.process.engine = .active → pending = false) := by
          rw [hdoze]
          by_cases hactive : w.process.engine = .active
          · rw [if_pos hactive, ne_eq, hpending, Bool.not_eq_true]
            exact ⟨fun h _ => h, fun h => h hactive⟩
          · rw [if_neg hactive]
            exact ⟨fun _ h => absurd h hactive, fun _ => by decide⟩
        rw [hreleases, ← hanswered]
        refine and_congr_right fun hne => ih ?_
        simp [hne]
      · rw [if_neg hon] at hdoze ⊢
        have hreleases : Evaluation.ReleasesDoze (w, w') := by
          rw [Evaluation.ReleasesDoze, evaluation_verdict? hstep]
          intro hverdict
          exact absurd ((idleVerdict_eq_notIdle env w).mp (Option.some.inj hverdict)) hon
        rw [and_iff_right hreleases]
        apply ih
        rw [hdoze]
        by_cases hfinishes : Evaluation.finishes env (w, w') = true
        · simp [hfinishes]
        · simp [hfinishes, hpending]

/-- From `BOOT`, with no Doze command given yet, a lit screen is never left in forced Doze
exactly when no evaluation finds it on in `ACTIVE` after a finished maintenance run. -/
theorem engineRun_releasesDoze_iff {start : World} {evaluations : List Evaluation}
    (hrun : EngineRun env start evaluations) (hlog : start.log = []) :
    (∀ evaluation ∈ evaluations, evaluation.ReleasesDoze) ↔
      NoWakeMissed env false evaluations := by
  apply engineRun_releasesDoze_from hrun
  rw [hlog]
  exact ⟨nofun, nofun⟩

/-- The screen comes on once maintenance is over. -/
def wakingDevice : Env :=
  { slowDevice with
    screen := fun tick =>
      { brightness := some (if tick < 60 then 0 else 128), wakefulness := [] } }

theorem engineRun_releasesDoze_slowDevice :
    (∀ evaluation ∈ evaluationsFrom slowDevice 1 5 bootWorld, evaluation.ReleasesDoze) ↔
      NoWakeMissed slowDevice false (evaluationsFrom slowDevice 1 5 bootWorld) :=
  engineRun_releasesDoze_iff (engineRun_evaluationsFrom (by decide +kernel)) rfl

/-- The screen that comes on right after maintenance stays in forced Doze. -/
theorem engineRun_releasesDoze_wakingDevice :
    ¬ ∀ evaluations, EngineRun wakingDevice bootWorld evaluations →
      ∀ evaluation ∈ evaluations, evaluation.ReleasesDoze := by
  intro hreleases
  have hrun : EngineRun wakingDevice bootWorld (evaluationsFrom wakingDevice 1 5 bootWorld) :=
    engineRun_evaluationsFrom (by decide +kernel)
  have hall := hreleases _ hrun
  revert hall
  decide +kernel

end FreshCore
