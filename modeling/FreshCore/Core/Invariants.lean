import FreshCore.Core.DecisionEngine

/-!
# Assertions about whole sessions

What the engine does itself is to check the device, to move between its states, to
command Doze and to set the timer. An assertion that such steps keep is kept by a
whole session as soon as the sweeps, the analysis and the cleaning keep it; the sweeps
keep what removing one child keeps, and the steps around it.
-/

namespace FreshCore

open Posix Imperative Config Device Cache

/-- The engine's own steps. -/
def engineScope : Scope where
  event
    | .screen _ => True
    | .idle _ => True
    | .maintenance => True
    | .doze _ => True
    | .transition _ => True
    | .timer _ => True
    | _ => False
  change f := ∀ p, ∃ engine time, f p = { p with engine, screenOffTime := time }

theorem idleScope_sub_engineScope : idleScope.Sub engineScope where
  event event hevent := by cases event <;> first | exact hevent | exact trivial
  change f hf p := by
    obtain ⟨time, htime⟩ := hf p
    exact ⟨p.engine, time, htime⟩

theorem transitionTo_within (env : Env) (newState : EngineState) :
    Within env engineScope (transitionTo newState) := by
  refine .bind (.prim .getProcess) fun process => ?_
  split
  · refine .bind (.prim (.setProcess fun p => ?_)) fun _ => .prim (.note trivial)
    exact ⟨newState, p.screenOffTime, rfl⟩
  · exact .pure _

section Sweeps

variable {env : Env} {depth : Nat} {I : World → Prop}
variable
  (hremove : ∀ path, Program.Triple I (removeRecursiveBatched env depth path) (fun _ => I) I)

include hremove

theorem sweepChildren_kept (path : Bytes) (names : List Name) :
    Program.Triple I (sweepChildren env depth path names) (fun _ => I) I := by
  induction names with
  | nil => exact .pure fun _ hw => hw
  | cons name rest ih =>
      unfold sweepChildren
      exact .ite (fun _ => ih) fun _ => .bind (hremove _) fun _ => ih

variable (htrim : ∀ w w', I w → trimScope.Reaches w w' → I w')
variable (hlist : ∀ path, Program.Triple I (getDirectoryChildren env path) (fun _ => I) I)
variable (henter : ∀ path, Program.Triple I (enter path) (fun _ => I) I)
variable (hleave : ∀ path, Program.Triple I (leave path true) (fun _ => I) I)

include htrim hlist henter hleave

theorem sweepPaths_kept (paths : List Bytes) :
    Program.Triple I (sweepPaths env depth paths) (fun _ => I) I := by
  induction paths with
  | nil => exact .pure fun _ hw => hw
  | cons path rest ih =>
      unfold sweepPaths
      refine .bind ((evaluateIdleState_within env idleScope_sub_trimScope).triple htrim)
        fun idle => .ite (fun _ => .pure fun _ hw => hw) fun _ => ?_
      refine .bind (hlist path) fun children => ?_
      cases children with
      | none => exact ih
      | some children =>
          exact .bind (henter path) fun _ => .bind (sweepChildren_kept hremove path children)
            fun _ => .bind (hleave path) fun _ => ih

/-- The sweeps keep what a removal, trimming and the steps of their loop keep. -/
theorem runSystemMaintenanceSweeps_kept :
    Program.Triple I (runSystemMaintenanceSweeps env depth) (fun _ => I) I := by
  have hfstrim (path : Bytes) :=
    (nativeFstrim_within env (Scope.Sub.refl trimScope) path).triple htrim
  have hdone : Within env trimScope (note .sweepsDone) := .prim (.note trivial)
  unfold runSystemMaintenanceSweeps
  refine .bind (hfstrim _) fun _ => .bind (hfstrim _) fun _ => ?_
  refine .bind (sweepPaths_kept hremove htrim hlist henter hleave pathsToSweep) fun _ => ?_
  exact hdone.triple htrim

end Sweeps

section Kept

variable {env : Env} {depth : Nat} {I : World → Prop}
variable (hengine : engineScope.Keeps env I)

include hengine

theorem cleanTargets_kept
    (hclean : ∀ dir, Program.Triple I (cleanDirectorySafely env depth dir) (fun _ => I) I)
    (targets : List MaintenanceTarget) :
    Program.Triple I (cleanTargets env depth targets) (fun _ => I) I := by
  induction targets with
  | nil => exact .pure fun _ hw => hw
  | cons target rest ih =>
      unfold cleanTargets
      refine .bind (hengine (evaluateIdleState_within env idleScope_sub_engineScope))
        fun idle => .ite (fun _ => .pure fun _ hw => hw) fun _ => ?_
      exact .bind (hclean target.cacheDir) fun completed =>
        .ite (fun _ => .pure fun _ hw => hw) fun _ => ih

/-- The maintenance of the caches keeps what an analysis and the cleaning after it keep. -/
theorem maintainCaches_kept
    (hcaches : ∀ dirs, Program.Triple I
      (analyzeCaches env depth dirs >>= fun analysis => cleanTargets env depth analysis.2)
      (fun _ => I) I) :
    Program.Triple I (maintainCaches env depth) (fun _ => I) I := by
  have hpackages : Within env engineScope
      (sense fun tick => getInstalledPackages (env.packagesList tick)) := .prim (.sense _)
  unfold maintainCaches
  refine .bind (hengine (isScreenOn_within env idleScope_sub_engineScope))
    fun on => .ite (fun _ => .pure fun _ hw => hw) fun _ => ?_
  refine .bind (hengine hpackages) fun packages => ?_
  refine .bind (hengine (scanPackages_within env idleScope_sub_engineScope packages))
    fun dirs => ?_
  cases dirs with
  | none => exact .pure fun _ hw => hw
  | some dirs => exact hcaches dirs

/-- Maintenance keeps what its two phases keep. -/
theorem performMaintenance_kept
    (hsweeps : Program.Triple I (runSystemMaintenanceSweeps env depth) (fun _ => I) I)
    (hcaches : Program.Triple I (maintainCaches env depth) (fun _ => I) I) :
    Program.Triple I (performMaintenance env depth) (fun _ => I) I := by
  have hmove (state : EngineState) := hengine (transitionTo_within env state)
  have hstart : Within env engineScope (note .maintenance) := .prim (.note trivial)
  have hdoze : Within env engineScope optimizeDoze := .prim (.note trivial)
  unfold performMaintenance
  refine .bind (hengine hstart) fun _ => .bind hsweeps fun _ => ?_
  refine .bind hcaches fun finished => .ite (fun _ => ?_) fun _ => hmove .aborting
  exact .bind (hengine hdoze) fun _ => hmove .active

variable (hmaintenance : Program.Triple I (performMaintenance env depth) (fun _ => I) I)

include hmaintenance

theorem evaluateAndTransition_kept :
    Program.Triple I (evaluateAndTransition env depth) (fun _ => I) I := by
  have hmove (state : EngineState) := hengine (transitionTo_within env state)
  have hwake : Within env engineScope wakeFromDoze := .prim (.note trivial)
  unfold evaluateAndTransition
  refine .bind (M := fun _ => I) (.inspect fun _ hw => hw) fun process => ?_
  refine .bind (hengine (evaluateIdleState_within env idleScope_sub_engineScope))
    fun verdict => .ite (fun _ => .ite (fun _ => ?_) fun _ => .pure fun _ hw => hw) fun _ => ?_
  · exact .bind (hengine hwake) fun _ => hmove .active
  · unfold advance
    cases process.engine with
    | boot => exact hmove _
    | active => exact hmove _
    | screenOff => exact .ite (fun _ => hmove _) fun _ => .pure fun _ hw => hw
    | idleCandidate => exact hmove _
    | deepIdle => exact .bind (hmove .maintenance) fun _ => hmaintenance
    | maintenance => exact .pure fun _ hw => hw
    | aborting => exact hmove _
    | errorBackoff => exact hmove _

theorem eventLoop_kept (expirations : Nat) :
    Program.Triple I (eventLoop env depth expirations) (fun _ => I) I := by
  induction expirations with
  | zero => exact .pure fun _ hw => hw
  | succ expirations ih =>
      have htimer (seconds : UInt32) : Within env engineScope (note (.timer seconds)) :=
        .prim (.note trivial)
      unfold eventLoop
      refine .bind (evaluateAndTransition_kept hengine hmaintenance) fun _ => ?_
      refine .bind (M := fun _ => I) (.inspect fun _ hw => hw) fun process => ?_
      exact .bind (hengine (htimer _)) fun _ => ih

/-- A session keeps what loading the configuration, the engine's own steps and maintenance
keep. -/
theorem main_kept
    (hload : ∀ file w, I w →
      I { w with process.config := (loadConfig w.process.config file).2 })
    (expirations : Nat) : Program.Triple I (main env depth expirations) (fun _ => I) I := by
  have hread : Within env engineScope (sense env.configFile) := .prim (.sense _)
  have htimer : Within env engineScope (note (.timer 1)) := .prim (.note trivial)
  unfold main runScheduler
  refine .bind (hengine hread) fun file => ?_
  refine .bind (M := fun _ => I) (.update (hload file)) fun _ => ?_
  refine .bind (M := fun _ => I) (.inspect fun _ hw => hw) fun process => ?_
  refine .ite (fun _ => .pure fun _ hw => hw) fun _ => ?_
  exact .bind (hengine htimer) fun _ => eventLoop_kept hengine hmaintenance expirations

end Kept

end FreshCore
