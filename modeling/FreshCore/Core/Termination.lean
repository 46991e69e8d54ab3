import FreshCore.Cache.RemovalFrame
import FreshCore.Cache.ScannerConfinement
import FreshCore.Cache.Selection
import FreshCore.Core.Restart

/-!
# Sessions come to their end

Measuring and removing recurse into directories, and what bounds them is the tree: it never
grows while nobody else changes it. Followed down to a depth that exceeds the tree's, no
evaluation is cut off, however many there are.
-/

namespace FreshCore

open Posix Imperative Config Device Cache

variable {env : Env} {depth : Nat} {fs : FileSystem}

/-- On what is left of the tree, the code comes to its end and lets nothing grow. -/
def Ends (fs : FileSystem) {α : Type} (x : Daemon α) : Prop :=
  Program.Triple (fun w => w.fs.Subtree fs) x (fun _ w => w.fs.Subtree fs) fun _ => False

namespace Ends

variable {α β : Type} {x : Daemon α}

theorem of_run (h : ∀ w, w.fs.Subtree fs → ∃ a w', x.run w = (some a, w') ∧ w'.fs.Subtree w.fs) :
    Ends fs x := by
  intro w hw
  obtain ⟨a, w', hrun, hsub⟩ := h w hw
  rw [hrun]
  exact hsub.trans hw

theorem of_still (h : ∀ w, ∃ a w', x.run w = (some a, w') ∧ w'.fs = w.fs) : Ends fs x := by
  refine of_run fun w _ => ?_
  obtain ⟨a, w', hrun, hfs⟩ := h w
  exact ⟨a, w', hrun, hfs ▸ .refl _⟩

theorem pure (a : α) : Ends fs (Pure.pure a) := .of_still fun w => ⟨a, w, rfl, rfl⟩

theorem bind {f : α → Daemon β} (hx : Ends fs x) (hf : ∀ a, Ends fs (f a)) : Ends fs (x >>= f) :=
  Program.Triple.bind hx hf

theorem ite {c : Prop} [Decidable c] {y : Daemon α} (hx : c → Ends fs x) (hy : ¬ c → Ends fs y) :
    Ends fs (if c then x else y) :=
  Program.Triple.ite hx hy

theorem isSome (h : Ends fs x) {w : World} (hw : w.fs.Subtree fs) : (x.run w).1.isSome := by
  have hend := h w hw
  rcases hrun : x.run w with ⟨_ | a, w'⟩
  · rw [hrun] at hend
    exact hend.elim
  · rfl

end Ends

/-! ## The pieces -/

theorem sense_ends {α : Type} (read : Nat → α) : Ends fs (sense read) :=
  .of_still fun w => ⟨_, w.next, rfl, rfl⟩

theorem note_ends (event : Event) : Ends fs (note event) :=
  .of_still fun w => ⟨(), w.record event, rfl, rfl⟩

theorem getProcess_ends : Ends fs getProcess := .of_still fun w => ⟨_, w, rfl, rfl⟩

theorem setProcess_ends (change : Process → Process) : Ends fs (setProcess change) :=
  .of_still fun _ => ⟨(), _, rfl, rfl⟩

theorem enter_ends (path : Bytes) : Ends fs (enter path) := .of_still fun _ => ⟨(), _, rfl, rfl⟩

theorem leave_ends (path : Bytes) (completed : Bool) : Ends fs (leave path completed) :=
  .of_still fun _ => ⟨(), _, rfl, rfl⟩

theorem isScreenOn_ends : Ends fs (isScreenOn env) :=
  .of_still fun w => ⟨_, _, isScreenOn_run env w, rfl⟩

theorem evaluateIdleState_ends : Ends fs (evaluateIdleState env) := by
  refine .of_still fun w => ?_
  obtain ⟨tick, made, hrun, _⟩ := evaluateIdleState_run env w
  exact ⟨_, _, hrun, rfl⟩

theorem transitionTo_ends (newState : EngineState) : Ends fs (transitionTo newState) := by
  refine .of_still fun w => ⟨_, _, transitionTo_run newState w, ?_⟩
  split <;> rfl

theorem saveStateAtomic_ends : Ends fs (saveStateAtomic env) := by
  refine .of_still fun w => ?_
  unfold saveStateAtomic
  dsimp only
  split <;> exact ⟨(), _, rfl, rfl⟩

section Quiet

variable (hquiet : env.Quiet)

include hquiet

theorem getDirectoryChildren_ends (path : Bytes) : Ends fs (getDirectoryChildren env path) := by
  refine .of_still fun w => ?_
  obtain ⟨children, w', new, hrun, hlooked, _⟩ := getDirectoryChildren_looked hquiet path w
  exact ⟨children, w', hrun, hlooked.fs⟩

theorem scanPackageCache_ends (pkg : PackageInfo) : Ends fs (scanPackageCache env pkg) := by
  refine .of_still fun w => ?_
  obtain ⟨dirs, hresult, _⟩ := scanPackageCache_quiet hquiet pkg w
  have hscan : Within env silentScope (scanPackageCache env pkg) := scanPackageCache_within env pkg
  exact ⟨dirs, _, Program.run_eq_of_result hresult, hscan.fs_eq hquiet (fun _ _ => id) w⟩

theorem scanPackages_ends (packages : List PackageInfo) : Ends fs (scanPackages env packages) := by
  induction packages with
  | nil => exact .pure _
  | cons pkg rest ih =>
      unfold scanPackages
      refine .bind isScreenOn_ends fun on => .ite (fun _ => .pure _) fun _ => ?_
      exact .bind (scanPackageCache_ends hquiet pkg) fun _ => .bind ih fun _ => .pure _

/-! ## Where the code recurses -/

variable (hdepth : ∀ loc ∈ fs.locs, loc.length < depth)

include hdepth

theorem analyzeCaches_ends (dirs : List CacheDirInfo) : Ends fs (analyzeCaches env depth dirs) := by
  refine .of_run fun w hw => ?_
  obtain ⟨result, w', hrun, _⟩ :=
    analyzeCaches_quiet (fun _ => none) hquiet env.hides_none (hw.depth_lt hdepth) dirs
  have hfs := (analyzeCaches_within env depth (Scope.Sub.refl analysisScope) dirs).fs_eq hquiet
    (fun _ _ => id) w
  rw [hrun] at hfs
  exact ⟨result, w', hrun, hfs ▸ .refl _⟩

theorem removeRecursiveBatched_ends (path : Bytes) :
    Ends fs (removeRecursiveBatched env depth path) := by
  refine .of_run fun w hw => ?_
  obtain ⟨events, htraced, _⟩ := removeRecursiveBatched_does env depth path w
  have halone : Alone (eventsOf (removeRecursiveBatched env depth path) w) := by
    rw [htraced.eventsOf_eq]
    exact htraced.alone hquiet
  obtain ⟨completed, hresult⟩ :=
    Option.isSome_iff_exists.mp (removeRecursiveBatched_isSome (hw.depth_lt hdepth) halone)
  exact ⟨completed, _, Program.run_eq_of_result hresult,
    (removeRecursiveBatched_takes hquiet path w).pruned.subtree⟩

theorem cleanChildren_ends (path : Bytes) (names : List Name) :
    Ends fs (cleanChildren env depth path names) := by
  induction names with
  | nil => exact .pure _
  | cons name rest ih =>
      unfold cleanChildren
      exact .bind (removeRecursiveBatched_ends hquiet hdepth _) fun completed =>
        .ite (fun _ => .pure _) fun _ => ih

theorem cleanDirectorySafely_ends (targetDir : CacheDirInfo) :
    Ends fs (cleanDirectorySafely env depth targetDir) := by
  unfold cleanDirectorySafely
  refine .bind (getDirectoryChildren_ends hquiet _) fun children => ?_
  cases children with
  | none => exact .pure _
  | some children =>
      refine .bind (enter_ends _) fun _ => ?_
      refine .bind (cleanChildren_ends hquiet hdepth _ children) fun completed => ?_
      refine .bind (leave_ends _ _) fun _ => .ite (fun _ => .pure _) fun _ => ?_
      refine .bind getProcess_ends fun process => .bind (sense_ends _) fun now => ?_
      refine .bind (setProcess_ends _) fun _ => .bind (note_ends _) fun _ => ?_
      exact .bind saveStateAtomic_ends fun _ => .pure _

theorem cleanTargets_ends (targets : List MaintenanceTarget) :
    Ends fs (cleanTargets env depth targets) := by
  induction targets with
  | nil => exact .pure _
  | cons target rest ih =>
      unfold cleanTargets
      refine .bind evaluateIdleState_ends fun idle => .ite (fun _ => .pure _) fun _ => ?_
      exact .bind (cleanDirectorySafely_ends hquiet hdepth _) fun completed =>
        .ite (fun _ => .pure _) fun _ => ih

theorem sweepChildren_ends (path : Bytes) (names : List Name) :
    Ends fs (sweepChildren env depth path names) := by
  induction names with
  | nil => exact .pure _
  | cons name rest ih =>
      unfold sweepChildren
      exact .ite (fun _ => ih) fun _ =>
        .bind (removeRecursiveBatched_ends hquiet hdepth _) fun _ => ih

theorem sweepPaths_ends (paths : List Bytes) : Ends fs (sweepPaths env depth paths) := by
  induction paths with
  | nil => exact .pure _
  | cons path rest ih =>
      unfold sweepPaths
      refine .bind evaluateIdleState_ends fun idle => .ite (fun _ => .pure _) fun _ => ?_
      refine .bind (getDirectoryChildren_ends hquiet path) fun children => ?_
      cases children with
      | none => exact ih
      | some children =>
          exact .bind (enter_ends path) fun _ =>
            .bind (sweepChildren_ends hquiet hdepth path children) fun _ =>
              .bind (leave_ends path true) fun _ => ih

theorem runSystemMaintenanceSweeps_ends :
    Ends fs (runSystemMaintenanceSweeps env depth) := by
  have htrim (path : Bytes) : Ends fs (nativeFstrim env path) :=
    .bind evaluateIdleState_ends fun idle => .ite (fun _ => .pure _) fun _ =>
      .bind (sense_ends _) fun trims => .ite (fun _ => note_ends _) fun _ => .pure _
  unfold runSystemMaintenanceSweeps
  exact .bind (htrim _) fun _ => .bind (htrim _) fun _ =>
    .bind (sweepPaths_ends hquiet hdepth _) fun _ => note_ends _

theorem maintainCaches_ends : Ends fs (maintainCaches env depth) := by
  unfold maintainCaches
  refine .bind isScreenOn_ends fun on => .ite (fun _ => .pure _) fun _ => ?_
  refine .bind (sense_ends _) fun packages => ?_
  refine .bind (scanPackages_ends hquiet packages) fun dirs => ?_
  cases dirs with
  | none => exact .pure _
  | some dirs =>
      exact .bind (analyzeCaches_ends hquiet hdepth dirs) fun analysis =>
        cleanTargets_ends hquiet hdepth analysis.2

theorem performMaintenance_ends : Ends fs (performMaintenance env depth) := by
  unfold performMaintenance
  refine .bind (note_ends _) fun _ => ?_
  refine .bind (runSystemMaintenanceSweeps_ends hquiet hdepth) fun _ => ?_
  refine .bind (maintainCaches_ends hquiet hdepth) fun finished => .ite (fun _ => ?_)
    fun _ => transitionTo_ends _
  exact .bind (note_ends _) fun _ => transitionTo_ends _

theorem evaluateAndTransition_ends : Ends fs (evaluateAndTransition env depth) := by
  unfold evaluateAndTransition
  refine .bind getProcess_ends fun process => .bind evaluateIdleState_ends fun verdict => ?_
  refine .ite (fun _ => .ite (fun _ => ?_) fun _ => .pure _) fun _ => ?_
  · exact .bind (note_ends _) fun _ => transitionTo_ends _
  · unfold advance
    cases process.engine with
    | screenOff => exact .ite (fun _ => transitionTo_ends _) fun _ => .pure _
    | deepIdle =>
        exact .bind (transitionTo_ends _) fun _ => performMaintenance_ends hquiet hdepth
    | maintenance => exact .pure _
    | boot | active | idleCandidate | aborting | errorBackoff => exact transitionTo_ends _

theorem eventLoop_ends (expirations : Nat) : Ends fs (eventLoop env depth expirations) := by
  induction expirations with
  | zero => exact .pure _
  | succ expirations ih =>
      unfold eventLoop
      exact .bind (evaluateAndTransition_ends hquiet hdepth) fun _ =>
        .bind getProcess_ends fun process => .bind (note_ends _) fun _ => ih

end Quiet

/-- With a bound on the depth that exceeds the tree's, a session comes to the end of however
many evaluations. -/
theorem main_ends (hquiet : env.Quiet) {w : World}
    (hdepth : ∀ loc ∈ w.fs.locs, loc.length < depth) (expirations : Nat) :
    ((main env depth expirations).run w).1.isSome := by
  have hmain : Ends w.fs (main env depth expirations) := by
    unfold main runScheduler
    refine .bind (sense_ends _) fun file => .bind (setProcess_ends _) fun _ => ?_
    refine .bind getProcess_ends fun process => .ite (fun _ => .pure _) fun _ => ?_
    exact .bind (note_ends _) fun _ => eventLoop_ends hquiet hdepth expirations
  exact hmain.isSome (.refl _)

theorem main_ends_onePackageWorld :
    ((main onePackageDevice 6 4).run onePackageWorld.restart).1.isSome :=
  main_ends (fun _ => rfl) (by decide +kernel) 4

end FreshCore
