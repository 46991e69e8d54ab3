import FreshCore.Core.DecisionEngine

/-!
# How maintenance is put together

The globals come in where the device is checked and where a batch ends. What lies between
looks at the configuration, the records and the state of the engine only. Taken apart this
far and no further, maintenance can be followed by an assertion about the checks, or by one
about the totals, with one rule for each kind of piece.
-/

namespace FreshCore

open Posix Imperative Config Device Cache

/-- What the code between the checks and the ends of batches can see is the same. -/
structure Process.Alike (p q : Process) : Prop where
  config : p.config = q.config
  states : p.states = q.states
  engine : p.engine = q.engine

/-- Any event but the end of a batch. -/
def Event.IsBetweenBatches : Event → Prop
  | endBatch _ _ _ => False
  | _ => True

/-- Code put together from these pieces. -/
inductive Assembled (env : Env) : ∀ {α : Type}, Daemon α → Prop
  | pure {α : Type} (a : α) : Assembled env (Pure.pure a : Daemon α)
  | cut {α : Type} : Assembled env (Program.cut : Daemon α)
  | bind {α β : Type} {x : Daemon β} {f : β → Daemon α} :
      Assembled env x → (∀ b, Assembled env (f b)) → Assembled env (x >>= f)
  | process {α : Type} {f : Process → Daemon α} :
      (∀ p q, p.Alike q → f p = f q) → (∀ p, Assembled env (f p)) →
      Assembled env (getProcess >>= f)
  | sense {α : Type} (read : Nat → α) : Assembled env (FreshCore.sense read)
  | note {event : Event} : event.IsBetweenBatches → Assembled env (FreshCore.note event)
  | lstat (path : Bytes) : Assembled env (FreshCore.lstat env path)
  | realpath (path : Bytes) : Assembled env (FreshCore.realpath env path)
  | listDirectory (path : Bytes) : Assembled env (FreshCore.listDirectory env path)
  | removeEntry (remove : FileSystem → Loc → Option FileSystem) (path : Bytes) :
      Assembled env (FreshCore.removeEntry env remove path)
  | enter (path : Bytes) : Assembled env (FreshCore.enter path)
  | leave (path : Bytes) (completed : Bool) : Assembled env (FreshCore.leave path completed)
  | save : Assembled env (saveStateAtomic env)
  | setStates (change : PackageStore → PackageStore) :
      Assembled env (setProcess fun p => { p with states := change p.states })
  | transitionTo (newState : EngineState) : Assembled env (FreshCore.transitionTo newState)
  | isScreenOn : Assembled env (FreshCore.isScreenOn env)
  | evaluateIdleState : Assembled env (FreshCore.evaluateIdleState env)
  | startBatch : Assembled env (FreshCore.startBatch env)
  | endBatch (filesProcessed : Int) (bytesFreed : UInt64) :
      Assembled env (FreshCore.endBatch env filesProcessed bytesFreed)

namespace Assembled

variable {env : Env}

theorem ite {α : Type} {c : Prop} [Decidable c] {x y : Daemon α} (hx : Assembled env x)
    (hy : Assembled env y) : Assembled env (if c then x else y) := by
  split
  · exact hx
  · exact hy

/-! ## Listing, scanning and measuring -/

theorem getDirectoryChildren (dirPath : Bytes) :
    Assembled env (FreshCore.getDirectoryChildren env dirPath) :=
  .bind (.listDirectory dirPath) fun _ => .bind (.note trivial) fun _ => .pure _

theorem getCanonicalPath (path : Bytes) : Assembled env (FreshCore.getCanonicalPath env path) :=
  .bind (.realpath path) fun _ => .pure _

theorem isPathUnderRoot (path root : Bytes) :
    Assembled env (FreshCore.isPathUnderRoot env path root) :=
  .bind (getCanonicalPath path) fun _ => .bind (getCanonicalPath root) fun _ => .pure _

theorem safeRemove (path : Bytes) : Assembled env (FreshCore.safeRemove env path) := by
  refine .bind (.lstat path) fun node => ?_
  split
  · exact .pure _
  · exact .ite (.removeEntry _ path) (.removeEntry _ path)

theorem isAcceptedPath (dataDir cand : Bytes) :
    Assembled env (FreshCore.isAcceptedPath env dataDir cand) := by
  refine .bind (.bind (isPathUnderRoot cand dataDir) fun under => ?_) fun _ => .pure _
  exact .ite (.pure _) (.bind (getCanonicalPath cand) fun _ => .ite (.pure _) (.pure _))

theorem scanCandidates (pkg : PackageInfo) (cands : List Bytes) :
    Assembled env (FreshCore.scanCandidates env pkg cands) := by
  induction cands with
  | nil => exact .pure _
  | cons cand rest ih =>
      refine .bind (.bind (isAcceptedPath _ _) fun _ => .ite (.pure _) ?_) fun _ =>
        .bind ih fun _ => .pure _
      exact .bind (.lstat cand) fun _ => .ite (.pure _) (.pure _)

theorem scanPackageCache (pkg : PackageInfo) :
    Assembled env (FreshCore.scanPackageCache env pkg) := by
  refine .process (fun p q halike => ?_) fun p => .ite (.pure _) (scanCandidates pkg _)
  rw [halike.config]

theorem scanPackages (packages : List PackageInfo) :
    Assembled env (FreshCore.scanPackages env packages) := by
  induction packages with
  | nil => exact .pure _
  | cons pkg rest ih =>
      refine .bind .isScreenOn fun on => .ite (.pure _) ?_
      exact .bind (scanPackageCache pkg) fun _ => .bind ih fun _ => .pure _

theorem sumSizes {recurse : Bytes → Daemon UInt64} (hrecurse : ∀ path, Assembled env (recurse path))
    (dirPath : Bytes) (names : List Name) (size : UInt64) :
    Assembled env (FreshCore.sumSizes env recurse dirPath names size) := by
  induction names generalizing size with
  | nil => exact .pure _
  | cons name rest ih =>
      refine .bind (.lstat _) fun node => ?_
      split
      · exact ih size
      · exact .ite (.bind (hrecurse _) fun _ => ih _) (ih _)

theorem getDirectorySize (depth : Nat) (dirPath : Bytes) :
    Assembled env (FreshCore.getDirectorySize env depth dirPath) := by
  induction depth generalizing dirPath with
  | zero => exact .cut
  | succ depth ih =>
      refine .bind (getDirectoryChildren dirPath) fun children => ?_
      split
      · exact .pure _
      · exact sumSizes ih dirPath _ 0

theorem calculateCacheSize (depth : Nat) (info : CacheDirInfo) :
    Assembled env (FreshCore.calculateCacheSize env depth info) :=
  .ite (.pure _) (.bind (getDirectorySize depth info.path) fun _ => .pure _)

/-! ## The analysis -/

theorem analyzeDir (depth : Nat) (now : UInt64) (dir : CacheDirInfo) :
    Assembled env (FreshCore.analyzeDir env depth now dir) := by
  refine .process (fun p q halike => ?_) fun process => .ite (.pure _) ?_
  · simp only [halike.config, halike.states]
  refine .bind (calculateCacheSize depth dir) fun dir => ?_
  exact .bind (.setStates fun states => updatePackageState states _ _) fun _ =>
    .ite (.pure _) (.pure _)

theorem analyzeDirs (depth : Nat) (now : UInt64) (dirs : List CacheDirInfo) :
    Assembled env (FreshCore.analyzeDirs env depth now dirs) := by
  induction dirs with
  | nil => exact .pure _
  | cons dir rest ih =>
      exact .bind (analyzeDir depth now dir) fun _ => .bind ih fun _ => .pure _

theorem analyzeCaches (depth : Nat) (scannedDirs : List CacheDirInfo) :
    Assembled env (FreshCore.analyzeCaches env depth scannedDirs) := by
  refine .process (fun p q halike => by rw [halike.states]) fun process => ?_
  refine .bind (.note trivial) fun _ => .bind (.sense _) fun now => ?_
  exact .bind (analyzeDirs depth now scannedDirs) fun _ => .bind .save fun _ =>
    .bind (.sense _) fun _ => .pure _

/-! ## Removal -/

theorem removeChild {recurse : Bytes → Daemon Bool}
    (hrecurse : ∀ path, Assembled env (recurse path))
    (childPath : Bytes) (filesRemoved : Int) (bytesFreed : UInt64) :
    Assembled env (FreshCore.removeChild env recurse childPath filesRemoved bytesFreed) := by
  refine .bind (.lstat childPath) fun node => ?_
  split
  · exact .pure _
  · refine .ite (.bind (hrecurse childPath) fun _ => .ite (.pure _) (.pure _)) ?_
    exact .bind (safeRemove childPath) fun _ => .ite (.pure _) (.pure _)

theorem removeChildren {recurse : Bytes → Daemon Bool}
    (hrecurse : ∀ path, Assembled env (recurse path)) (path : Bytes) (names : List Name)
    (filesRemoved : Int) (bytesFreed : UInt64) :
    Assembled env (FreshCore.removeChildren env recurse path names filesRemoved bytesFreed) := by
  induction names generalizing filesRemoved bytesFreed with
  | nil => exact .pure _
  | cons name rest ih =>
      refine .bind .evaluateIdleState fun idle => .ite (.pure _) ?_
      refine .bind (removeChild hrecurse _ _ _) fun counts => ?_
      split
      · exact .pure _
      · refine .process (fun p q halike => by rw [halike.config]) fun process => .ite ?_ (ih _ _)
        refine .bind (.endBatch _ _) fun proceed => .ite (.pure _) ?_
        exact .bind .startBatch fun _ => ih 0 0

theorem removeRecursiveBatched (depth : Nat) (path : Bytes) :
    Assembled env (FreshCore.removeRecursiveBatched env depth path) := by
  induction depth generalizing path with
  | zero => exact .cut
  | succ depth ih =>
      refine .bind (getDirectoryChildren path) fun children => ?_
      split
      · exact .pure _
      refine .bind (.enter path) fun _ => .bind .startBatch fun _ => ?_
      refine .bind (removeChildren ih path _ 0 0) fun counts => ?_
      split
      · exact .bind (.leave path false) fun _ => .pure _
      · exact .bind (.endBatch _ _) fun _ => .bind (.leave path true) fun _ =>
          .bind (safeRemove path) fun _ => .pure _

theorem cleanChildren (depth : Nat) (path : Bytes) (names : List Name) :
    Assembled env (FreshCore.cleanChildren env depth path names) := by
  induction names with
  | nil => exact .pure _
  | cons name rest ih =>
      exact .bind (removeRecursiveBatched depth _) fun _ => .ite (.pure _) ih

theorem cleanDirectorySafely (depth : Nat) (targetDir : CacheDirInfo) :
    Assembled env (FreshCore.cleanDirectorySafely env depth targetDir) := by
  refine .bind (getDirectoryChildren targetDir.path) fun children => ?_
  split
  · exact .pure _
  refine .bind (.enter _) fun _ => .bind (cleanChildren depth _ _) fun completed => ?_
  refine .bind (.leave _ completed) fun _ => .ite (.pure _) ?_
  refine .process (fun p q halike => by rw [halike.states]) fun process => ?_
  refine .bind (.sense _) fun now => ?_
  refine .bind (.setStates fun states => updatePackageState states _ _) fun _ => ?_
  exact .bind (.note trivial) fun _ => .bind .save fun _ => .pure _

theorem cleanTargets (depth : Nat) (targets : List MaintenanceTarget) :
    Assembled env (FreshCore.cleanTargets env depth targets) := by
  induction targets with
  | nil => exact .pure _
  | cons target rest ih =>
      refine .bind .evaluateIdleState fun idle => .ite (.pure _) ?_
      exact .bind (cleanDirectorySafely depth _) fun _ => .ite (.pure _) ih

/-! ## Sweeps and maintenance -/

theorem nativeFstrim (path : Bytes) : Assembled env (FreshCore.nativeFstrim env path) := by
  refine .bind .evaluateIdleState fun idle => .ite (.pure _) ?_
  exact .bind (.sense _) fun _ => .ite (.note trivial) (.pure _)

theorem sweepChildren (depth : Nat) (path : Bytes) (names : List Name) :
    Assembled env (FreshCore.sweepChildren env depth path names) := by
  induction names with
  | nil => exact .pure _
  | cons name rest ih =>
      exact .ite ih (.bind (removeRecursiveBatched depth _) fun _ => ih)

theorem sweepPaths (depth : Nat) (paths : List Bytes) :
    Assembled env (FreshCore.sweepPaths env depth paths) := by
  induction paths with
  | nil => exact .pure _
  | cons path rest ih =>
      refine .bind .evaluateIdleState fun idle => .ite (.pure _) ?_
      refine .bind (getDirectoryChildren path) fun children => ?_
      split
      · exact ih
      · exact .bind (.enter path) fun _ => .bind (sweepChildren depth path _) fun _ =>
          .bind (.leave path true) fun _ => ih

theorem runSystemMaintenanceSweeps (depth : Nat) :
    Assembled env (FreshCore.runSystemMaintenanceSweeps env depth) :=
  .bind (nativeFstrim _) fun _ => .bind (nativeFstrim _) fun _ =>
    .bind (sweepPaths depth pathsToSweep) fun _ => .note trivial

theorem maintainCaches (depth : Nat) : Assembled env (FreshCore.maintainCaches env depth) := by
  refine .bind .isScreenOn fun on => .ite (.pure _) ?_
  refine .bind (.sense _) fun packages => .bind (scanPackages packages) fun dirs => ?_
  split
  · exact .pure _
  · exact .bind (analyzeCaches depth _) fun _ => cleanTargets depth _

theorem performMaintenance (depth : Nat) :
    Assembled env (FreshCore.performMaintenance env depth) := by
  refine .bind (.note trivial) fun _ => .bind (runSystemMaintenanceSweeps depth) fun _ => ?_
  refine .bind (maintainCaches depth) fun finished => .ite ?_ (.transitionTo _)
  exact .bind (.note trivial) fun _ => .transitionTo _

theorem evaluateAndTransition (depth : Nat) :
    Assembled env (FreshCore.evaluateAndTransition env depth) := by
  refine .process (fun p q halike => by rw [halike.engine]) fun process => ?_
  refine .bind .evaluateIdleState fun idle => .ite (.ite ?_ (.pure _)) ?_
  · exact .bind (.note trivial) fun _ => .transitionTo _
  · unfold advance
    cases process.engine with
    | screenOff => exact .ite (.transitionTo _) (.pure _)
    | deepIdle => exact .bind (.transitionTo _) fun _ => performMaintenance depth
    | maintenance => exact .pure _
    | boot | active | idleCandidate | aborting | errorBackoff => exact .transitionTo _

end Assembled

/-! ## Assertions about the checks -/

/-- Time went on, and nothing happened that has to do with the checks. -/
structure Unchecked (w w' : World) : Prop where
  checks : w'.checks = w.checks
  screenOffTime : w'.process.screenOffTime = w.process.screenOffTime
  config : w'.process.config = w.process.config
  tick : w.tick ≤ w'.tick

theorem unchecked_interfere (env : Env) (w : World) : Unchecked w (w.interfere env) := by
  unfold World.interfere
  split
  · exact ⟨rfl, rfl, rfl, Nat.le_refl _⟩
  · exact ⟨rfl, rfl, rfl, Nat.le_refl _⟩

theorem Unchecked.next {w w' : World} (h : Unchecked w w') : Unchecked w w'.next :=
  ⟨h.checks, h.screenOffTime, h.config, Nat.le_succ_of_le h.tick⟩

theorem Unchecked.record {w w' : World} (h : Unchecked w w') (event : Event) :
    Unchecked w (w'.record event) :=
  ⟨h.checks, h.screenOffTime, h.config, h.tick⟩

theorem lstat_unchecked (env : Env) (path : Bytes) (w : World) :
    Unchecked w ((lstat env path).run w).2 := by
  have hcall := unchecked_interfere env w
  unfold lstat
  dsimp only
  split
  · exact hcall.next
  · split
    · exact (hcall.record _).next
    · exact hcall.next

theorem listDirectory_unchecked (env : Env) (path : Bytes) (w : World) :
    Unchecked w ((listDirectory env path).run w).2 := by
  have hcall := unchecked_interfere env w
  unfold listDirectory
  dsimp only
  split
  · exact hcall.next
  · split
    · exact hcall.next
    · split
      · exact (hcall.record _).next
      · exact hcall.next

theorem removeEntry_unchecked (env : Env) (remove : FileSystem → Loc → Option FileSystem)
    (path : Bytes) (w : World) : Unchecked w ((removeEntry env remove path).run w).2 := by
  have hcall := unchecked_interfere env w
  unfold removeEntry
  dsimp only
  split
  · exact hcall.next
  · split
    · split
      · exact (hcall.record _).next
      · exact ⟨hcall.checks, hcall.screenOffTime, hcall.config, Nat.le_succ_of_le hcall.tick⟩
    · exact hcall.next

theorem saveStateAtomic_unchecked (env : Env) (w : World) :
    Unchecked w ((saveStateAtomic env).run w).2 := by
  unfold saveStateAtomic
  dsimp only
  split
  · exact ⟨rfl, rfl, rfl, Nat.le_succ _⟩
  · exact ⟨rfl, rfl, rfl, Nat.le_succ _⟩

theorem transitionTo_unchecked (newState : EngineState) (w : World) :
    Unchecked w ((transitionTo newState).run w).2 := by
  rw [transitionTo_run]
  dsimp only
  split
  · exact ⟨rfl, rfl, rfl, Nat.le_refl _⟩
  · exact ⟨rfl, rfl, rfl, Nat.le_refl _⟩

theorem endBatch_unchecked (env : Env) (filesProcessed : Int) (bytesFreed : UInt64) (w : World) :
    Unchecked w ((endBatch env filesProcessed bytesFreed).run w).2 := by
  obtain ⟨tick, slow, proceed, hrun, _, _, htick⟩ :=
    endBatch_run env filesProcessed bytesFreed w
  rw [hrun]
  exact ⟨rfl, rfl, rfl, Nat.le_of_lt htick⟩

/-- An assertion that the checks keep, and that holds on while there are none, is kept by all
code put together from the pieces. -/
theorem Assembled.triple {env : Env} {I : World → Prop}
    (hrest : ∀ w w', I w → Unchecked w w' → I w')
    (hscreen : ∀ w, I w → I ((FreshCore.isScreenOn env).run w).2)
    (hidle : ∀ w, I w → I ((FreshCore.evaluateIdleState env).run w).2) {α : Type} {x : Daemon α}
    (h : Assembled env x) : Program.Triple I x (fun _ => I) I := by
  have hquiet {β : Type} {y : Daemon β} (hy : ∀ w, Unchecked w (y.run w).2) :
      Program.Triple I y (fun _ => I) I := .of_state fun w hw => hrest w _ hw (hy w)
  induction h with
  | pure a => exact .pure fun _ hw => hw
  | cut => exact .cut fun _ hw => hw
  | bind _ _ ihx ihf => exact .bind ihx ihf
  | process _ _ ihf => exact .bind (M := fun _ => I) (.inspect fun _ hw => hw) ihf
  | sense read => exact hquiet fun w => ⟨rfl, rfl, rfl, Nat.le_succ _⟩
  | note _ => exact hquiet fun w => ⟨rfl, rfl, rfl, Nat.le_refl _⟩
  | lstat path => exact hquiet (lstat_unchecked env path)
  | realpath path => exact hquiet fun w => (unchecked_interfere env w).next
  | listDirectory path => exact hquiet (listDirectory_unchecked env path)
  | removeEntry remove path => exact hquiet (removeEntry_unchecked env remove path)
  | enter path => exact hquiet fun w => ⟨rfl, rfl, rfl, Nat.le_refl _⟩
  | leave path completed => exact hquiet fun w => ⟨rfl, rfl, rfl, Nat.le_refl _⟩
  | save => exact hquiet (saveStateAtomic_unchecked env)
  | setStates change => exact hquiet fun w => ⟨rfl, rfl, rfl, Nat.le_refl _⟩
  | transitionTo newState => exact hquiet (transitionTo_unchecked newState)
  | isScreenOn => exact .of_state hscreen
  | evaluateIdleState => exact .of_state hidle
  | startBatch => exact hquiet fun w => ⟨rfl, rfl, rfl, Nat.le_succ _⟩
  | endBatch filesProcessed bytesFreed =>
      exact hquiet (endBatch_unchecked env filesProcessed bytesFreed)

end FreshCore
