import Mathlib.Data.List.TakeWhile
import FreshCore.Core.EngineRuns
import FreshCore.Core.Invariants

/-!
# Waking up during maintenance

Each removal loop checks the device before each child, and passes an interruption
on by its result. Nothing remembers the interruption where that result is dropped,
so removal stops for good only if every later check still finds the device awake
and there is no directory without a child to check for.
-/

namespace FreshCore

open Posix Imperative Config Device Cache

/-- A check found the screen on. -/
def Event.reportsAwake : Event → Bool
  | screen on => on
  | idle state => state = .notIdle
  | _ => false

/-- A check found the screen off. -/
def Event.reportsAsleep : Event → Bool
  | screen on => !on
  | idle state => state ≠ .notIdle
  | _ => false

/-- A directory without entries was listed. -/
def Event.isEmptyListing : Event → Bool
  | listed _ (some []) => true
  | _ => false

/-- Something was removed, or the device was forced into Doze. -/
def Event.isIntrusive : Event → Bool
  | removed _ _ => true
  | doze command => command = .optimizeDoze
  | _ => false

/-- What happened from the first report on that the device is awake. -/
def afterWake (events : List Event) : List Event :=
  events.dropWhile fun event => !event.reportsAwake

/-- After the device woke up, a check found the screen off or a directory was found empty. -/
def LosesWake (events : List Event) : Prop :=
  ∃ event ∈ afterWake events, event.reportsAsleep = true ∨ event.isEmptyListing = true

/-- Nothing intrusive happened after the device woke up. -/
def StopsAtWake (events : List Event) : Prop :=
  ∀ event ∈ afterWake events, event.isIntrusive = false

instance (events : List Event) : Decidable (LosesWake events) := by
  unfold LosesWake
  infer_instance

instance (events : List Event) : Decidable (StopsAtWake events) := by
  unfold StopsAtWake
  infer_instance

theorem afterWake_append_of_ne_nil {events : List Event} (hne : afterWake events ≠ [])
    (new : List Event) : afterWake (events ++ new) = afterWake events ++ new := by
  rw [afterWake, List.dropWhile_append, if_neg]
  · rfl
  · simpa [afterWake] using hne

theorem afterWake_append_of_eq_nil {events : List Event} (hnil : afterWake events = [])
    (new : List Event) : afterWake (events ++ new) = afterWake new := by
  rw [afterWake, List.dropWhile_append, if_pos]
  · rfl
  · rw [← afterWake, hnil]
    rfl

theorem afterWake_eq_nil {events : List Event}
    (hevents : ∀ event ∈ events, event.reportsAwake = false) : afterWake events = [] :=
  List.dropWhile_eq_nil_iff.mpr fun event hevent => by rw [hevents event hevent]; rfl

theorem afterWake_subset {events : List Event} {event : Event}
    (hevent : event ∈ afterWake events) : event ∈ events :=
  (List.dropWhile_sublist _).mem hevent

theorem LosesWake.append {events : List Event} (h : LosesWake events) (new : List Event) :
    LosesWake (events ++ new) := by
  obtain ⟨event, hevent, hloses⟩ := h
  refine ⟨event, ?_, hloses⟩
  rw [afterWake_append_of_ne_nil (List.ne_nil_of_mem hevent)]
  exact List.mem_append_left new hevent

theorem StopsAtWake.append {events new : List Event} (h : StopsAtWake events)
    (hnew : ∀ event ∈ new, event.isIntrusive = false) : StopsAtWake (events ++ new) := by
  intro event hevent
  by_cases hnil : afterWake events = []
  · rw [afterWake_append_of_eq_nil hnil] at hevent
    exact hnew event (afterWake_subset hevent)
  · rw [afterWake_append_of_ne_nil hnil] at hevent
    rcases List.mem_append.mp hevent with hmem | hmem
    · exact h event hmem
    · exact hnew event hmem

/-- Something that shows the wake to be lost, reported to a device that is awake. -/
theorem LosesWake.of_mem {events new : List Event} (hawake : afterWake events ≠ [])
    {event : Event} (hevent : event ∈ new)
    (hloses : event.reportsAsleep = true ∨ event.isEmptyListing = true) :
    LosesWake (events ++ new) := by
  refine ⟨event, ?_, hloses⟩
  rw [afterWake_append_of_ne_nil hawake]
  exact List.mem_append_right _ hevent

/-! ## Two assertions about the log -/

/-- From the entry `mark` on: the wake was lost, or nothing intrusive has followed it. -/
def WakeSafe (mark : Nat) (w : World) : Prop :=
  mark ≤ w.log.length ∧ (LosesWake (w.log.drop mark) ∨ StopsAtWake (w.log.drop mark))

/-- From the entry `mark` on: the wake was lost, or the device has not been awake. -/
def Asleep (mark : Nat) (w : World) : Prop :=
  mark ≤ w.log.length ∧ (LosesWake (w.log.drop mark) ∨ afterWake (w.log.drop mark) = [])

variable {mark : Nat} {w w' : World}

theorem Asleep.wakeSafe (h : Asleep mark w) : WakeSafe mark w := by
  refine ⟨h.1, h.2.imp_right fun hnil event hevent => ?_⟩
  rw [hnil] at hevent
  cases hevent

/-- Logs nothing intrusive. -/
abbrev harmless : Scope := .logging fun event => event.isIntrusive = false

/-- Makes no check that could find the device awake. -/
abbrev uncheckedScope : Scope := .logging fun event => event.reportsAwake = false

/-- Does neither. -/
abbrev bookkeeping : Scope :=
  .logging fun event => event.isIntrusive = false ∧ event.reportsAwake = false

theorem WakeSafe.reaches (h : WakeSafe mark w) (hreach : harmless.Reaches w w') :
    WakeSafe mark w' := by
  obtain ⟨hmark, new, hsince, hnew⟩ := hreach.since h.1
  refine ⟨hmark, ?_⟩
  rw [hsince]
  rcases h.2 with hloses | hstops
  · exact Or.inl (hloses.append new)
  · refine Or.inr (hstops.append fun event hevent => ?_)
    rcases hnew event hevent with hallowed | hambient
    · exact hallowed
    · cases event <;> first | rfl | cases hambient

theorem Asleep.reaches (h : Asleep mark w) (hreach : uncheckedScope.Reaches w w') :
    Asleep mark w' := by
  obtain ⟨hmark, new, hsince, hnew⟩ := hreach.since h.1
  refine ⟨hmark, ?_⟩
  rw [hsince]
  rcases h.2 with hloses | hnil
  · exact Or.inl (hloses.append new)
  · right
    rw [afterWake_append_of_eq_nil hnil]
    apply afterWake_eq_nil
    intro event hevent
    rcases hnew event hevent with hallowed | hambient
    · exact hallowed
    · cases event <;> first | rfl | cases hambient

theorem idleScope_sub_harmless : idleScope.Sub harmless :=
  Scope.sub_logging fun event hevent => by cases event <;> first | rfl | exact hevent.elim

theorem listScope_sub_unchecked : listScope.Sub uncheckedScope :=
  Scope.sub_logging fun event hevent => by cases event <;> first | rfl | exact hevent.elim

theorem batchScope_sub_unchecked : batchScope.Sub uncheckedScope :=
  Scope.sub_logging fun event hevent => by cases event <;> first | rfl | exact hevent.elim

theorem batchScope_sub_bookkeeping : batchScope.Sub bookkeeping :=
  Scope.sub_logging fun event hevent => by
    cases event <;> first | exact ⟨rfl, rfl⟩ | exact hevent.elim

theorem analysisScope_sub_unchecked : analysisScope.Sub uncheckedScope :=
  Scope.sub_logging fun event hevent => by cases event <;> first | rfl | exact hevent.elim

section Parts

variable {env : Env} {depth : Nat}

/-- What is harmless keeps the first assertion. -/
theorem wakeSafe_within (env : Env) {α : Type} {x : Daemon α} (hwithin : Within env harmless x) :
    Program.Triple (WakeSafe mark) x (fun _ => WakeSafe mark) (WakeSafe mark) :=
  hwithin.triple fun _ _ hw hreach => hw.reaches hreach

/-- What makes no check keeps the second one. -/
theorem asleep_within (env : Env) {α : Type} {x : Daemon α}
    (hwithin : Within env uncheckedScope x) :
    Program.Triple (Asleep mark) x (fun _ => Asleep mark) (WakeSafe mark) :=
  (hwithin.triple fun _ _ hw hreach => hw.reaches hreach).mono (fun _ h => h) (fun _ _ h => h)
    fun _ h => h.wakeSafe

/-- Bookkeeping keeps both. -/
theorem wakeSafe_book (env : Env) {p : Prop} {α : Type} {x : Daemon α}
    (hwithin : Within env bookkeeping x) :
    Program.Triple (fun w => WakeSafe mark w ∧ (p → Asleep mark w)) x
      (fun _ w => WakeSafe mark w ∧ (p → Asleep mark w)) (WakeSafe mark) := by
  have hharmless : bookkeeping.Sub harmless := Scope.sub_logging fun event hevent => hevent.1
  have hunchecked : bookkeeping.Sub uncheckedScope :=
    Scope.sub_logging fun event hevent => hevent.2
  refine (Program.Built.triple (I := fun w => WakeSafe mark w ∧ (p → Asleep mark w))
    (fun _ haction w hw => ?_) hwithin).mono (fun _ h => h) (fun _ _ h => h) fun _ h => h.1
  exact ⟨hw.1.reaches ((haction.mono hharmless).reaches w),
    fun hp => (hw.2 hp).reaches ((haction.mono hunchecked).reaches w)⟩

/-- A check whose verdict is that the device is idle. -/
theorem asleep_checked {checks : List Event} {verdict : IdleState} (h : WakeSafe mark w)
    (hchecks : ScreenChecks verdict checks)
    (hlog : w'.log = w.log ++ (checks ++ [.idle verdict])) (hverdict : verdict ≠ .notIdle) :
    Asleep mark w' := by
  have hsince : w'.log.drop mark = w.log.drop mark ++ (checks ++ [.idle verdict]) := by
    rw [hlog, List.drop_append_of_le_length h.1]
  have hidle : (Event.idle verdict).reportsAsleep = true := by
    simp [Event.reportsAsleep, hverdict]
  refine ⟨?_, ?_⟩
  · rw [hlog, List.length_append]
    exact Nat.le_add_right_of_le h.1
  rw [hsince]
  by_cases hnil : afterWake (w.log.drop mark) = []
  swap
  · exact Or.inl (.of_mem hnil (by simp) (Or.inl hidle))
  rw [afterWake_append_of_eq_nil hnil]
  rcases hchecks with ⟨hnot, _⟩ | ⟨_, rfl | ⟨on, rfl⟩⟩
  · exact absurd hnot hverdict
  · right
    simp [afterWake, Event.reportsAwake, hverdict]
  · cases on with
    | false =>
        right
        simp [afterWake, Event.reportsAwake, hverdict]
    | true =>
        -- the foreground check saw the screen on, and the verdict does not say so
        refine Or.inl ⟨.idle verdict, ?_, Or.inl hidle⟩
        rw [afterWake_append_of_eq_nil hnil]
        simp [afterWake, Event.reportsAwake]

theorem isScreenOn_wakeSafe : Program.Triple (WakeSafe mark) (isScreenOn env)
    (fun on w => WakeSafe mark w ∧ (on = false → Asleep mark w)) (WakeSafe mark) := by
  intro w hw
  have hrun := isScreenOn_run env w
  have hsafe := wakeSafe_within env (isScreenOn_within env idleScope_sub_harmless) w hw
  rw [hrun] at hsafe ⊢
  refine ⟨hsafe, fun hoff => ⟨hsafe.1, ?_⟩⟩
  rw [List.drop_append_of_le_length hw.1, hoff]
  by_cases hnil : afterWake (w.log.drop mark) = []
  · right
    rw [afterWake_append_of_eq_nil hnil]
    rfl
  · have hasleep : (Event.screen false).reportsAsleep = true := rfl
    exact Or.inl (.of_mem hnil (List.mem_singleton_self _) (Or.inl hasleep))

theorem evaluateIdleState_wakeSafe : Program.Triple (WakeSafe mark) (evaluateIdleState env)
    (fun verdict w => WakeSafe mark w ∧ (verdict ≠ .notIdle → Asleep mark w))
    (WakeSafe mark) := by
  intro w hw
  obtain ⟨tick, made, hrun, hchecks, _⟩ := evaluateIdleState_run env w
  have hsafe := wakeSafe_within env (evaluateIdleState_within env idleScope_sub_harmless) w hw
  rw [hrun] at hsafe ⊢
  exact ⟨hsafe, asleep_checked hw hchecks rfl⟩

/-- An empty directory is listed only while the device has not been awake, or the wake is
lost. -/
theorem getDirectoryChildren_wakeSafe (dirPath : Bytes) :
    Program.Triple (WakeSafe mark) (getDirectoryChildren env dirPath)
      (fun children w => WakeSafe mark w ∧ (children = some [] → Asleep mark w))
      (WakeSafe mark) := by
  unfold getDirectoryChildren
  refine .bind (wakeSafe_within env (.prim (.listDirectory dirPath))) fun entries => ?_
  generalize entries.map _ = names
  refine .bind (M := fun _ w => WakeSafe mark w ∧ (names = some [] → Asleep mark w))
    (.update fun w hw => ?_) fun _ => .pure fun _ h => h
  have hsafe : WakeSafe mark (w.record (.listed dirPath names)) :=
    hw.reaches (.event rfl rfl (Or.inl rfl))
  refine ⟨hsafe, fun hempty => ⟨hsafe.1, ?_⟩⟩
  subst hempty
  rw [World.record, List.drop_append_of_le_length hw.1]
  by_cases hnil : afterWake (w.log.drop mark) = []
  · right
    rw [afterWake_append_of_eq_nil hnil]
    rfl
  · exact Or.inl (.of_mem hnil (List.mem_singleton_self _) (Or.inr rfl))

/-! ## The removal loops -/

theorem safeRemove_asleep (path : Bytes) :
    Program.Triple (Asleep mark) (safeRemove env path) (fun _ => Asleep mark)
      (WakeSafe mark) :=
  asleep_within env (safeRemove_within env (fun _ _ => rfl) path)

/-- What a removal owes: it does not go on after a wake, and comes to its end only if
there was none. -/
abbrev StopsTriple (mark : Nat) (P : World → Prop) (x : Daemon Bool) : Prop :=
  Program.Triple P x (fun completed w => WakeSafe mark w ∧ (completed = true → Asleep mark w))
    (WakeSafe mark)

theorem removeChild_stops {recurse : Bytes → Daemon Bool}
    (hrecurse : ∀ path, StopsTriple mark (WakeSafe mark) (recurse path)) (childPath : Bytes)
    (filesRemoved : Int) (bytesFreed : UInt64) :
    Program.Triple (Asleep mark) (removeChild env recurse childPath filesRemoved bytesFreed)
      (fun counts w => WakeSafe mark w ∧ (counts ≠ none → Asleep mark w)) (WakeSafe mark) := by
  unfold removeChild
  refine .bind (asleep_within env (.prim (.lstat childPath))) fun node => ?_
  cases node with
  | none => exact .pure fun w hw => ⟨hw.wakeSafe, fun _ => hw⟩
  | some node =>
      refine .ite (fun _ => ?_) fun _ => ?_
      · refine .bind ((hrecurse childPath).strengthen fun w hw => hw.wakeSafe)
          fun completed => .ite (fun hdone => ?_) fun _ => ?_
        · exact .pure fun w hw => ⟨hw.1, fun _ => hw.2 hdone⟩
        · exact .pure fun w hw => ⟨hw.1, fun hne => absurd rfl hne⟩
      · refine .bind (safeRemove_asleep childPath) fun removed => ?_
        exact .ite (fun _ => .pure fun w hw => ⟨hw.wakeSafe, fun _ => hw⟩)
          fun _ => .pure fun w hw => ⟨hw.wakeSafe, fun _ => hw⟩

/-- Without children there is no check, so the loop has to start with the device asleep. -/
theorem removeChildren_stops {recurse : Bytes → Daemon Bool}
    (hrecurse : ∀ path, StopsTriple mark (WakeSafe mark) (recurse path)) (path : Bytes)
    (names : List Name) (filesRemoved : Int) (bytesFreed : UInt64) :
    Program.Triple (fun w => WakeSafe mark w ∧ (names = [] → Asleep mark w))
      (removeChildren env recurse path names filesRemoved bytesFreed)
      (fun counts w => WakeSafe mark w ∧ (counts ≠ none → Asleep mark w)) (WakeSafe mark) := by
  induction names generalizing filesRemoved bytesFreed with
  | nil => exact .pure fun w hw => ⟨hw.1, fun _ => hw.2 rfl⟩
  | cons name rest ih =>
      have hnext (filesRemoved : Int) (bytesFreed : UInt64) :
          Program.Triple (Asleep mark)
            (removeChildren env recurse path rest filesRemoved bytesFreed)
            (fun counts w => WakeSafe mark w ∧ (counts ≠ none → Asleep mark w))
            (WakeSafe mark) :=
        (ih filesRemoved bytesFreed).strengthen fun w hw => ⟨hw.wakeSafe, fun _ => hw⟩
      unfold removeChildren
      refine .bind (evaluateIdleState_wakeSafe.strengthen fun w hw => hw.1)
        fun verdict => .ite (fun _ => ?_) fun hidle => ?_
      · exact .pure fun w hw => ⟨hw.1, fun hne => absurd rfl hne⟩
      refine .bind ((removeChild_stops hrecurse _ _ _).strengthen fun w hw => hw.2 hidle)
        fun counts => ?_
      cases counts with
      | none => exact .pure fun w hw => ⟨hw.1, fun hne => absurd rfl hne⟩
      | some counts =>
          refine .bind ((asleep_within env (.prim .getProcess)).strengthen
            fun w hw => hw.2 nofun) fun process => ?_
          refine .ite (fun _ => ?_) fun _ => hnext _ _
          refine .bind (asleep_within env (endBatch_within env batchScope_sub_unchecked _ _))
            fun proceed => .ite (fun _ => ?_) fun _ => ?_
          · exact .pure fun w hw => ⟨hw.wakeSafe, fun hne => absurd rfl hne⟩
          · exact .bind (asleep_within env (startBatch_within env batchScope_sub_unchecked))
              fun _ => hnext 0 0

theorem removeRecursiveBatched_stops (path : Bytes) :
    StopsTriple mark (WakeSafe mark) (removeRecursiveBatched env depth path) := by
  induction depth generalizing path with
  | zero => exact .cut fun w hw => hw
  | succ depth ih =>
      unfold removeRecursiveBatched
      refine .bind (getDirectoryChildren_wakeSafe path) fun children => ?_
      cases children with
      | none => exact .pure fun w hw => ⟨hw.1, nofun⟩
      | some children =>
          have hstart : children = [] → some children = some [] := congrArg some
          refine .bind ((wakeSafe_book env (.prim (.enter ⟨rfl, rfl⟩))).strengthen
            fun w hw => ⟨hw.1, fun hnil => hw.2 (hstart hnil)⟩) fun _ => ?_
          refine .bind (wakeSafe_book env (startBatch_within env batchScope_sub_bookkeeping))
            fun _ => ?_
          refine .bind (removeChildren_stops ih path children 0 0) fun counts => ?_
          cases counts with
          | none =>
              refine .bind (wakeSafe_book env (.prim (.leave ⟨rfl, rfl⟩)))
                fun _ => .pure fun w hw => ⟨hw.1, nofun⟩
          | some counts =>
              refine .bind ((asleep_within env
                (endBatch_within env batchScope_sub_unchecked _ _)).strengthen
                fun w hw => hw.2 nofun) fun _ => ?_
              refine .bind (asleep_within env (.prim (.leave rfl))) fun _ => ?_
              exact .bind (safeRemove_asleep path) fun _ =>
                .pure fun w hw => ⟨hw.wakeSafe, fun _ => hw⟩

theorem cleanChildren_stops (path : Bytes) (names : List Name) :
    StopsTriple mark (Asleep mark) (cleanChildren env depth path names) := by
  induction names with
  | nil => exact .pure fun w hw => ⟨hw.wakeSafe, fun _ => hw⟩
  | cons name rest ih =>
      unfold cleanChildren
      refine .bind ((removeRecursiveBatched_stops _).strengthen fun w hw => hw.wakeSafe)
        fun completed => .ite (fun _ => ?_) fun hdone => ?_
      · exact .pure fun w hw => ⟨hw.1, nofun⟩
      · exact ih.strengthen fun w hw => hw.2 (by simpa using hdone)

theorem cleanDirectorySafely_stops (targetDir : CacheDirInfo) :
    StopsTriple mark (Asleep mark) (cleanDirectorySafely env depth targetDir) := by
  unfold cleanDirectorySafely
  refine .bind (asleep_within env
    (getDirectoryChildren_within env listScope_sub_unchecked targetDir.path)) fun children => ?_
  cases children with
  | none => exact .pure fun w hw => ⟨hw.wakeSafe, fun _ => hw⟩
  | some children =>
      refine .bind (asleep_within env (.prim (.enter rfl))) fun _ => ?_
      refine .bind (cleanChildren_stops targetDir.path children) fun completed => ?_
      refine .bind (wakeSafe_book env (.prim (.leave ⟨rfl, rfl⟩))) fun _ => ?_
      refine .ite (fun _ => .pure fun w hw => ⟨hw.1, nofun⟩) fun hdone => ?_
      have hdone' : completed = true := by simpa using hdone
      refine .bind ((asleep_within env (.prim .getProcess)).strengthen
        fun w hw => hw.2 hdone') fun process => ?_
      refine (asleep_within env ?_).weaken fun completed w hw => ⟨hw.wakeSafe, fun _ => hw⟩
      refine .bind (.prim (.sense _)) fun now => ?_
      refine .bind (.prim (.setProcess trivial)) fun _ => ?_
      refine .bind (.prim (.note rfl)) fun _ => ?_
      exact .bind (.prim (.save fun _ => rfl)) fun _ => .pure _

/-! ## Sweeps and maintenance -/

theorem trimScope_sub_harmless : trimScope.Sub harmless :=
  Scope.sub_logging fun event hevent => by cases event <;> first | rfl | exact hevent.elim

/-- Sweeps drop what the removals return, so they only owe the first assertion. -/
theorem runSystemMaintenanceSweeps_wakeSafe :
    Program.Triple (WakeSafe mark) (runSystemMaintenanceSweeps env depth)
      (fun _ => WakeSafe mark) (WakeSafe mark) := by
  apply runSystemMaintenanceSweeps_kept
  · intro path
    exact (removeRecursiveBatched_stops path).weaken fun _ w hw => hw.1
  · intro w w' hw hreach
    exact hw.reaches (hreach.mono trimScope_sub_harmless)
  · intro path
    exact (getDirectoryChildren_wakeSafe path).weaken fun _ w hw => hw.1
  · intro path
    exact wakeSafe_within env (.prim (.enter rfl))
  · intro path
    exact wakeSafe_within env (.prim (.leave rfl))

theorem scanPackages_stops (packages : List PackageInfo) :
    Program.Triple (Asleep mark) (scanPackages env packages)
      (fun dirs w => WakeSafe mark w ∧ (dirs ≠ none → Asleep mark w)) (WakeSafe mark) := by
  induction packages with
  | nil => exact .pure fun w hw => ⟨hw.wakeSafe, fun _ => hw⟩
  | cons pkg rest ih =>
      unfold scanPackages
      refine .bind (isScreenOn_wakeSafe.strengthen fun w hw => hw.wakeSafe)
        fun on => .ite (fun _ => ?_) fun hoff => ?_
      · exact .pure fun w hw => ⟨hw.1, fun hne => absurd rfl hne⟩
      have hoff' : on = false := by simpa using hoff
      refine .bind ((asleep_within env (scanPackageCache_within env pkg)).strengthen
        fun w hw => hw.2 hoff') fun pkgCaches => ?_
      refine .bind ih fun others => .pure fun w hw => ⟨hw.1, fun hne => hw.2 ?_⟩
      rintro rfl
      exact hne rfl

theorem cleanTargets_stops (targets : List MaintenanceTarget) :
    StopsTriple mark (Asleep mark) (cleanTargets env depth targets) := by
  induction targets with
  | nil => exact .pure fun w hw => ⟨hw.wakeSafe, fun _ => hw⟩
  | cons target rest ih =>
      unfold cleanTargets
      refine .bind (evaluateIdleState_wakeSafe.strengthen fun w hw => hw.wakeSafe)
        fun verdict => .ite (fun _ => ?_) fun hidle => ?_
      · exact .pure fun w hw => ⟨hw.1, fun hdone => absurd hdone Bool.false_ne_true⟩
      refine .bind ((cleanDirectorySafely_stops target.cacheDir).strengthen
        fun w hw => hw.2 hidle) fun completed => .ite (fun _ => ?_) fun hdone => ?_
      · exact .pure fun w hw => ⟨hw.1, fun hdone => absurd hdone Bool.false_ne_true⟩
      · exact ih.strengthen fun w hw => hw.2 (by simpa using hdone)

theorem maintainCaches_stops :
    StopsTriple mark (WakeSafe mark) (maintainCaches env depth) := by
  unfold maintainCaches
  refine .bind isScreenOn_wakeSafe fun on => .ite (fun _ => ?_) fun hoff => ?_
  · exact .pure fun w hw => ⟨hw.1, nofun⟩
  have hoff' : on = false := by simpa using hoff
  refine .bind ((asleep_within env (.prim (.sense _))).strengthen
    fun w hw => hw.2 hoff') fun packages => ?_
  refine .bind (scanPackages_stops packages) fun dirs => ?_
  cases dirs with
  | none => exact .pure fun w hw => ⟨hw.1, nofun⟩
  | some dirs =>
      refine .bind ((asleep_within env
        (analyzeCaches_within env depth analysisScope_sub_unchecked dirs)).strengthen
        fun w hw => hw.2 nofun) fun analysis => ?_
      exact cleanTargets_stops analysis.2

theorem transitionTo_wakeSafe (newState : EngineState) :
    Program.Triple (WakeSafe mark) (transitionTo newState) (fun _ => WakeSafe mark)
      (WakeSafe mark) := by
  refine wakeSafe_within restingDevice (.bind (.prim .getProcess) fun process => ?_)
  split
  · exact .bind (.prim (.setProcess trivial)) fun _ => .prim (.note rfl)
  · exact .pure _

theorem performMaintenance_wakeSafe :
    Program.Triple (WakeSafe mark) (performMaintenance env depth) (fun _ => WakeSafe mark)
      (WakeSafe mark) := by
  unfold performMaintenance
  refine .bind (wakeSafe_within env (.prim (.note rfl))) fun _ => ?_
  refine .bind runSystemMaintenanceSweeps_wakeSafe fun _ => ?_
  refine .bind maintainCaches_stops fun finished => .ite (fun hdone => ?_) fun _ => ?_
  · have hdoze : Within env uncheckedScope optimizeDoze := .prim (.note rfl)
    refine .bind ((asleep_within env hdoze).strengthen fun w hw => hw.2 hdone) fun _ => ?_
    exact (transitionTo_wakeSafe _).strengthen fun w hw => hw.wakeSafe
  · exact (transitionTo_wakeSafe _).strengthen fun w hw => hw.1

end Parts

/-- In a maintenance run that does not lose a wake, nothing is removed and the device is
not forced into Doze once a check has found it awake. -/
theorem performMaintenance_stopsAtWake (env : Env) (depth : Nat) (w : World)
    (hkept : ¬ LosesWake (maintenanceEvents env depth w)) :
    StopsAtWake (maintenanceEvents env depth w) := by
  have hstart : WakeSafe w.log.length w := by
    refine ⟨le_refl _, Or.inr fun event hevent => ?_⟩
    rw [List.drop_length] at hevent
    cases hevent
  have hend : WakeSafe w.log.length ((performMaintenance env depth).run w).2 :=
    (performMaintenance_wakeSafe w hstart).state
  exact hend.2.resolve_left hkept

/-- The screen comes on at the given reading and stays on. -/
def deviceWakingAt (wake : Nat) : Env :=
  { restingDevice with
    screen := fun tick =>
      { brightness := some (if tick < wake then 0 else 128), wakefulness := [] } }

/-- Two crash dumps: a directory with a file in it, and an empty one. -/
def tombstonesWorld : World where
  process.engine := .maintenance
  fs := FsStep.applyAll .bare [
    .mkdir [] (lit "data"),
    .mkdir [lit "data"] (lit "tombstones"),
    .mkdir [lit "data", lit "tombstones"] (lit "a"),
    .create [lit "data", lit "tombstones", lit "a"] (lit "trace") 100,
    .mkdir [lit "data", lit "tombstones"] (lit "b")]

/-- The wake is kept if the screen comes on while `/data` is trimmed. -/
theorem performMaintenance_stopsAtWake_trimming :
    StopsAtWake (maintenanceEvents (deviceWakingAt 3) 3 tombstonesWorld) :=
  performMaintenance_stopsAtWake (deviceWakingAt 3) 3 tombstonesWorld (by decide +kernel)

/-- If it comes on while the first dump is swept, the second one is still removed. -/
theorem performMaintenance_goesOn :
    ¬ StopsAtWake (maintenanceEvents (deviceWakingAt 11) 3 tombstonesWorld) := by
  decide +kernel

end FreshCore
