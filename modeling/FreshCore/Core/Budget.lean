import FreshCore.Core.Assembly
import FreshCore.Core.CleanupCap
import FreshCore.Imperative.History

/-!
# The budget of one run

The totals that `EndBatch` compares with the cap are those of the process. They are never set
back, so what earlier runs removed counts as well. Two runs that differ in nothing else stay
in step as long as no end of a batch finds the one total over the cap and the other not.
-/

namespace FreshCore

open Posix Imperative Config Device Cache

/-! ## Two runs side by side -/

/-- Earlier runs have removed so much more. -/
def Process.addTotals (p : Process) (files : Int32) (bytes : UInt64) : Process :=
  { p with
    totalFilesProcessedRun := p.totalFilesProcessedRun + files
    totalBytesFreedRun := p.totalBytesFreedRun + bytes }

def World.addTotals (w : World) (files : Int32) (bytes : UInt64) : World :=
  { w with process := w.process.addTotals files bytes }

section Fields

variable (w : World) (files : Int32) (bytes : UInt64)

@[simp] theorem World.addTotals_fs : (w.addTotals files bytes).fs = w.fs := rfl

@[simp] theorem World.addTotals_tick : (w.addTotals files bytes).tick = w.tick := rfl

@[simp] theorem World.next_addTotals :
    (w.addTotals files bytes).next = w.next.addTotals files bytes := rfl

@[simp] theorem World.record_addTotals (event : Event) :
    (w.addTotals files bytes).record event = (w.record event).addTotals files bytes := rfl

@[simp] theorem World.addTotals_interfere (env : Env) :
    (w.addTotals files bytes).interfere env = (w.interfere env).addTotals files bytes := by
  unfold interfere
  cases hsteps : env.others w.tick with
  | nil => simp [hsteps]
  | cons step rest => simp [World.addTotals, hsteps]

end Fields

theorem Process.addTotals_alike (p : Process) (files : Int32) (bytes : UInt64) :
    (p.addTotals files bytes).Alike p :=
  ⟨rfl, rfl, rfl⟩

/-- What was handed over, as the total counts it. -/
def handedBytes (events : List Event) : UInt64 := .ofNat (handedOver events)

/-- At each end of a batch, the total that began at `total` is over the cap exactly if the one
that began with so many bytes more is. -/
def SameVerdicts (cap total bytes : UInt64) (events : List Event) : Prop :=
  Throughout (fun front event => ∀ files freed proceed, event = .endBatch files freed proceed →
    (cap < total + (handedBytes front + freed) ↔
      cap < total + bytes + (handedBytes front + freed))) events

theorem handedBytes_append (events new : List Event) :
    handedBytes (events ++ new) = handedBytes events + handedBytes new := by
  simp [handedBytes, handedOver_append]

/-- The run, which began at the entry `mark` with the given total, has handed over what makes
up the total now. -/
structure Counted (mark : Nat) (config : Configuration) (total : UInt64) (w : World) : Prop where
  mark_le : mark ≤ w.log.length
  config_eq : w.process.config = config
  total_eq : w.process.totalBytesFreedRun = total + handedBytes (w.log.drop mark)

/-- Logs no end of a batch, and keeps the configuration and the totals. -/
def uncountedScope : Scope where
  event event := event.IsBetweenBatches
  change f := ∀ p, (f p).config = p.config ∧ (f p).totalBytesFreedRun = p.totalBytesFreedRun

theorem handedBytes_uncounted {new : List Event}
    (hnew : ∀ event ∈ new, uncountedScope.event event ∨ event.isAmbient) :
    handedBytes new = 0 := by
  have hzero : handedOver new = 0 := by
    apply List.sum_eq_zero
    intro bytes hbytes
    obtain ⟨event, hevent, rfl⟩ := List.mem_map.mp hbytes
    rcases hnew event hevent with hbetween | hambient
    · cases event <;> first | rfl | exact hbetween.elim
    · cases event <;> first | rfl | cases hambient
  rw [handedBytes, hzero]
  rfl

variable {mark : Nat} {config : Configuration} {total bytes : UInt64} {files : Int32}

theorem Counted.reaches {w w' : World} (h : Counted mark config total w)
    (hreach : uncountedScope.Reaches w w') : Counted mark config total w' := by
  obtain ⟨hmark, new, hsince, hnew⟩ := hreach.since h.mark_le
  refine ⟨hmark, ?_, ?_⟩
  · exact (hreach.observe fun _ hchange p => (hchange p).1).trans h.config_eq
  · have htotal : w'.process.totalBytesFreedRun = w.process.totalBytesFreedRun :=
      hreach.observe fun _ hchange p => (hchange p).2
    rw [htotal, h.total_eq, hsince, handedBytes_append, handedBytes_uncounted hnew, UInt64.add_zero]

/-- A piece of a run that began at `mark`: it counts what it hands over, and as long as all
verdicts are the same, does the same with the larger total. -/
structure InStep (mark : Nat) (config : Configuration) (total bytes : UInt64) (files : Int32)
    {α : Type} (x : Daemon α) : Prop where
  grows : ∀ w, w.log <+: (x.run w).2.log
  counted : ∀ w, Counted mark config total w → Counted mark config total (x.run w).2
  same : ∀ w, Counted mark config total w →
    SameVerdicts (maxCleanupBytes config) total bytes ((x.run w).2.log.drop mark) →
    x.run (w.addTotals files bytes) = ((x.run w).1, (x.run w).2.addTotals files bytes)

namespace InStep

theorem of_within {env : Env} {α : Type} {x : Daemon α} (hwithin : Within env uncountedScope x)
    (hsame : ∀ w : World,
      x.run (w.addTotals files bytes) = ((x.run w).1, (x.run w).2.addTotals files bytes)) :
    InStep mark config total bytes files x where
  grows w := by
    obtain ⟨new, hlog, _⟩ := (hwithin.reaches w).log
    exact ⟨new, hlog.symm⟩
  counted w hw := hw.reaches (hwithin.reaches w)
  same w _ _ := hsame w

theorem pure {α : Type} (a : α) :
    InStep mark config total bytes files (Pure.pure a : Daemon α) :=
  ⟨fun _ => List.prefix_rfl, fun _ hw => hw, fun _ _ _ => rfl⟩

theorem cut {α : Type} : InStep mark config total bytes files (Program.cut : Daemon α) :=
  ⟨fun _ => List.prefix_rfl, fun _ hw => hw, fun _ _ _ => rfl⟩

theorem bind {α β : Type} {x : Daemon β} {f : β → Daemon α}
    (hx : InStep mark config total bytes files x)
    (hf : ∀ b, InStep mark config total bytes files (f b)) :
    InStep mark config total bytes files (x >>= f) where
  grows w := by
    have hgrows := hx.grows w
    rw [Program.run_bind]
    rcases hrun : x.run w with ⟨_ | b, w'⟩
    · rw [hrun] at hgrows
      exact hgrows
    · rw [hrun] at hgrows
      exact hgrows.trans ((hf b).grows w')
  counted w hw := by
    have hcounted := hx.counted w hw
    rw [Program.run_bind]
    rcases hrun : x.run w with ⟨_ | b, w'⟩
    · rw [hrun] at hcounted
      exact hcounted
    · rw [hrun] at hcounted
      exact (hf b).counted w' hcounted
  same w hw hverdicts := by
    have hcounted := hx.counted w hw
    have hsame := hx.same w hw
    rw [Program.run_bind] at hverdicts ⊢
    rw [Program.run_bind]
    rcases hrun : x.run w with ⟨_ | b, w'⟩
    · rw [hrun] at hverdicts hsame
      rw [hsame hverdicts]
    · rw [hrun] at hverdicts hsame hcounted
      -- the verdicts of the first part are among those of the whole
      have hpart : w'.log.drop mark <+: ((f b).run w').2.log.drop mark :=
        ((hf b).grows w').drop mark
      rw [hsame (Throughout.of_prefix hverdicts hpart)]
      exact (hf b).same w' hcounted hverdicts

theorem process {α : Type} {f : Process → Daemon α}
    (hblind : ∀ p : Process, f (p.addTotals files bytes) = f p)
    (hf : ∀ p, InStep mark config total bytes files (f p)) :
    InStep mark config total bytes files (getProcess >>= f) where
  grows w := (hf w.process).grows w
  counted w hw := (hf w.process).counted w hw
  same w hw hverdicts := by
    have hsame := (hf w.process).same w hw hverdicts
    rw [← hblind] at hsame
    exact hsame.trans (by rw [hblind]; rfl)

theorem ite {α : Type} {c : Prop} [Decidable c] {x y : Daemon α}
    (hx : InStep mark config total bytes files x) (hy : InStep mark config total bytes files y) :
    InStep mark config total bytes files (if c then x else y) := by
  split
  · exact hx
  · exact hy

end InStep

/-! ## The pieces of maintenance -/

theorem idleScope_sub_uncountedScope : idleScope.Sub uncountedScope where
  event event hevent := by cases event <;> first | exact trivial | exact hevent.elim
  change f hf p := by
    obtain ⟨time, htime⟩ := hf p
    rw [htime]
    exact ⟨rfl, rfl⟩

section Pieces

variable {env : Env}

/-- What only looks at the surroundings, or changes what the totals have no part in. -/
theorem InStep.of_action {α : Type} {x : Daemon α} (haction : Action env uncountedScope x)
    (hsame : ∀ w : World,
      x.run (w.addTotals files bytes) = ((x.run w).1, (x.run w).2.addTotals files bytes)) :
    InStep mark config total bytes files x :=
  .of_within (.prim haction) hsame

theorem inStep_sense (env : Env) {α : Type} (read : Nat → α) :
    InStep mark config total bytes files (sense read) := by
  have haction : Action env uncountedScope (sense read) := .sense read
  exact .of_action haction fun _ => rfl

theorem inStep_isScreenOn : InStep mark config total bytes files (isScreenOn env) :=
  .of_within (isScreenOn_within env idleScope_sub_uncountedScope) fun _ => rfl

theorem inStep_checkConditions : InStep mark config total bytes files (checkConditions env) := by
  have hbattery : InStep mark config total bytes files (isBatterySafe env) :=
    .process (fun _ => rfl) fun _ => inStep_sense env _
  have hthermal : InStep mark config total bytes files (isThermalSafe env) :=
    .process (fun _ => rfl) fun _ => inStep_sense env _
  have hforeground : InStep mark config total bytes files (isHeavyForegroundActivity env) :=
    .bind inStep_isScreenOn fun _ => .ite (.pure _) (.bind (inStep_sense env _) fun _ => .pure _)
  refine .bind hbattery fun _ => .ite (.pure _) ?_
  refine .bind hthermal fun _ => .ite (.pure _) ?_
  refine .bind (inStep_sense env _) fun _ => .ite (.pure _) ?_
  exact .bind hforeground fun _ => .ite (.pure _) (.pure _)

theorem inStep_evaluateIdleState :
    InStep mark config total bytes files (evaluateIdleState env) := by
  have htime {change : Process → Process}
      (hchange : ∀ p, ∃ time, change p = { p with screenOffTime := time })
      (hsame : ∀ p : Process, change (p.addTotals files bytes) = (change p).addTotals files bytes) :
      InStep mark config total bytes files (setProcess change) := by
    have haction : Action env uncountedScope (setProcess change) :=
      .setProcess (idleScope_sub_uncountedScope.change _ hchange)
    refine .of_action haction fun w => ?_
    simp only [setProcess, Program.run_update, World.addTotals, hsame]
  have hmoment : InStep mark config total bytes files moment := by
    have haction : Action env uncountedScope moment := .moment
    exact .of_action haction fun _ => rfl
  have hreport (tick : Nat) (verdict : IdleState) :
      InStep mark config total bytes files (report tick (.idle verdict)) := by
    have haction : Action env uncountedScope (report tick (.idle verdict)) := .report trivial
    exact .of_action haction fun _ => rfl
  refine .bind hmoment fun tick => .bind ?_ fun verdict => .bind (hreport _ _) fun _ => .pure _
  refine .bind inStep_isScreenOn fun on => .ite ?_ ?_
  · exact .bind (htime (fun _ => ⟨0, rfl⟩) fun _ => rfl) fun _ => .pure _
  refine .bind (inStep_sense env _) fun now => .bind (htime (fun p => ?_) fun p => ?_) fun _ => ?_
  · split
    · exact ⟨now, rfl⟩
    · exact ⟨p.screenOffTime, rfl⟩
  · unfold Process.addTotals
    dsimp only
    split <;> rfl
  · exact .process (fun _ => rfl) fun p => .ite (.pure _) inStep_checkConditions

/-- The end of a batch does the same if both totals are over the cap after it, or neither. -/
theorem endBatch_addTotals {filesProcessed : Int} {bytesFreed : UInt64} {w : World}
    (hverdict : maxCleanupBytes w.process.config < w.process.totalBytesFreedRun + bytesFreed ↔
      maxCleanupBytes w.process.config < w.process.totalBytesFreedRun + bytes + bytesFreed) :
    (endBatch env filesProcessed bytesFreed).run (w.addTotals files bytes) =
      (((endBatch env filesProcessed bytesFreed).run w).1,
        ((endBatch env filesProcessed bytesFreed).run w).2.addTotals files bytes) := by
  have hfiles : w.process.totalFilesProcessedRun + files + .ofInt filesProcessed =
      w.process.totalFilesProcessedRun + .ofInt filesProcessed + files := by
    rw [Int32.add_assoc, Int32.add_comm files, ← Int32.add_assoc]
  have hbytes : w.process.totalBytesFreedRun + bytes + bytesFreed =
      w.process.totalBytesFreedRun + bytesFreed + bytes := by
    rw [UInt64.add_assoc, UInt64.add_comm bytes, ← UInt64.add_assoc]
  rw [hbytes] at hverdict
  unfold endBatch closeBatch warnSlowBatch checkSelfLimits
  simp only [Program.run_bind, getMonotonicTimeMs, FreshCore.sense, setProcess, getProcess,
    Program.run_update, Program.run_inspect, World.next, World.addTotals, Process.addTotals,
    hfiles, hbytes]
  by_cases hover : maxCleanupBytes w.process.config < w.process.totalBytesFreedRun + bytesFreed
  all_goals
    have hover' := hover
    rw [hverdict] at hover'
    by_cases hslow : maxBatchTimeMs w.process.config <
      (env.monotonic w.tick).ms - w.process.batchStartTimeMs
    all_goals
      simp [hslow, hover, hover', note, World.record, Program.run_bind]

theorem handedBytes_slow {slow : List Event}
    (hslow : ∀ event ∈ slow, ∃ durationMs, event = .slowBatch durationMs) :
    handedBytes slow = 0 := by
  apply handedBytes_uncounted
  intro event hevent
  obtain ⟨durationMs, rfl⟩ := hslow event hevent
  exact Or.inl trivial

theorem handedBytes_endBatch (filesProcessed : Int) (bytesFreed : UInt64) (proceed : Bool) :
    handedBytes [.endBatch filesProcessed bytesFreed proceed] = bytesFreed := by
  simp [handedBytes, handedOver, Event.handedOver]

theorem inStep_endBatch (filesProcessed : Int) (bytesFreed : UInt64) :
    InStep mark config total bytes files (endBatch env filesProcessed bytesFreed) where
  grows w := by
    obtain ⟨tick, slow, proceed, hrun, _⟩ := endBatch_run env filesProcessed bytesFreed w
    rw [hrun]
    exact List.prefix_append _ _
  counted w hw := by
    obtain ⟨tick, slow, proceed, hrun, hslow, _⟩ :=
      endBatch_run env filesProcessed bytesFreed w
    rw [hrun]
    refine ⟨?_, hw.config_eq, ?_⟩
    · rw [List.length_append]
      exact Nat.le_add_right_of_le hw.mark_le
    · dsimp only
      rw [List.drop_append_of_le_length hw.mark_le, handedBytes_append,
        handedBytes_append, handedBytes_slow hslow, handedBytes_endBatch, UInt64.zero_add,
        hw.total_eq, UInt64.add_assoc]
  same w hw hverdicts := by
    apply endBatch_addTotals
    obtain ⟨tick, slow, proceed, hrun, hslow, _⟩ :=
      endBatch_run env filesProcessed bytesFreed w
    rw [hrun] at hverdicts
    dsimp only at hverdicts
    rw [List.drop_append_of_le_length hw.mark_le, ← List.append_assoc] at hverdicts
    have hverdict := (Throughout.concat_iff.mp hverdicts).2 _ _ _ rfl
    rw [handedBytes_append, handedBytes_slow hslow, UInt64.add_zero] at hverdict
    have hplain : w.process.totalBytesFreedRun + bytesFreed =
        total + (handedBytes (w.log.drop mark) + bytesFreed) := by
      rw [hw.total_eq, UInt64.add_assoc]
    have hlarger : w.process.totalBytesFreedRun + bytes + bytesFreed =
        total + bytes + (handedBytes (w.log.drop mark) + bytesFreed) := by
      rw [hw.total_eq]
      ac_rfl
    rw [hw.config_eq, hplain, hlarger]
    exact hverdict

theorem inStep_transitionTo (env : Env) (newState : EngineState) :
    InStep mark config total bytes files (transitionTo newState) := by
  refine .process (fun p => rfl) fun process => .ite ?_ (.pure _)
  have hset : Action env uncountedScope (setProcess fun p => { p with engine := newState }) :=
    .setProcess fun p => ⟨rfl, rfl⟩
  have hnote : Action env uncountedScope (note (.transition newState)) := .note trivial
  exact .bind (.of_action hset fun _ => rfl) fun _ => .of_action hnote fun _ => rfl

theorem listDirectory_addTotals (path : Bytes) (w : World) :
    (listDirectory env path).run (w.addTotals files bytes) =
      (((listDirectory env path).run w).1,
        ((listDirectory env path).run w).2.addTotals files bytes) := by
  unfold listDirectory
  simp only [World.addTotals_interfere]
  generalize w.interfere env = w'
  cases hloc : w'.fs.resolve env.cwd false path with
  | none => simp [hloc]
  | some loc =>
      by_cases hdir : w'.fs.node loc = some .dir
      · cases hfails : env.listFails w'.tick <;> simp [hloc, hdir, hfails]
      · simp [hloc, hdir]

theorem lstat_addTotals (path : Bytes) (w : World) :
    (lstat env path).run (w.addTotals files bytes) =
      (((lstat env path).run w).1, ((lstat env path).run w).2.addTotals files bytes) := by
  unfold lstat
  simp only [World.addTotals_interfere]
  generalize w.interfere env = w'
  cases hnode : w'.fs.lstat env.cwd path with
  | none => simp [hnode]
  | some node => cases hfails : env.lstatFails w'.tick path <;> simp [hnode, hfails]

theorem removeEntry_addTotals (remove : FileSystem → Loc → Option FileSystem) (path : Bytes)
    (w : World) :
    (removeEntry env remove path).run (w.addTotals files bytes) =
      (((removeEntry env remove path).run w).1,
        ((removeEntry env remove path).run w).2.addTotals files bytes) := by
  unfold removeEntry
  simp only [World.addTotals_interfere]
  generalize w.interfere env = w'
  cases hloc : w'.fs.resolve env.cwd false path with
  | none => simp [hloc]
  | some loc =>
      cases hnode : w'.fs.node loc with
      | none => simp [hloc, hnode]
      | some node =>
          cases hremove : remove w'.fs loc with
          | none => simp [hloc, hnode, hremove]
          | some fs =>
              cases hfails : env.removeFails w'.tick with
              | true => simp [hloc, hnode, hremove, hfails]
              | false =>
                  simp only [World.addTotals_fs, World.addTotals_tick, hloc, hnode, hremove,
                    hfails]
                  rfl

/-- Code put together from the pieces stays in step. -/
theorem Assembled.inStep {α : Type} {x : Daemon α} (h : Assembled env x) :
    InStep mark config total bytes files x := by
  induction h with
  | pure a => exact .pure a
  | cut => exact .cut
  | bind _ _ ihx ihf => exact .bind ihx ihf
  | process halike _ ihf =>
      exact .process (fun p => halike _ _ (p.addTotals_alike files bytes)) ihf
  | sense read => exact inStep_sense env read
  | @note event hevent =>
      have haction : Action env uncountedScope (FreshCore.note event) := .note hevent
      exact .of_action haction fun _ => rfl
  | lstat path =>
      refine .of_action (.lstat path) fun w => ?_
      exact lstat_addTotals path w
  | realpath path =>
      refine .of_action (.realpath path) fun w => ?_
      simp [FreshCore.realpath, look]
  | listDirectory path =>
      exact .of_action (.listDirectory path) fun w => listDirectory_addTotals path w
  | removeEntry remove path =>
      refine .of_action (.removeEntry remove path fun _ _ => trivial) fun w => ?_
      exact removeEntry_addTotals remove path w
  | enter path =>
      have haction : Action env uncountedScope (FreshCore.enter path) := .enter trivial
      exact .of_action haction fun _ => rfl
  | leave path completed =>
      have haction : Action env uncountedScope (FreshCore.leave path completed) := .leave trivial
      exact .of_action haction fun _ => rfl
  | save =>
      refine .of_action (.save fun _ => trivial) fun w => ?_
      unfold saveStateAtomic
      dsimp only [World.addTotals, Process.addTotals]
      split <;> rfl
  | setStates change =>
      have haction : Action env uncountedScope
          (setProcess fun p => { p with states := change p.states }) :=
        .setProcess fun p => ⟨rfl, rfl⟩
      exact .of_action haction fun _ => rfl
  | transitionTo newState => exact inStep_transitionTo env newState
  | isScreenOn => exact inStep_isScreenOn
  | evaluateIdleState => exact inStep_evaluateIdleState
  | startBatch =>
      have hset (now : UInt64) : Action env uncountedScope
          (setProcess fun p => { p with batchStartTimeMs := now }) :=
        .setProcess fun p => ⟨rfl, rfl⟩
      exact .bind (inStep_sense env _) fun now => .of_action (hset now) fun _ => rfl
  | endBatch filesProcessed bytesFreed => exact inStep_endBatch filesProcessed bytesFreed

end Pieces

/-! ## Maintenance -/

/-- The entry that was removed. -/
def Event.removal? : Event → Option (Loc × Node)
  | removed loc node => some (loc, node)
  | _ => none

/-- Two runs of maintenance remove the same entries and come to the same end. -/
structure SameMaintenance (env : Env) (depth : Nat) (w w' : World) : Prop where
  removed : (maintenanceEvents env depth w').filterMap Event.removal? =
    (maintenanceEvents env depth w).filterMap Event.removal?
  fs : ((performMaintenance env depth).run w').2.fs = ((performMaintenance env depth).run w).2.fs
  result : ((performMaintenance env depth).run w').1 = ((performMaintenance env depth).run w).1
  engine : ((performMaintenance env depth).run w').2.process.engine =
    ((performMaintenance env depth).run w).2.process.engine

/-- What earlier runs removed makes no difference to a run of maintenance in which no end of a
batch finds the total over the cap with it and not without. -/
theorem performMaintenance_sameBudget (env : Env) (depth : Nat) (w : World) (files : Int32)
    (bytes : UInt64)
    (hverdicts : SameVerdicts (maxCleanupBytes w.process.config) w.process.totalBytesFreedRun bytes
      (maintenanceEvents env depth w)) :
    SameMaintenance env depth w (w.addTotals files bytes) := by
  have hinStep : InStep w.log.length w.process.config w.process.totalBytesFreedRun bytes files
      (performMaintenance env depth) := (Assembled.performMaintenance depth).inStep
  have hstart : Counted w.log.length w.process.config w.process.totalBytesFreedRun w := by
    refine ⟨le_refl _, rfl, ?_⟩
    rw [List.drop_length]
    exact (UInt64.add_zero _).symm
  have hsame := hinStep.same w hstart hverdicts
  have hevents : maintenanceEvents env depth (w.addTotals files bytes) =
      maintenanceEvents env depth w := by
    rw [maintenanceEvents, hsame]
    rfl
  exact ⟨by rw [hevents], by rw [hsame]; rfl, by rw [hsame], by rw [hsame]; rfl⟩

/-- While even the larger total stays within the cap, the verdicts are the same. -/
theorem SameVerdicts.of_within_cap {cap total bytes : UInt64} {events : List Event}
    (hcap : total.toNat + bytes.toNat + handedOver events ≤ cap.toNat) :
    SameVerdicts cap total bytes events := by
  rintro front event ⟨rest, rfl⟩ files freed proceed rfl
  rw [handedOver_append, handedOver_append] at hcap
  have hfreed : handedOver [.endBatch files freed proceed] = freed.toNat := by
    simp [handedOver, Event.handedOver]
  rw [hfreed] at hcap
  have hlt := cap.toNat_lt
  have hhanded : (handedBytes front + freed).toNat = handedOver front + freed.toNat := by
    rw [UInt64.toNat_add, handedBytes, UInt64.toNat_ofNat']
    omega
  have hplain : ¬ cap < total + (handedBytes front + freed) := by
    rw [UInt64.lt_iff_toNat_lt, UInt64.toNat_add, hhanded]
    omega
  have hlarger : ¬ cap < total + bytes + (handedBytes front + freed) := by
    rw [UInt64.lt_iff_toNat_lt, UInt64.toNat_add, UInt64.toNat_add, hhanded]
    omega
  exact ⟨fun h => absurd h hplain, fun h => absurd h hlarger⟩

/-- The app's cache holds three small files in one directory, and a megabyte may be removed. -/
def budgetWorld : World := { oneDirWorld with process.config.maxCleanupMbPerRun := 1 }

/-- What is left of the budget is enough. -/
theorem performMaintenance_sameBudget_small :
    SameMaintenance oneAppDevice 3 budgetWorld (budgetWorld.addTotals 1 1000) :=
  performMaintenance_sameBudget oneAppDevice 3 budgetWorld 1 1000
    (.of_within_cap (by decide +kernel))

/-- Two megabytes that were removed days ago use up the budget for good: the third file stays,
and the run is aborted. -/
theorem performMaintenance_spentBudget :
    ¬ ∀ (env : Env) (depth : Nat) (w : World) (files : Int32) (bytes : UInt64),
      SameMaintenance env depth w (w.addTotals files bytes) := by
  intro hsame
  have hengine := (hsame oneAppDevice 3 budgetWorld 100 (2 * 1024 * 1024)).engine
  revert hengine
  decide +kernel

end FreshCore
