import FreshCore.Daemon.Scope

/-! # Batches and limits -/

namespace FreshCore

open Posix Imperative Config

variable (env : Env)

def getMonotonicTimeMs : Daemon UInt64 := sense fun tick => (env.monotonic tick).ms

/-- `CheckSelfLimits` -/
def checkSelfLimits : Daemon Bool := do
  let rssKb ← sense env.rssKb
  return !(50 * 1024 < rssKb)

def startBatch : Daemon Unit := do
  let now ← getMonotonicTimeMs env
  setProcess fun p => { p with batchStartTimeMs := now }

/-- `(uint64_t)max_batch_time_ms` -/
def maxBatchTimeMs (config : Configuration) : UInt64 := .ofInt config.maxBatchTimeMs.toInt

/-- `(uint64_t)max_cleanup_mb_per_run * 1024 * 1024` -/
def maxCleanupBytes (config : Configuration) : UInt64 :=
  .ofInt config.maxCleanupMbPerRun.toInt * 1024 * 1024

/-- A batch that took too long is only reported. -/
def warnSlowBatch (config : Configuration) (batchDuration : UInt64) : Daemon Unit :=
  if maxBatchTimeMs config < batchDuration then note (.slowBatch batchDuration) else return ()

/-- The body of `EndBatch`. -/
def closeBatch (filesProcessed : Int) (bytesFreed : UInt64) : Daemon Bool := do
  let endTime ← getMonotonicTimeMs env
  setProcess fun p => { p with
    totalFilesProcessedRun := p.totalFilesProcessedRun + .ofInt filesProcessed
    totalBytesFreedRun := p.totalBytesFreedRun + bytesFreed }
  let process ← getProcess
  warnSlowBatch process.config (endTime - process.batchStartTimeMs)
  if maxCleanupBytes process.config < process.totalBytesFreedRun then return false
  else checkSelfLimits env

def endBatch (filesProcessed : Int) (bytesFreed : UInt64) : Daemon Bool := do
  let proceed ← closeBatch env filesProcessed bytesFreed
  note (.endBatch filesProcessed bytesFreed proceed)
  return proceed

/-! ## What a batch leaves behind -/

/-- The bookkeeping of batches: their start and the totals of the run. -/
def batchScope : Scope where
  event
    | .endBatch _ _ _ => True
    | .slowBatch _ => True
    | _ => False
  change f := ∀ p, ∃ start files bytes, f p = { p with
    batchStartTimeMs := start
    totalFilesProcessedRun := files
    totalBytesFreedRun := bytes }

variable {scope : Scope}

theorem startBatch_within (hsub : batchScope.Sub scope) : Within env scope (startBatch env) :=
  .bind (.prim (.sense _)) fun now =>
    .prim (.setProcess (hsub.change _ fun p =>
      ⟨now, p.totalFilesProcessedRun, p.totalBytesFreedRun, rfl⟩))

theorem endBatch_within (hsub : batchScope.Sub scope) (filesProcessed : Int)
    (bytesFreed : UInt64) : Within env scope (endBatch env filesProcessed bytesFreed) := by
  refine .bind ?_ fun proceed => .bind (.prim (.note (hsub.event _ trivial))) fun _ => .pure _
  refine .bind (.prim (.sense _)) fun endTime => ?_
  refine .bind (.prim (.setProcess (hsub.change _ fun p =>
    ⟨p.batchStartTimeMs, _, _, rfl⟩))) fun _ => ?_
  refine .bind (.prim .getProcess) fun process => .bind ?_ fun _ => ?_
  · unfold warnSlowBatch
    split
    · exact .prim (.note (hsub.event _ trivial))
    · exact .pure _
  · split
    · exact .pure _
    · exact .bind (.prim (.sense _)) fun _ => .pure _

/-! ## The consultation at the end of a batch -/

theorem warnSlowBatch_run (config : Configuration) (batchDuration : UInt64) (w : World) :
    ∃ slow, (warnSlowBatch config batchDuration).run w =
        (some (), { w with log := w.log ++ slow }) ∧
      ∀ event ∈ slow, ∃ durationMs, event = .slowBatch durationMs := by
  unfold warnSlowBatch
  split
  · exact ⟨[.slowBatch batchDuration], rfl, by simp⟩
  · exact ⟨[], by simp, by simp⟩

/-- `EndBatch` adds to the totals, and refuses once they are over the limit. -/
theorem endBatch_run (filesProcessed : Int) (bytesFreed : UInt64) (w : World) :
    ∃ tick slow proceed, (endBatch env filesProcessed bytesFreed).run w =
        (some proceed,
          { w with
            process := { w.process with
              totalFilesProcessedRun := w.process.totalFilesProcessedRun + .ofInt filesProcessed
              totalBytesFreedRun := w.process.totalBytesFreedRun + bytesFreed }
            tick
            log := w.log ++ (slow ++ [.endBatch filesProcessed bytesFreed proceed]) }) ∧
      (∀ event ∈ slow, ∃ durationMs, event = .slowBatch durationMs) ∧
      (maxCleanupBytes w.process.config < w.process.totalBytesFreedRun + bytesFreed →
        proceed = false) ∧ w.tick < tick := by
  let w₁ : World :=
    { w with
      process := { w.process with
        totalFilesProcessedRun := w.process.totalFilesProcessedRun + .ofInt filesProcessed
        totalBytesFreedRun := w.process.totalBytesFreedRun + bytesFreed }
      tick := w.tick + 1 }
  obtain ⟨slow, hslow, hevents⟩ := warnSlowBatch_run w.process.config
    ((env.monotonic w.tick).ms - w.process.batchStartTimeMs) w₁
  have hclose : (closeBatch env filesProcessed bytesFreed).run w =
      (if maxCleanupBytes w.process.config < w₁.process.totalBytesFreedRun then pure false
        else checkSelfLimits env).run { w₁ with log := w.log ++ slow } := by
    unfold closeBatch
    simp only [Program.run_bind, getMonotonicTimeMs, sense, setProcess, getProcess,
      Program.run_update, Program.run_inspect, World.next]
    rw [hslow]
  by_cases hover : maxCleanupBytes w.process.config < w₁.process.totalBytesFreedRun
  · refine ⟨w.tick + 1, slow, false, ?_, hevents, fun _ => rfl, Nat.lt_succ_self _⟩
    rw [endBatch, Program.run_bind, hclose, if_pos hover]
    simp [Program.run_bind, note, World.record, w₁]
  · refine ⟨w.tick + 2, slow, !(50 * 1024 < env.rssKb (w.tick + 1)), ?_, hevents,
      fun h => absurd h hover, by omega⟩
    rw [endBatch, Program.run_bind, hclose, if_neg hover]
    simp [Program.run_bind, checkSelfLimits, sense, note, World.record, World.next, w₁]

end FreshCore
