import FreshCore.Imperative.Generations
import FreshCore.Logging.Logger

/-!
# What rotation keeps

The file that was renamed last and the one that is written are two generations of lines.
As long as the calls of the system succeed they hold the end of everything that was
written, at least as much of it as a file may hold.
-/

namespace FreshCore.Logging

open Posix Imperative

/-- No call that the logger makes fails. -/
structure LogOutcome.Succeeds (outcome : LogOutcome) : Prop where
  stats : outcome.stats = true
  renames : outcome.renames = true
  opens : outcome.opens = true
  written : outcome.written = none

/-- The file is not open, and there is neither a log file nor one that was kept. -/
structure Logger.Fresh (s : Logger) (path : Bytes) : Prop where
  closed : s.opened = false
  noLog : s.files path = none
  noOld : s.files (oldPath path) = none

/-- The two files hold the end of what was written, from the beginning of a line on and at
least up to the limit, and the file that is written exceeds the limit by one line at most. -/
structure KeepsRecent (maxSize : UInt64) (lines : List Bytes) (old current : Bytes) : Prop where
  suffix : ∃ dropped kept, lines = dropped ++ kept ∧ old ++ current = kept.flatten
  enough : min lines.flatten.length maxSize.toNat ≤ (old ++ current).length
  bounded : current.length ≤ maxSize.toNat + (lines.getLast?.getD []).length

/-- The lines of a file that is rotated before the next one. -/
def Full (maxSize : UInt64) (lines : List Bytes) : Prop :=
  maxSize.toNat < lines.flatten.length

instance (maxSize : UInt64) : DecidablePred (Full maxSize) := fun lines => by
  unfold Full
  infer_instance

/-- The logger is open, and its two files are the generations. -/
structure Represents (path : Bytes) (maxSize : UInt64) (s : Logger) (g : Generations Bytes) :
    Prop where
  opened : s.opened = true
  logPath : s.logPath = path
  maxSize : s.maxSize = maxSize
  old : s.contents (oldPath path) = g.old.flatten
  current : s.files path = some g.current.flatten

variable {path : Bytes} {maxSize : UInt64} {s : Logger} {g : Generations Bytes}

theorem oldPath_ne (path : Bytes) : oldPath path ≠ path := by
  intro heq
  have hlength := congrArg List.length heq
  have hold : (lit ".old").length = 4 := by decide +kernel
  rw [oldPath, List.length_append] at hlength
  omega

/-! ## One call -/

/-- After a rotation the old file holds what the current one held. -/
theorem Represents.rotate (h : Represents path maxSize s g) {outcome : LogOutcome}
    (hok : outcome.Succeeds) :
    Represents path maxSize (rotate outcome s) { old := g.current, current := [] } := by
  have hne := oldPath_ne path
  have hcurrent := h.current
  obtain ⟨opened, logPath, limit, files⟩ := s
  obtain rfl : logPath = path := h.logPath
  unfold Logging.rotate Logger.openLog Logger.rename
  rw [hok.renames, hok.opens]
  dsimp only at hcurrent ⊢
  rw [if_pos rfl, if_pos rfl, hcurrent]
  constructor
  · rfl
  · rfl
  · exact h.maxSize
  · simp [Logger.contents, hne]
  · simp [Logger.contents]

theorem Represents.append (h : Represents path maxSize s g) (line : Bytes) :
    Represents path maxSize (s.append line) { g with current := g.current ++ [line] } := by
  have hne := oldPath_ne path
  constructor
  · exact h.opened
  · exact h.logPath
  · exact h.maxSize
  · rw [← h.old]
    simp [Logger.append, Logger.contents, h.logPath, hne]
  · simp [Logger.append, Logger.contents, h.logPath, h.current]

/-- A call that is logged adds its line to the generations. -/
theorem Represents.log (h : Represents path maxSize s g) {outcome : LogOutcome}
    (hok : outcome.Succeeds) {call : LogCall} (hlogged : call.isLogged = true) :
    Represents path maxSize (log outcome call s) (g.add (Full maxSize) call.line) := by
  have hsize : (s.contents s.logPath).length = g.current.flatten.length := by
    rw [Logger.contents, h.logPath, h.current, Option.getD_some]
  have hwrite (s : Logger) : writeLine outcome call.line s = s.append call.line := by
    rw [writeLine, hok.written]
  unfold Logging.log
  rw [if_neg (by simp [hlogged]), if_neg (by simp [h.opened])]
  by_cases hfull : Full maxSize g.current
  · have hcheck : checkSize outcome s = Logging.rotate outcome s := by
      rw [checkSize, hsize, h.maxSize, if_pos ⟨hok.stats, hfull⟩]
    have hrotated := h.rotate hok
    rw [hcheck]
    dsimp only
    rw [if_neg (by simp [hrotated.opened]), hwrite, Generations.add, if_pos hfull]
    exact hrotated.append call.line
  · have hcheck : checkSize outcome s = s := by
      rw [checkSize, hsize, h.maxSize, if_neg fun hover => hfull hover.2]
    rw [hcheck]
    dsimp only
    rw [if_neg (by simp [h.opened]), hwrite, Generations.add, if_neg hfull]
    exact h.append call.line

/-! ## All calls -/

/-- The generations that the calls leave hold the end of the lines they write. -/
theorem Represents.runLog {lines : List Bytes} (h : Represents path maxSize s g)
    (hholds : g.Holds (Full maxSize) lines) {calls : List (LogCall × LogOutcome)}
    (hok : ∀ step ∈ calls, step.2.Succeeds) :
    ∃ g', Represents path maxSize (runLog s calls) g' ∧
      g'.Holds (Full maxSize) (lines ++ writtenLines calls) := by
  induction calls generalizing s g lines with
  | nil => exact ⟨g, h, by simpa [writtenLines] using hholds⟩
  | cons step rest ih =>
      have hrest : ∀ other ∈ rest, other.2.Succeeds :=
        fun other hother => hok other (.tail _ hother)
      rw [Logging.runLog, List.foldl_cons]
      by_cases hlogged : step.1.isLogged = true
      · have hlines : writtenLines (step :: rest) = step.1.line :: writtenLines rest := by
          simp [writtenLines, hlogged]
        obtain ⟨g', hrun, hkept⟩ :=
          ih (h.log (hok step List.mem_cons_self) hlogged) (hholds.add step.1.line) hrest
        refine ⟨g', hrun, ?_⟩
        rwa [hlines, List.append_cons]
      · have hlines : writtenLines (step :: rest) = writtenLines rest := by
          simp [writtenLines, hlogged]
        have hsame : Logging.log step.2 step.1 s = s := by
          rw [Logging.log, if_pos (by simpa using hlogged)]
        rw [hlines, hsame]
        exact ih h hholds hrest

/-- A first `Initialize` leaves an empty file. -/
theorem Logger.Fresh.initializeLogger (hfresh : s.Fresh path) {outcome : InitOutcome}
    (hopens : outcome.opens = true) (maxSize : UInt64) :
    Represents path maxSize (initializeLogger outcome path maxSize s).2 {} := by
  have hne := oldPath_ne path
  have hexpired : deleteExpired outcome path { s with logPath := path, maxSize := maxSize } =
      { s with logPath := path, maxSize := maxSize } := by
    rw [deleteExpired, if_neg]
    simp [hfresh.noLog]
  unfold Logging.initializeLogger
  rw [if_neg (by simp [hfresh.closed]), hexpired]
  dsimp only
  rw [Logger.openLog, if_pos hopens]
  constructor
  · rfl
  · rfl
  · rfl
  · simp [Logger.contents, hne, hfresh.noOld]
  · simp [Logger.contents, hfresh.noLog]

/-- Generations that hold the end of the lines are what is to be kept of them. -/
theorem keepsRecent_of_holds {lines : List Bytes} (hholds : g.Holds (Full maxSize) lines) :
    KeepsRecent maxSize lines g.old.flatten g.current.flatten := by
  have hkept : g.old.flatten ++ g.current.flatten = g.kept.flatten := by
    simp [Generations.kept]
  constructor
  · obtain ⟨dropped, hsuffix⟩ := hholds.kept_suffix
    exact ⟨dropped, g.kept, hsuffix.symm, hkept⟩
  · rcases hholds.enough with hall | hfull
    · rw [hkept, hall]
      exact Nat.min_le_left _ _
    · unfold Full at hfull
      rw [List.length_append]
      omega
  · rcases List.eq_nil_or_concat g.current with hnil | ⟨front, entry, hcurrent⟩
    · simp [hnil]
    · rw [List.concat_eq_append] at hcurrent
      have hfront : front.flatten.length ≤ maxSize.toNat := by
        rcases hholds.room front entry hcurrent with rfl | hroom
        · simp
        · exact Nat.not_lt.mp hroom
      rw [hholds.getLast? hcurrent, hcurrent, Option.getD_some, List.flatten_append,
        List.length_append, List.flatten_singleton]
      omega

/-- Whatever is logged after a first `Initialize`, the two files keep the recent past. -/
theorem runLog_keepsRecent (hfresh : s.Fresh path) {outcome : InitOutcome}
    (hopens : outcome.opens = true) (maxSize : UInt64) {calls : List (LogCall × LogOutcome)}
    (hok : ∀ step ∈ calls, step.2.Succeeds) :
    let final := runLog (initializeLogger outcome path maxSize s).2 calls
    KeepsRecent maxSize (writtenLines calls) (final.contents (oldPath path))
      (final.contents path) := by
  obtain ⟨g, hrun, hholds⟩ :=
    (hfresh.initializeLogger hopens maxSize).runLog Generations.Holds.empty hok
  rw [List.nil_append] at hholds
  dsimp only
  rw [hrun.old, Logger.contents, hrun.current, Option.getD_some]
  exact keepsRecent_of_holds hholds

/-- Three lines, and a call at a level that is not logged. -/
def someCalls : List (LogCall × LogOutcome) :=
  [({ level := .info, time := lit "t1", message := lit "a" }, {}),
    ({ level := .debug, time := lit "t2", message := lit "b" }, {}),
    ({ level := .error, time := lit "t3", message := lit "c" }, {}),
    ({ level := .warning, time := lit "t4", message := lit "d" }, {})]

/-- With room for 10 bytes each line gets a file of its own, and the first one is gone. -/
theorem runLog_keepsRecent_someCalls :
    let final := runLog (initializeLogger { now := 0, mtime := 0 } (lit "log") 10
      { files := fun _ => none }).2 someCalls
    KeepsRecent 10 (writtenLines someCalls) (final.contents (oldPath (lit "log")))
        (final.contents (lit "log")) ∧
      final.contents (oldPath (lit "log")) = lit "[t3] [ERROR] c\n" ∧
      final.contents (lit "log") = lit "[t4] [WARN ] d\n" := by
  have hok : ∀ step ∈ someCalls, step.2.Succeeds := by
    intro step hstep
    simp only [someCalls, List.mem_cons, List.not_mem_nil, or_false] at hstep
    rcases hstep with rfl | rfl | rfl | rfl <;> exact ⟨rfl, rfl, rfl, rfl⟩
  constructor
  · exact runLog_keepsRecent ⟨rfl, rfl, rfl⟩ rfl 10 hok
  · decide +kernel

end FreshCore.Logging
