import FreshCore.Imperative.Monitor
import FreshCore.Logging.Rotation

/-!
# Logging from several threads

The event loop and the audio thread both call `Log`, which does all its work under one lock.
Here its calls of the system are steps of their own, with those of the other threads
between them. The process may be killed at any of them, with a rotation or a line half done.
-/

namespace FreshCore.Logging

open Posix Imperative

/-- Where a call of `Log` that has the lock is. -/
inductive LogPoint where
  /-- Before the test of `g_log_file`. -/
  | test
  | size
  | close
  | rename
  | reopen
  /-- With so much of the line left to write. -/
  | write (left : Bytes)
  | returned
  deriving DecidableEq, Repr

/-- What the call writes of its line. -/
def textOf (job : LogCall × LogOutcome) : Bytes :=
  match job.2.written with
  | none => job.1.line
  | some count => job.1.line.take count

/-- One step of a call of `Log`. The text gets to the file in pieces of any size, as the buffer
of the stream fills up. -/
inductive LogStep (job : LogCall × LogOutcome) : LogPoint → Logger → LogPoint → Logger → Prop
  | closed {s : Logger} : s.opened = false → LogStep job .test s .returned s
  | opened {s : Logger} : s.opened = true → LogStep job .test s .size s
  | full {s : Logger} : job.2.stats = true →
      s.maxSize.toNat < (s.contents s.logPath).length → LogStep job .size s .close s
  | room {s : Logger} :
      ¬ (job.2.stats = true ∧ s.maxSize.toNat < (s.contents s.logPath).length) →
      LogStep job .size s (.write (textOf job)) s
  | close (s : Logger) : LogStep job .close s .rename { s with opened := false }
  | rename (s : Logger) : LogStep job .rename s .reopen
      (if job.2.renames then s.rename s.logPath (oldPath s.logPath) else s)
  | reopen {s : Logger} : job.2.opens = true →
      LogStep job .reopen s (.write (textOf job)) (s.openLog true)
  | lost {s : Logger} : job.2.opens = false →
      LogStep job .reopen s .returned (s.openLog false)
  | put (s : Logger) (piece left : Bytes) :
      LogStep job (.write (piece ++ left)) s (.write left) (s.append piece)
  | flush (s : Logger) : LogStep job (.write []) s .returned (s.append [])

def logSections : Sections (LogCall × LogOutcome) LogPoint Logger where
  start _ := .test
  Step := LogStep
  IsEnd := (· = .returned)

/-- Calls that are not to be logged return before they come to the lock. -/
def loggedCalls (calls : List (LogCall × LogOutcome)) : List (LogCall × LogOutcome) :=
  calls.filter fun job => job.1.isLogged

/-! ## A call that is left to itself -/

/-- The rest of the call once the file was opened again. -/
def writeReopened (job : LogCall × LogOutcome) (s : Logger) : Logger :=
  if s.opened then s.append (textOf job) else s

/-- The rest of the call from the test of the size on. -/
def writeSized (job : LogCall × LogOutcome) (s : Logger) : Logger :=
  if job.2.stats ∧ s.maxSize.toNat < (s.contents s.logPath).length then
    writeReopened job (rotate job.2 s)
  else s.append (textOf job)

/-- What a call that has got this far does from here on. -/
def LogPoint.rest (job : LogCall × LogOutcome) : LogPoint → Logger → Logger
  | test, s => if s.opened then writeSized job s else s
  | size, s => writeSized job s
  | close, s => writeReopened job (rotate job.2 s)
  | rename, s => writeReopened job ((if job.2.renames then s.rename s.logPath (oldPath s.logPath)
      else s).openLog job.2.opens)
  | reopen, s => writeReopened job (s.openLog job.2.opens)
  | write left, s => s.append left
  | returned, s => s

theorem Logger.append_append (s : Logger) (text text' : Bytes) :
    (s.append text).append text' = s.append (text ++ text') := by
  simp [Logger.append, Logger.contents]

theorem Logger.openLog_opened (s : Logger) (opens : Bool) : (s.openLog opens).opened = opens := by
  cases opens <;> rfl

/-- No step changes what the call comes to. -/
theorem LogStep.rest {job : LogCall × LogOutcome} {point point' : LogPoint} {s s' : Logger}
    (h : LogStep job point s point' s') : point'.rest job s' = point.rest job s := by
  cases h with
  | closed hclosed => simp [LogPoint.rest, hclosed]
  | opened hopened => simp [LogPoint.rest, hopened]
  | full hstats hfull => simp [LogPoint.rest, writeSized, hstats, hfull]
  | room hroom => simp [LogPoint.rest, writeSized, hroom]
  | close => rfl
  | rename => rfl
  | reopen hopens => simp [LogPoint.rest, writeReopened, Logger.openLog_opened, hopens]
  | lost hopens => simp [LogPoint.rest, writeReopened, Logger.openLog_opened, hopens]
  | put piece left => exact Logger.append_append _ _ _
  | flush => rfl

theorem LogPoint.rest_test {job : LogCall × LogOutcome} (hlogged : job.1.isLogged = true)
    (s : Logger) : LogPoint.test.rest job s = log job.2 job.1 s := by
  have hwrite (s : Logger) : writeLine job.2 job.1.line s = s.append (textOf job) := by
    unfold writeLine textOf
    cases job.2.written <;> rfl
  unfold log
  rw [if_neg (by simp [hlogged])]
  by_cases hopened : s.opened = true
  · rw [LogPoint.rest, if_pos hopened, if_neg (by simp [hopened]), writeSized, checkSize]
    split
    · by_cases hreopened : (rotate job.2 s).opened <;> simp [writeReopened, hwrite, hreopened]
    · simp [hopened, hwrite]
  · simp [LogPoint.rest, hopened]

/-- A call that nobody comes between does what `log` says. -/
theorem logSections_runs {job : LogCall × LogOutcome} (hlogged : job.1.isLogged = true)
    {s s' : Logger} (h : logSections.Runs job s s') : s' = log job.2 job.1 s := by
  obtain ⟨point, hreaches, hend⟩ := h
  have hrest : point.rest job s' = LogPoint.test.rest job s := by
    clear hend
    induction hreaches with
    | start => rfl
    | step _ hstep ih => exact hstep.rest.trans ih
  obtain rfl : point = .returned := hend
  rw [← LogPoint.rest_test hlogged, ← hrest]
  rfl

theorem runLog_concat (s : Logger) (calls : List (LogCall × LogOutcome))
    (job : LogCall × LogOutcome) :
    runLog s (calls ++ [job]) = log job.2 job.1 (runLog s calls) := by
  simp [runLog]

theorem logSections_serial {s s' : Logger} {calls : List (LogCall × LogOutcome)}
    (hlogged : ∀ job ∈ calls, job.1.isLogged = true) (h : logSections.Serial s calls s') :
    s' = runLog s calls := by
  induction h with
  | nil => rfl
  | snoc _ hruns ih =>
      rw [List.forall_mem_append] at hlogged
      rw [runLog_concat, ← ih hlogged.1]
      exact logSections_runs (hlogged.2 _ (List.mem_singleton_self _)) hruns

/-! ## A call that is cut off -/

/-- Where the generations stand once there is room for a line. -/
inductive MakesRoom (maxSize : UInt64) (g : Generations Bytes) : Generations Bytes → Prop
  | stay : MakesRoom maxSize g g
  | move : Full maxSize g.current → MakesRoom maxSize g { old := g.current, current := [] }

/-- What a call that has got this far has done to the files, which represented `g` before. -/
def Midway (path : Bytes) (maxSize : UInt64) (g : Generations Bytes)
    (job : LogCall × LogOutcome) : LogPoint → Logger → Prop
  | .test, s => Represents path maxSize s g
  | .size, s => Represents path maxSize s g
  | .close, s => Represents path maxSize s g ∧ Full maxSize g.current
  | .rename, s => Represents path maxSize { s with opened := true } g ∧ Full maxSize g.current
  | .reopen, s => Represents path maxSize (s.openLog true) { old := g.current, current := [] } ∧
      Full maxSize g.current
  | .write left, s => ∃ g' part, MakesRoom maxSize g g' ∧ part ++ left = job.1.line ∧
      Represents path maxSize s { g' with current := g'.current ++ [part] }
  | .returned, s => ∃ g', MakesRoom maxSize g g' ∧
      Represents path maxSize s { g' with current := g'.current ++ [job.1.line] }

variable {path : Bytes} {maxSize : UInt64} {g : Generations Bytes}
  {job : LogCall × LogOutcome} {point point' : LogPoint} {s s' : Logger}

/-- The files hold the lines one after the other, however these are told apart. -/
theorem Represents.congr {g' : Generations Bytes} (h : Represents path maxSize s g)
    (hold : g'.old.flatten = g.old.flatten) (hcurrent : g'.current.flatten = g.current.flatten) :
    Represents path maxSize s g' where
  opened := h.opened
  logPath := h.logPath
  maxSize := h.maxSize
  old := by rw [hold, h.old]
  current := by rw [hcurrent, h.current]

theorem Represents.begin (h : Represents path maxSize s g) :
    Represents path maxSize s { g with current := g.current ++ [[]] } :=
  h.congr rfl (by simp)

theorem Represents.put {part : Bytes} (piece : Bytes)
    (h : Represents path maxSize s { g with current := g.current ++ [part] }) :
    Represents path maxSize (s.append piece) { g with current := g.current ++ [part ++ piece] } :=
  (h.append piece).congr rfl (by simp)

theorem Represents.length_contents (h : Represents path maxSize s g) :
    (s.contents s.logPath).length = g.current.flatten.length := by
  rw [Logger.contents, h.logPath, h.current, Option.getD_some]

theorem Represents.rename (h : Represents path maxSize { s with opened := true } g) :
    Represents path maxSize ((s.rename s.logPath (oldPath s.logPath)).openLog true)
      { old := g.current, current := [] } := by
  have hrotated := h.rotate (show LogOutcome.Succeeds {} from ⟨rfl, rfl, rfl, rfl⟩)
  have hcurrent : s.files path = some g.current.flatten := h.current
  obtain rfl : s.logPath = path := h.logPath
  rw [Logging.rotate, if_pos rfl] at hrotated
  unfold Logger.rename at hrotated ⊢
  dsimp only at hrotated
  rw [hcurrent] at hrotated ⊢
  exact hrotated

/-- Each step goes on from what the ones before it have done. -/
theorem Midway.step (hok : job.2.Succeeds) (h : Midway path maxSize g job point s)
    (hstep : LogStep job point s point' s') : Midway path maxSize g job point' s' := by
  have htext : textOf job = job.1.line := by
    rw [textOf, hok.written]
  cases hstep with
  | closed hclosed =>
      rw [h.opened] at hclosed
      cases hclosed
  | opened _ => exact h
  | full _ hfull =>
      refine ⟨h, ?_⟩
      rwa [h.length_contents, h.maxSize] at hfull
  | room _ => exact ⟨g, [], .stay, htext, h.begin⟩
  | close => exact ⟨⟨rfl, h.1.logPath, h.1.maxSize, h.1.old, h.1.current⟩, h.2⟩
  | rename =>
      obtain ⟨hrepresents, hfull⟩ := h
      rw [hok.renames, if_pos rfl]
      exact ⟨hrepresents.rename, hfull⟩
  | reopen _ => exact ⟨_, [], .move h.2, htext, h.1.begin⟩
  | lost hlost =>
      rw [hok.opens] at hlost
      cases hlost
  | put _ piece left =>
      obtain ⟨g', part, hroom, hline, hrepresents⟩ := h
      exact ⟨g', part ++ piece, hroom, by rw [← hline, List.append_assoc], hrepresents.put piece⟩
  | flush =>
      obtain ⟨g', part, hroom, hline, hrepresents⟩ := h
      refine ⟨g', hroom, ?_⟩
      rw [← hline]
      exact hrepresents.put []

theorem MakesRoom.holds {g' : Generations Bytes} {lines : List Bytes}
    (h : MakesRoom maxSize g g') (hholds : g.Holds (Full maxSize) lines) :
    g'.Holds (Full maxSize) lines := by
  cases h with
  | stay => exact hholds
  | move hfull =>
      constructor
      · rw [Generations.kept, List.append_nil]
        exact (List.suffix_append g.old g.current).trans hholds.kept_suffix
      · exact Or.inr hfull
      · simp

theorem Represents.keepsRecent {lines : List Bytes} (h : Represents path maxSize s g)
    (hholds : g.Holds (Full maxSize) lines) :
    KeepsRecent maxSize lines (s.contents (oldPath path)) (s.contents path) := by
  rw [h.old, Logger.contents, h.current, Option.getD_some]
  exact keepsRecent_of_holds hholds

theorem Logger.contents_openLog (s : Logger) (path : Bytes) :
    (s.openLog true).contents path = s.contents path := by
  by_cases hsame : path = s.logPath
  · simp [Logger.openLog, Logger.contents, hsame]
  · simp [Logger.openLog, Logger.contents, hsame]

/-- At any step the two files hold the end of the lines that were written before, and then at
most the beginning of the one that is being written. -/
theorem Midway.keepsRecent {lines : List Bytes} (h : Midway path maxSize g job point s)
    (hholds : g.Holds (Full maxSize) lines) :
    ∃ front part, s.contents path = front ++ part ∧ part <+: job.1.line ∧
      KeepsRecent maxSize lines (s.contents (oldPath path)) front := by
  have hwhole (h : KeepsRecent maxSize lines (s.contents (oldPath path)) (s.contents path)) :
      ∃ front part, s.contents path = front ++ part ∧ part <+: job.1.line ∧
        KeepsRecent maxSize lines (s.contents (oldPath path)) front :=
    ⟨s.contents path, [], (List.append_nil _).symm, List.nil_prefix, h⟩
  have hpart {g' : Generations Bytes} {part : Bytes} (hroom : MakesRoom maxSize g g')
      (hbegins : part <+: job.1.line)
      (h : Represents path maxSize s { g' with current := g'.current ++ [part] }) :
      ∃ front part, s.contents path = front ++ part ∧ part <+: job.1.line ∧
        KeepsRecent maxSize lines (s.contents (oldPath path)) front := by
    refine ⟨g'.current.flatten, part, ?_, hbegins, ?_⟩
    · rw [Logger.contents, h.current]
      simp
    · rw [h.old]
      exact keepsRecent_of_holds (hroom.holds hholds)
  cases point with
  | test => exact hwhole (Represents.keepsRecent h hholds)
  | size => exact hwhole (Represents.keepsRecent h hholds)
  | close => exact hwhole (h.1.keepsRecent hholds)
  | rename => exact hwhole (h.1.keepsRecent hholds)
  | reopen =>
      have hmoved := h.1.keepsRecent ((MakesRoom.move h.2).holds hholds)
      rw [Logger.contents_openLog, Logger.contents_openLog] at hmoved
      exact hwhole hmoved
  | write left =>
      obtain ⟨g', part, hroom, hline, hrepresents⟩ := h
      exact hpart hroom ⟨left, hline⟩ hrepresents
  | returned =>
      obtain ⟨g', hroom, hrepresents⟩ := h
      exact hpart hroom List.prefix_rfl hrepresents

/-! ## All threads -/

section Threads

variable {Thread : Type} [DecidableEq Thread] {outcome : InitOutcome}
  {calls : Thread → List (LogCall × LogOutcome)}
  {m : Monitor Thread (LogCall × LogOutcome) LogPoint Logger}

/-- The threads before the first call of `Log`, and after `Initialize`. -/
def loggingThreads (s : Logger) (calls : Thread → List (LogCall × LogOutcome)) :
    Monitor Thread (LogCall × LogOutcome) LogPoint Logger where
  shared := s
  pending thread := loggedCalls (calls thread)

/-- Wherever the threads are, the calls that have returned were made one after the other, in an
order that keeps to that of each thread, and the two files hold the recent past of that
order: in the middle of a rotation as well, and up to a line that is half written. -/
theorem logThreads_keepRecent (hfresh : s.Fresh path) (hopens : outcome.opens = true)
    (maxSize : UInt64) (hok : ∀ thread, ∀ job ∈ calls thread, job.2.Succeeds)
    (hrun : logSections.MonitorRun
      (loggingThreads (initializeLogger outcome path maxSize s).2 calls) m) :
    ∃ order, (∀ thread, ofThread thread (order ++ m.inProgress) ++ m.pending thread =
        loggedCalls (calls thread)) ∧
      ∃ front part, m.shared.contents path = front ++ part ∧
        part <+: (writtenLines (m.inProgress.map Prod.snd)).flatten ∧
        KeepsRecent maxSize (writtenLines (order.map Prod.snd))
          (m.shared.contents (oldPath path)) front := by
  obtain ⟨order, hfollows⟩ := hrun.follows
  refine ⟨order, hfollows.own, ?_⟩
  have hjob {thread : Thread} {job : LogCall × LogOutcome}
      (hmem : (thread, job) ∈ order ++ m.inProgress) :
      job.1.isLogged = true ∧ job.2.Succeeds := by
    obtain ⟨hmem, hlogged⟩ := List.mem_filter.mp (hfollows.mem hmem)
    exact ⟨hlogged, hok thread job hmem⟩
  have horder (job : LogCall × LogOutcome) (hmem : job ∈ order.map Prod.snd) :
      job.1.isLogged = true ∧ job.2.Succeeds := by
    obtain ⟨⟨thread, _⟩, hentry, rfl⟩ := List.mem_map.mp hmem
    exact hjob (List.mem_append_left _ hentry)
  obtain ⟨s₁, hserial, hfree, hheld⟩ := hfollows.serial
  obtain rfl := logSections_serial (fun job hmem => (horder job hmem).1) hserial
  obtain ⟨g, hrepresents, hholds⟩ := (hfresh.initializeLogger hopens maxSize).runLog
    Generations.Holds.empty fun job hmem => (horder job hmem).2
  rw [List.nil_append] at hholds
  cases hrunning : m.running with
  | none =>
      refine ⟨m.shared.contents path, [], (List.append_nil _).symm, List.nil_prefix, ?_⟩
      rw [hfree hrunning]
      exact hrepresents.keepsRecent hholds
  | some held =>
      obtain ⟨thread, job, point⟩ := held
      have hprogress : m.inProgress = [(thread, job)] := by
        simp [Monitor.inProgress, hrunning]
      rw [hprogress] at hjob ⊢
      obtain ⟨hlogged, hsucceeds⟩ := hjob (List.mem_append_right _ (List.mem_singleton_self _))
      have hmidway : Midway path maxSize g job point m.shared := by
        have hreaches := hheld thread job point hrunning
        clear hrunning
        generalize m.shared = s' at hreaches
        induction hreaches with
        | start => exact hrepresents
        | step _ hstep ih => exact ih.step hsucceeds hstep
      obtain ⟨front, part, hcontents, hpart, hkeeps⟩ := hmidway.keepsRecent hholds
      refine ⟨front, part, hcontents, ?_, hkeeps⟩
      simpa [writtenLines, hlogged] using hpart

end Threads

/-- A line of each of two threads. -/
def twoThreads : Bool → List (LogCall × LogOutcome)
  | true => [({ level := .info, time := lit "t1", message := lit "a" }, {})]
  | false => [({ level := .error, time := lit "t2", message := lit "b" }, {})]

/-- A log file that was just opened, with room for 10 bytes. -/
def shortLog : Logger :=
  (initializeLogger { now := 0, mtime := 0 } (lit "log") 10 { files := fun _ => none }).2

/-- The first thread has written its line, and the second one has renamed the file. -/
theorem twoThreads_run :
    ∃ m, logSections.MonitorRun (loggingThreads shortLog twoThreads) m ∧
      m.running.map (fun held => held.2.2) = some .reopen := by
  have hrun : logSections.MonitorRun (loggingThreads shortLog twoThreads) _ := .refl _
  replace hrun := hrun.step (.lock rfl (show Monitor.pending _ true = _ :: _ from rfl))
  replace hrun := hrun.step (.work rfl (.opened rfl))
  replace hrun := hrun.step (.work rfl (.room (by decide +kernel)))
  replace hrun := hrun.step (.work rfl (.put _ (lit "[t1] [INFO ] a\n") []))
  replace hrun := hrun.step (.work rfl (.flush _))
  replace hrun := hrun.step (.unlock rfl rfl)
  replace hrun := hrun.step (.lock rfl (show Monitor.pending _ false = _ :: _ from rfl))
  replace hrun := hrun.step (.work rfl (.opened rfl))
  replace hrun := hrun.step (.work rfl (.full rfl (by decide +kernel)))
  replace hrun := hrun.step (.work rfl (.close _))
  replace hrun := hrun.step (.work rfl (.rename _))
  exact ⟨_, hrun, rfl⟩

theorem logThreads_keepRecent_twoThreads :
    ∃ m : Monitor Bool (LogCall × LogOutcome) LogPoint Logger,
      m.running.map (fun held => held.2.2) = some .reopen ∧
      ∃ order, (∀ thread, ofThread thread (order ++ m.inProgress) ++ m.pending thread =
          loggedCalls (twoThreads thread)) ∧
        ∃ front part, m.shared.contents (lit "log") = front ++ part ∧
          part <+: (writtenLines (m.inProgress.map Prod.snd)).flatten ∧
          KeepsRecent 10 (writtenLines (order.map Prod.snd))
            (m.shared.contents (oldPath (lit "log"))) front := by
  obtain ⟨m, hrun, hpoint⟩ := twoThreads_run
  refine ⟨m, hpoint, logThreads_keepRecent ⟨rfl, rfl, rfl⟩ rfl 10 ?_ hrun⟩
  intro thread job hmem
  cases thread <;> cases List.mem_singleton.mp hmem <;> exact ⟨rfl, rfl, rfl, rfl⟩

end FreshCore.Logging
