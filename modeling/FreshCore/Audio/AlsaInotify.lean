import FreshCore.Audio.MicFixer
import FreshCore.Posix.Path

/-!
# Watching the capture devices

The kernel reports each open and close of a capture device, and the loop counts them to know
whether the stream that was opened is the first. Between the two is the inotify queue, which
takes no event that repeats the last unread one: the count follows the streams as long as
none is lost there.
-/

namespace FreshCore.MicFixer

open Posix

/-! ## The kernel's side -/

def inCloseWrite : UInt32 := 0x08

def inCloseNowrite : UInt32 := 0x10

def inOpen : UInt32 := 0x20

/-- The files under `/dev/snd` that `StartPolling` watches. -/
def isCaptureDevice (filename : Bytes) : Bool :=
  filename.getLast? = some 99 && (lit "pcm").isPrefixOf filename

/-- A stream that an app has open on a device. -/
structure Stream where
  app : Nat
  device : Bytes
  writes : Bool := false
  deriving DecidableEq, Repr

/-- An event of the queue; `alone` is not in it, but says whether no other stream was open
when it occurred. -/
structure InotifyEvent where
  device : Bytes
  mask : UInt32
  alone : Bool
  deriving DecidableEq, Repr

namespace InotifyEvent

/-- The queue cannot tell the two apart. -/
def sameAs (event other : InotifyEvent) : Bool :=
  event.device = other.device && event.mask = other.mask

end InotifyEvent

def openEvent (opened : List Stream) (stream : Stream) : InotifyEvent where
  device := stream.device
  mask := inOpen
  alone := opened.isEmpty

def closeEvent (opened : List Stream) (stream : Stream) : InotifyEvent where
  device := stream.device
  mask := if stream.writes then inCloseWrite else inCloseNowrite
  alone := (opened.erase stream).isEmpty

/-- The last unread event is the same. -/
def repeatsLast (queue : List InotifyEvent) (event : InotifyEvent) : Bool :=
  queue.getLast?.any event.sameAs

def enqueue (queue : List InotifyEvent) (event : InotifyEvent) : List InotifyEvent :=
  if repeatsLast queue event then queue else queue ++ [event]

/-! ## The loop -/

/-- How many events without a name `read` fits into 4096 bytes. -/
def eventsPerRead : Nat := 4096 / 16

/-- The loop's body for one event: the count after it, and the routines it ran. -/
def handleEvent (streamCount : Int) (mask : UInt32) : Int × List Routine :=
  let (streamCount, routines) :=
    if mask &&& inOpen ≠ 0 then
      let streamCount := streamCount + 1
      if streamCount = 1 then
        (streamCount, [.applyPreInit, .applyMicFix, .showNotification])
      else (streamCount, [])
    else (streamCount, [])
  if mask &&& (inCloseWrite ||| inCloseNowrite) ≠ 0 then
    (if 0 < streamCount then streamCount - 1 else streamCount, routines)
  else (streamCount, routines)

/-- The open streams, the unread events, those that were read and not yet handled, the loop's
counter, and the events it has handled with the routines it ran for each. -/
structure AlsaState where
  opened : List Stream := []
  queue : List InotifyEvent := []
  buffer : List InotifyEvent := []
  streamCount : Int := 0
  handled : List (InotifyEvent × List Routine) := []
  deriving DecidableEq, Repr

inductive AlsaAction where
  | opens (stream : Stream)
  | closes (stream : Stream)
  | read
  | handle
  deriving DecidableEq, Repr

namespace AlsaState

variable (watches : Bytes → Bool)

/-- The event that an action of an app raises on a watched device. -/
def raised (s : AlsaState) : AlsaAction → Option InotifyEvent
  | .opens stream => some (openEvent s.opened stream)
  | .closes stream => some (closeEvent s.opened stream)
  | .read | .handle => none

/-- The queue drops the event that the action raises. -/
def merges (s : AlsaState) (action : AlsaAction) : Bool :=
  (s.raised action).any (repeatsLast s.queue)

/-- One action, if it can happen; `watches` are the devices for which `inotify_add_watch`
succeeded. -/
def step (s : AlsaState) : AlsaAction → Option AlsaState
  | .opens stream =>
      if isCaptureDevice stream.device && watches stream.device then
        some { s with
          opened := stream :: s.opened
          queue := enqueue s.queue (openEvent s.opened stream) }
      else none
  | .closes stream =>
      if stream ∈ s.opened then
        some { s with
          opened := s.opened.erase stream
          queue := enqueue s.queue (closeEvent s.opened stream) }
      else none
  | .read =>
      if s.buffer = [] ∧ s.queue ≠ [] then
        some { s with
          buffer := s.queue.take eventsPerRead
          queue := s.queue.drop eventsPerRead }
      else none
  | .handle =>
      match s.buffer with
      | [] => none
      | event :: rest =>
          let (streamCount, routines) := handleEvent s.streamCount event.mask
          some { s with
            buffer := rest
            streamCount
            handled := s.handled ++ [(event, routines)] }

/-- The states of the runs, from no open stream on, whose actions are all `allowed`. -/
inductive Reachable (allowed : AlsaState → AlsaAction → Bool) : AlsaState → Prop
  | start : Reachable allowed {}
  | step {s s' : AlsaState} {action : AlsaAction} :
      Reachable allowed s → allowed s action = true → s.step watches action = some s' →
      Reachable allowed s'

/-- What the counter is for: it tells, once every event is handled, whether a stream is open,
and the line is muted only for a stream that was opened while no other one was. -/
structure TracksStreams (s : AlsaState) : Prop where
  count : s.queue = [] → s.buffer = [] → (s.streamCount = 0 ↔ s.opened = [])
  preInit : ∀ event routines, (event, routines) ∈ s.handled → .applyPreInit ∈ routines →
    event.mask = inOpen ∧ event.alone = true

end AlsaState

/-! ## Events that lead from one number of streams to another -/

/-- Starting with so many open streams, these events have occurred, and now so many are open. -/
inductive Leads : Nat → List InotifyEvent → Nat → Prop
  | nil (count : Nat) : Leads count [] count
  | opened {count final : Nat} {event : InotifyEvent} {rest : List InotifyEvent} :
      event.mask = inOpen → event.alone = decide (count = 0) → Leads (count + 1) rest final →
      Leads count (event :: rest) final
  | closed {count final : Nat} {event : InotifyEvent} {rest : List InotifyEvent} :
      event.mask = inCloseWrite ∨ event.mask = inCloseNowrite → Leads count rest final →
      Leads (count + 1) (event :: rest) final

theorem Leads.append {count middle final : Nat} {before after : List InotifyEvent}
    (hbefore : Leads count before middle) (hafter : Leads middle after final) :
    Leads count (before ++ after) final := by
  induction hbefore with
  | nil => exact hafter
  | opened hmask halone _ ih => exact .opened hmask halone (ih hafter)
  | closed hmask _ ih => exact .closed hmask (ih hafter)

theorem Leads.eq_of_nil {count final : Nat} (h : Leads count [] final) : count = final := by
  cases h
  rfl

theorem handleEvent_open (count : Nat) :
    handleEvent count inOpen =
      (((count + 1 : Nat) : Int),
        if count = 0 then [.applyPreInit, .applyMicFix, .showNotification] else []) := by
  have hopen : inOpen &&& inOpen ≠ 0 := by decide
  have hclose : ¬ inOpen &&& (inCloseWrite ||| inCloseNowrite) ≠ 0 := by decide
  have hfirst : (count : Int) + 1 = 1 ↔ count = 0 := by omega
  simp only [handleEvent, if_pos hopen, if_neg hclose, hfirst]
  split <;> simp

theorem handleEvent_close {mask : UInt32} (hmask : mask = inCloseWrite ∨ mask = inCloseNowrite)
    (count : Nat) : handleEvent ((count + 1 : Nat) : Int) mask = ((count : Int), []) := by
  have hopen : ¬ mask &&& inOpen ≠ 0 := by rcases hmask with rfl | rfl <;> decide
  have hclose : mask &&& (inCloseWrite ||| inCloseNowrite) ≠ 0 := by
    rcases hmask with rfl | rfl <;> decide
  have hpos : (0 : Int) < ((count + 1 : Nat) : Int) := by omega
  simp only [handleEvent, if_neg hopen, if_pos hclose, if_pos hpos, Prod.mk.injEq, and_true]
  omega

/-! ## Runs in which no event is merged -/

namespace AlsaState

/-- What is not handled yet leads from the count to the streams that are open. -/
structure InStep (s : AlsaState) : Prop where
  pending : ∃ count : Nat, s.streamCount = count ∧
    Leads count (s.buffer ++ s.queue) s.opened.length
  preInit : ∀ event routines, (event, routines) ∈ s.handled → .applyPreInit ∈ routines →
    event.mask = inOpen ∧ event.alone = true

theorem InStep.start : InStep {} where
  pending := ⟨0, rfl, .nil 0⟩
  preInit := by simp

theorem InStep.tracksStreams {s : AlsaState} (h : s.InStep) : s.TracksStreams where
  count := by
    intro hqueue hbuffer
    obtain ⟨count, hcount, hleads⟩ := h.pending
    rw [hqueue, hbuffer] at hleads
    rw [hcount, hleads.eq_of_nil]
    simp
  preInit := h.preInit

/-- An event that is not dropped brings the pending ones to the new number of streams. -/
theorem InStep.enqueue {s : AlsaState} (h : s.InStep) {event : InotifyEvent}
    {opened : List Stream} (hnew : repeatsLast s.queue event = false)
    (hevent : Leads s.opened.length [event] opened.length) :
    InStep { s with opened, queue := MicFixer.enqueue s.queue event } where
  pending := by
    obtain ⟨count, hcount, hleads⟩ := h.pending
    refine ⟨count, hcount, ?_⟩
    have hqueue : MicFixer.enqueue s.queue event = s.queue ++ [event] := by
      simp [MicFixer.enqueue, hnew]
    dsimp only
    rw [hqueue, ← List.append_assoc]
    exact hleads.append hevent
  preInit := h.preInit

/-- One more event is handled. -/
theorem InStep.preInit_concat {s : AlsaState} (h : s.InStep) {event : InotifyEvent}
    {routines : List Routine}
    (hlast : .applyPreInit ∈ routines → event.mask = inOpen ∧ event.alone = true) :
    ∀ event' routines', (event', routines') ∈ s.handled ++ [(event, routines)] →
      .applyPreInit ∈ routines' → event'.mask = inOpen ∧ event'.alone = true := by
  intro event' routines' hmem hroutine
  rcases List.mem_append.mp hmem with hearlier | hmem
  · exact h.preInit event' routines' hearlier hroutine
  · rw [List.mem_singleton, Prod.mk.injEq] at hmem
    obtain ⟨rfl, rfl⟩ := hmem
    exact hlast hroutine

variable {watches : Bytes → Bool}

theorem InStep.step {s s' : AlsaState} {action : AlsaAction} (h : s.InStep)
    (hnew : s.merges action = false) (hstep : s.step watches action = some s') : s'.InStep := by
  cases action with
  | opens stream =>
      rw [AlsaState.step] at hstep
      split at hstep
      next =>
        cases hstep
        apply h.enqueue hnew
        exact .opened rfl (by cases s.opened <;> rfl) (.nil _)
      next => cases hstep
  | closes stream =>
      rw [AlsaState.step] at hstep
      split at hstep
      next hopened =>
        cases hstep
        apply h.enqueue hnew
        have hlength : s.opened.length = (s.opened.erase stream).length + 1 := by
          have := List.length_pos_of_mem hopened
          rw [List.length_erase_of_mem hopened]
          omega
        rw [hlength]
        apply Leads.closed _ (.nil _)
        cases hwrites : stream.writes <;> simp [closeEvent, hwrites]
      next => cases hstep
  | read =>
      rw [AlsaState.step] at hstep
      split at hstep
      next hread =>
        cases hstep
        refine ⟨?_, h.preInit⟩
        have hpending := h.pending
        rw [hread.1, List.nil_append] at hpending
        simpa using hpending
      next => cases hstep
  | handle =>
      obtain ⟨count, hcount, hleads⟩ := h.pending
      cases hbuffer : s.buffer with
      | nil => simp [AlsaState.step, hbuffer] at hstep
      | cons event rest =>
          rw [hbuffer, List.cons_append] at hleads
          simp only [AlsaState.step, hbuffer, Option.some.injEq, hcount] at hstep
          subst hstep
          cases hleads with
          | opened hmask halone hrest =>
              rw [hmask, handleEvent_open]
              refine ⟨⟨count + 1, rfl, hrest⟩, h.preInit_concat fun hroutine => ?_⟩
              have hfirst : count = 0 := by
                by_contra hsecond
                rw [if_neg hsecond] at hroutine
                cases hroutine
              exact ⟨hmask, by rw [halone, hfirst]; rfl⟩
          | @closed count _ _ _ hmask hrest =>
              rw [handleEvent_close hmask]
              exact ⟨⟨count, rfl, hrest⟩, h.preInit_concat nofun⟩

/-- In a run in which the queue never drops an event for repeating the last unread one, the
counter tells whether a stream is open, and the line is muted only for a first stream. -/
theorem reachable_tracksStreams {s : AlsaState}
    (h : Reachable watches (fun s action => !s.merges action) s) : s.TracksStreams := by
  apply InStep.tracksStreams
  induction h with
  | start => exact .start
  | step _ hnew hstep ih => exact ih.step (by simpa using hnew) hstep

/-! ## Two runs -/

/-- Actions one after the other. -/
def runFrom (watches : Bytes → Bool) (allowed : AlsaState → AlsaAction → Bool) (s : AlsaState)
    (actions : List AlsaAction) : Option AlsaState :=
  actions.foldlM (fun s action => if allowed s action then s.step watches action else none) s

theorem Reachable.runFrom {allowed : AlsaState → AlsaAction → Bool} {s final : AlsaState}
    (h : Reachable watches allowed s) {actions : List AlsaAction}
    (hrun : runFrom watches allowed s actions = some final) :
    Reachable watches allowed final := by
  induction actions generalizing s with
  | nil =>
      cases hrun
      exact h
  | cons action rest ih =>
      rw [AlsaState.runFrom, List.foldlM_cons] at hrun
      obtain ⟨s', hstep, hrest⟩ := Option.bind_eq_some_iff.mp hrun
      split at hstep
      next hallowed => exact ih (h.step hallowed hstep) hrest
      next => cases hstep

def microphone : Bytes := lit "pcmC0D0c"

/-- Two apps use the microphone, and the loop reads after each of them opens it. -/
def readInTime : List AlsaAction := [
  .opens ⟨1, microphone, false⟩, .read, .handle,
  .opens ⟨2, microphone, false⟩, .read, .handle,
  .closes ⟨1, microphone, false⟩, .read, .handle]

def inTimeState : AlsaState where
  opened := [⟨2, microphone, false⟩]
  streamCount := 1
  handled := [
    (⟨microphone, inOpen, true⟩, [.applyPreInit, .applyMicFix, .showNotification]),
    (⟨microphone, inOpen, false⟩, []),
    (⟨microphone, inCloseNowrite, false⟩, [])]

theorem reachable_tracksStreams_inTime : inTimeState.TracksStreams := by
  have hrun : runFrom (fun _ => true) (fun s action => !s.merges action) {} readInTime =
      some inTimeState := by decide +kernel
  exact reachable_tracksStreams (Reachable.start.runFrom hrun)

/-- Two apps open the microphone before the loop reads, and the first of them closes it. The
loop believes that all streams are closed, and mutes the line when a third app opens it. -/
def readLate : List AlsaAction := [
  .opens ⟨1, microphone, false⟩, .opens ⟨2, microphone, false⟩, .read, .handle,
  .closes ⟨1, microphone, false⟩, .read, .handle,
  .opens ⟨3, microphone, false⟩, .read, .handle]

def lateState : AlsaState where
  opened := [⟨3, microphone, false⟩, ⟨2, microphone, false⟩]
  streamCount := 1
  handled := [
    (⟨microphone, inOpen, true⟩, [.applyPreInit, .applyMicFix, .showNotification]),
    (⟨microphone, inCloseNowrite, false⟩, []),
    (⟨microphone, inOpen, false⟩, [.applyPreInit, .applyMicFix, .showNotification])]

theorem not_tracksStreams_late :
    ¬ ∀ s : AlsaState, Reachable (fun _ => true) (fun _ _ => true) s → s.TracksStreams := by
  intro htracks
  have hrun : runFrom (fun _ => true) (fun _ _ => true) {} readLate = some lateState := by
    decide +kernel
  have hsound := htracks lateState (Reachable.start.runFrom hrun)
  have hfirst := hsound.preInit ⟨microphone, inOpen, false⟩
    [.applyPreInit, .applyMicFix, .showNotification] (by decide) (by decide)
  cases hfirst.2

end AlsaState

end FreshCore.MicFixer
