import FreshCore.Audio.AlsaInotify

/-!
# The polling thread

`StartPolling` and `StopPolling` share a flag, a thread and a descriptor with the thread they
start. Every order of the steps of the two sides is a run: the thread may end by itself, long
before it is joined, and it owns the descriptor from the moment it is started.
-/

namespace FreshCore.MicFixer

abbrev Fd := Nat

/-- Where `AlsaInotifyLoop` is. -/
inductive AlsaPoint where
  | discover
  | test
  | poll
  | read
  /-- With so many events of the buffer left. -/
  | handle (left : Nat)
  | close
  | finished
  deriving DecidableEq, Repr

/-- Where `PollLoop` is. -/
inductive PollPoint where
  | discover
  | test
  | exec
  /-- With so many tenths of a second left. -/
  | sleep (left : Nat)
  | finished
  deriving DecidableEq, Repr

inductive PollThread where
  | alsaInotifyLoop (fd : Fd) (point : AlsaPoint)
  | pollLoop (point : PollPoint)
  deriving DecidableEq, Repr

/-- Where the thread is that calls `StartPolling` and `StopPolling`. -/
inductive Caller where
  | idle
  /-- The flag is set. -/
  | init
  /-- In the loop over `/dev/snd`, with a watch that was added or not. -/
  | scan (fd : Fd) (alsaSuccess : Bool)
  | launch (fd : Option Fd) (alsaSuccess : Bool)
  | join
  deriving DecidableEq, Repr

/-- `pollThread` is `g_poll_thread`, and joinable if there is one. `fault` says that a joinable
thread was overwritten, which ends the process, or a descriptor used that is not open. -/
structure Polling where
  running : Bool := false
  pollThread : Option PollThread := none
  opened : List Fd := []
  caller : Caller := .idle
  fault : Bool := false
  deriving DecidableEq, Repr

/-- One step of the loop, for what `g_running` is. -/
inductive AlsaMove (running : Bool) : AlsaPoint → AlsaPoint → Prop
  | discover : AlsaMove running .discover .test
  | goOn : running = true → AlsaMove running .test .poll
  | stop : running = false → AlsaMove running .test .close
  | failed : AlsaMove running .poll .close
  | timeout : AlsaMove running .poll .test
  | ready : AlsaMove running .poll .read
  | unread : AlsaMove running .read .close
  | filled {events : Nat} : events ≤ eventsPerRead → AlsaMove running .read (.handle events)
  | handle (left : Nat) : AlsaMove running (.handle (left + 1)) (.handle left)
  | handled : AlsaMove running (.handle 0) .test
  | close : AlsaMove running .close .finished

inductive PollMove (running : Bool) : PollPoint → PollPoint → Prop
  | discover : PollMove running .discover .test
  | goOn : running = true → PollMove running .test .exec
  | stop : running = false → PollMove running .test .finished
  | exec : PollMove running .exec (.sleep 30)
  | sleep (left : Nat) : running = true → PollMove running (.sleep (left + 1)) (.sleep left)
  | woken (left : Nat) : running = false → PollMove running (.sleep (left + 1)) .test
  | slept : PollMove running (.sleep 0) .test

/-- The step uses the descriptor. -/
def AlsaPoint.usesFd : AlsaPoint → Bool
  | poll => true
  | read => true
  | close => true
  | _ => false

def PollThread.isFinished : PollThread → Bool
  | alsaInotifyLoop _ point => point = .finished
  | pollLoop point => point = .finished

/-- The descriptors it has open. -/
def PollThread.fds : PollThread → List Fd
  | alsaInotifyLoop fd point => if point = .finished then [] else [fd]
  | pollLoop _ => []

/-- The steps that the loop has left at most once it is told to stop. -/
def AlsaPoint.left : AlsaPoint → Nat
  | finished => 0
  | close => 1
  | test => 2
  | discover => 3
  | handle left => left + 3
  | read => eventsPerRead + 4
  | poll => eventsPerRead + 5

def PollPoint.left : PollPoint → Nat
  | finished => 0
  | test => 1
  | discover => 2
  | sleep _ => 2
  | exec => 3

def PollThread.left : PollThread → Nat
  | alsaInotifyLoop _ point => point.left
  | pollLoop point => point.left

theorem PollThread.fds_of_isFinished {pollThread : PollThread}
    (h : pollThread.isFinished = true) : pollThread.fds = [] := by
  cases pollThread with
  | alsaInotifyLoop fd point => simpa [isFinished, fds] using h
  | pollLoop point => rfl

theorem AlsaMove.left_le {running : Bool} {point point' : AlsaPoint}
    (h : AlsaMove running point point') (hleft : point.left ≤ eventsPerRead + 5) :
    point'.left ≤ eventsPerRead + 5 := by
  cases h with
  | filled hevents => exact Nat.add_le_add hevents (by decide)
  | handle left => exact Nat.le_of_succ_le hleft
  | _ => decide

theorem PollPoint.left_le (point : PollPoint) : point.left ≤ eventsPerRead + 5 := by
  have hsmall : point.left ≤ 3 := by cases point <;> simp [left]
  exact Nat.le_trans hsmall (by decide)

/-- A loop that is told to stop comes nearer to its end with each step. -/
theorem AlsaMove.left_lt {point point' : AlsaPoint} (h : AlsaMove false point point') :
    point'.left < point.left := by
  cases h with
  | goOn hrunning => cases hrunning
  | filled hevents => exact Nat.add_lt_add_of_le_of_lt hevents (by decide)
  | handle left => exact Nat.lt_succ_self _
  | handled => exact Nat.lt_succ_self _
  | _ => decide

theorem PollMove.left_lt {point point' : PollPoint} (h : PollMove false point point') :
    point'.left < point.left := by
  cases h with
  | goOn hrunning => cases hrunning
  | sleep left hrunning => cases hrunning
  | _ => exact Nat.lt_succ_self _

theorem AlsaPoint.goesOn {point : AlsaPoint} (hpoint : point ≠ .finished) :
    ∃ point', AlsaMove false point point' := by
  cases point with
  | discover => exact ⟨_, .discover⟩
  | test => exact ⟨_, .stop rfl⟩
  | poll => exact ⟨_, .timeout⟩
  | read => exact ⟨_, .unread⟩
  | handle left =>
      cases left with
      | zero => exact ⟨_, .handled⟩
      | succ left => exact ⟨_, .handle left⟩
  | close => exact ⟨_, .close⟩
  | finished => exact absurd rfl hpoint

theorem PollPoint.goesOn {point : PollPoint} (hpoint : point ≠ .finished) :
    ∃ point', PollMove false point point' := by
  cases point with
  | discover => exact ⟨_, .discover⟩
  | test => exact ⟨_, .stop rfl⟩
  | exec => exact ⟨_, .exec⟩
  | sleep left =>
      cases left with
      | zero => exact ⟨_, .slept⟩
      | succ left => exact ⟨_, .woken left rfl⟩
  | finished => exact absurd rfl hpoint

namespace Polling

/-- What the polling thread does. -/
inductive ThreadStep : Polling → Polling → Prop
  | alsa {s : Polling} {fd : Fd} {point point' : AlsaPoint} :
      s.pollThread = some (.alsaInotifyLoop fd point) → AlsaMove s.running point point' →
      ThreadStep s { s with
        pollThread := some (.alsaInotifyLoop fd point')
        opened := if point = .close then s.opened.erase fd else s.opened
        fault := s.fault || (point.usesFd && fd ∉ s.opened) }
  | poll {s : Polling} {point point' : PollPoint} :
      s.pollThread = some (.pollLoop point) → PollMove s.running point point' →
      ThreadStep s { s with pollThread := some (.pollLoop point') }

/-- What the calling thread does; it makes the two calls in any order. -/
inductive CallerStep : Polling → Polling → Prop
  | startAgain {s : Polling} : s.caller = .idle → s.running = true → CallerStep s s
  | start {s : Polling} : s.caller = .idle → s.running = false →
      CallerStep s { s with running := true, caller := .init }
  | noInotify {s : Polling} : s.caller = .init →
      CallerStep s { s with caller := .launch none false }
  | inotify {s : Polling} {fd : Fd} : s.caller = .init → fd ∉ s.opened →
      CallerStep s { s with opened := fd :: s.opened, caller := .scan fd false }
  | watch {s : Polling} {fd : Fd} {alsaSuccess : Bool} (added : Bool) :
      s.caller = .scan fd alsaSuccess →
      CallerStep s { s with
        caller := .scan fd (alsaSuccess || added)
        fault := s.fault || fd ∉ s.opened }
  | scanned {s : Polling} {fd : Fd} {alsaSuccess : Bool} : s.caller = .scan fd alsaSuccess →
      CallerStep s { s with caller := .launch (some fd) alsaSuccess }
  | launchAlsa {s : Polling} {fd : Fd} : s.caller = .launch (some fd) true →
      CallerStep s { s with
        pollThread := some (.alsaInotifyLoop fd .discover)
        caller := .idle
        fault := s.fault || s.pollThread.isSome }
  | launchPoll {s : Polling} : s.caller = .launch none false →
      CallerStep s { s with
        pollThread := some (.pollLoop .discover)
        caller := .idle
        fault := s.fault || s.pollThread.isSome }
  /-- Nothing could be watched, and the descriptor is given up. -/
  | fallBack {s : Polling} {fd : Fd} : s.caller = .launch (some fd) false →
      CallerStep s { s with
        pollThread := some (.pollLoop .discover)
        opened := s.opened.erase fd
        caller := .idle
        fault := s.fault || s.pollThread.isSome || fd ∉ s.opened }
  | stopAgain {s : Polling} : s.caller = .idle → s.running = false → CallerStep s s
  | stop {s : Polling} : s.caller = .idle → s.running = true →
      CallerStep s { s with running := false, caller := .join }
  | joined {s : Polling} {pollThread : PollThread} : s.caller = .join →
      s.pollThread = some pollThread → pollThread.isFinished = true →
      CallerStep s { s with pollThread := none, caller := .idle }
  | notJoinable {s : Polling} : s.caller = .join → s.pollThread = none →
      CallerStep s { s with caller := .idle }

/-- The states of all runs of the two threads. -/
inductive Reached : Polling → Prop
  | start : Reached {}
  | thread {s s' : Polling} : Reached s → ThreadStep s s' → Reached s'
  | caller {s s' : Polling} : Reached s → CallerStep s s' → Reached s'

/-- The states that the two threads can be in: the thread and the descriptors are as the
caller left them, up to what the thread has done since. -/
inductive Sound : Polling → Prop
  | stopped : Sound {}
  | started {pollThread : PollThread} : pollThread.left ≤ eventsPerRead + 5 →
      Sound { running := true, pollThread, opened := pollThread.fds }
  | init : Sound { running := true, caller := .init }
  | scan (fd : Fd) (alsaSuccess : Bool) :
      Sound { running := true, opened := [fd], caller := .scan fd alsaSuccess }
  | launch (fd : Option Fd) {alsaSuccess : Bool} : (fd = none → alsaSuccess = false) →
      Sound { running := true, opened := fd.toList, caller := .launch fd alsaSuccess }
  | join {pollThread : PollThread} : pollThread.left ≤ eventsPerRead + 5 →
      Sound { pollThread, opened := pollThread.fds, caller := .join }

namespace Sound

variable {s s' : Polling}

theorem idle_stopped (h : s.Sound) (hidle : s.caller = .idle) (hrunning : s.running = false) :
    s = {} := by
  cases h <;> simp_all

theorem idle_running (h : s.Sound) (hidle : s.caller = .idle) (hrunning : s.running = true) :
    ∃ pollThread : PollThread, pollThread.left ≤ eventsPerRead + 5 ∧
      s = { running := true, pollThread, opened := pollThread.fds } := by
  cases h <;> simp_all

theorem of_init (h : s.Sound) (hinit : s.caller = .init) :
    s = { running := true, caller := .init } := by
  cases h <;> simp_all

theorem of_scan (h : s.Sound) {fd : Fd} {alsaSuccess : Bool}
    (hscan : s.caller = .scan fd alsaSuccess) :
    s = { running := true, opened := [fd], caller := .scan fd alsaSuccess } := by
  cases h <;> simp_all

theorem of_launch (h : s.Sound) {fd : Option Fd} {alsaSuccess : Bool}
    (hlaunch : s.caller = .launch fd alsaSuccess) :
    s = { running := true, opened := fd.toList, caller := .launch fd alsaSuccess } := by
  cases h <;> simp_all

theorem of_join (h : s.Sound) (hjoin : s.caller = .join) :
    ∃ pollThread : PollThread, pollThread.left ≤ eventsPerRead + 5 ∧
      s = { pollThread, opened := pollThread.fds, caller := .join } := by
  cases h <;> simp_all

/-- A thread is there only beside an idle caller or one that waits for it. -/
theorem of_thread (h : s.Sound) {pollThread : PollThread}
    (hthread : s.pollThread = some pollThread) :
    s = { running := s.running, pollThread, opened := pollThread.fds, caller := s.caller } ∧
      pollThread.left ≤ eventsPerRead + 5 ∧
      ∀ next : PollThread, next.left ≤ eventsPerRead + 5 → Sound
        { running := s.running, pollThread := next, opened := next.fds, caller := s.caller } := by
  cases h with
  | started hleft =>
      cases hthread
      exact ⟨rfl, hleft, fun _ => .started⟩
  | join hleft =>
      cases hthread
      exact ⟨rfl, hleft, fun _ => .join⟩
  | _ => cases hthread

theorem caller (h : s.Sound) (hstep : CallerStep s s') : s'.Sound := by
  cases hstep with
  | startAgain _ _ => exact h
  | start hidle hrunning =>
      rw [h.idle_stopped hidle hrunning]
      exact .init
  | noInotify hinit =>
      rw [h.of_init hinit]
      exact .launch none fun _ => rfl
  | inotify hinit _ =>
      rw [h.of_init hinit]
      exact .scan _ false
  | watch added hscan =>
      rw [h.of_scan hscan]
      simpa using Sound.scan _ _
  | scanned hscan =>
      rw [h.of_scan hscan]
      exact .launch (some _) nofun
  | launchAlsa hlaunch =>
      rw [h.of_launch hlaunch]
      exact .started (show AlsaPoint.discover.left ≤ eventsPerRead + 5 by decide)
  | launchPoll hlaunch =>
      rw [h.of_launch hlaunch]
      exact .started (PollPoint.left_le .discover)
  | fallBack hlaunch =>
      rw [h.of_launch hlaunch]
      have hstarted : PollThread.left (.pollLoop .discover) ≤ eventsPerRead + 5 :=
        PollPoint.left_le .discover
      simpa [PollThread.fds] using Sound.started hstarted
  | stopAgain _ _ => exact h
  | stop hidle hrunning =>
      obtain ⟨pollThread, hleft, rfl⟩ := h.idle_running hidle hrunning
      exact .join hleft
  | joined hjoin hthread hfinished =>
      obtain ⟨pollThread, _, rfl⟩ := h.of_join hjoin
      cases hthread
      rw [PollThread.fds_of_isFinished hfinished]
      exact .stopped
  | notJoinable hjoin hthread =>
      obtain ⟨pollThread, _, rfl⟩ := h.of_join hjoin
      cases hthread

theorem thread (h : s.Sound) (hstep : ThreadStep s s') : s'.Sound := by
  cases hstep with
  | @alsa fd point point' hthread hmove =>
      obtain ⟨heq, hleft, hnext⟩ := h.of_thread hthread
      have hopened : s.opened = [fd] := by
        rw [heq]
        cases hmove <;> rfl
      have hfault : s.fault = false := by rw [heq]
      have hafter : (if point = .close then s.opened.erase fd else s.opened) =
          (PollThread.alsaInotifyLoop fd point').fds := by
        rw [hopened]
        cases hmove <;> simp [PollThread.fds]
      rw [hafter, hfault, hopened]
      simpa using hnext (.alsaInotifyLoop fd point') (hmove.left_le hleft)
  | poll hthread _ =>
      obtain ⟨heq, _, hnext⟩ := h.of_thread hthread
      rw [heq]
      exact hnext _ (PollPoint.left_le _)

theorem of_reached (h : Reached s) : s.Sound := by
  induction h with
  | start => exact .stopped
  | thread _ hstep ih => exact ih.thread hstep
  | caller _ hstep ih => exact ih.caller hstep

end Sound

/-! ## Starting and stopping -/

/-- Whatever the order of the steps, no running thread is overwritten and no descriptor used
that is not open; between the calls there is a thread exactly while the flag is set, and
nothing is open but the descriptor of a loop that has not come to its end. -/
theorem polling_safe {s : Polling} (h : Reached s) :
    s.fault = false ∧ s.opened.length ≤ 1 ∧
      (s.caller = .idle → s.pollThread.isSome = s.running ∧
        s.opened = s.pollThread.toList.flatMap PollThread.fds) := by
  have hfds (pollThread : PollThread) : pollThread.fds.length ≤ 1 := by
    cases pollThread with
    | alsaInotifyLoop fd point =>
        by_cases hfinished : point = .finished <;> simp [PollThread.fds, hfinished]
    | pollLoop point => simp [PollThread.fds]
  cases Sound.of_reached h with
  | stopped => simp
  | started _ => simp [hfds]
  | init => simp
  | scan fd alsaSuccess => simp
  | launch fd _ => cases fd <;> simp
  | join _ => simp [hfds]

theorem polling_safe_twoCalls :
    ∃ s : Polling, s.caller = .idle ∧ s.fault = false ∧ s.opened.length ≤ 1 ∧
      (s.caller = .idle → s.pollThread.isSome = s.running ∧
        s.opened = s.pollThread.toList.flatMap PollThread.fds) := by
  have h := Reached.start.caller (.start rfl rfl)
  replace h := h.caller (.noInotify rfl)
  replace h := h.caller (.launchPoll rfl)
  exact ⟨_, rfl, polling_safe h⟩

/-- So many steps of the polling thread. -/
inductive ThreadRun : Nat → Polling → Polling → Prop
  | refl (s : Polling) : ThreadRun 0 s s
  | step {n : Nat} {s t u : Polling} : ThreadRun n s t → ThreadStep t u → ThreadRun (n + 1) s u

/-- How many steps the thread has left at most, if it is told to stop. -/
def left (s : Polling) : Nat := (s.pollThread.map PollThread.left).getD 0

theorem ThreadStep.left_lt {s s' : Polling} (h : ThreadStep s s') (hrunning : s.running = false) :
    s'.left < s.left ∧ s'.running = false ∧ s'.caller = s.caller := by
  cases h with
  | alsa hthread hmove =>
      rw [hrunning] at hmove
      refine ⟨?_, hrunning, rfl⟩
      simpa [left, hthread, PollThread.left] using hmove.left_lt
  | poll hthread hmove =>
      rw [hrunning] at hmove
      refine ⟨?_, hrunning, rfl⟩
      simpa [left, hthread, PollThread.left] using hmove.left_lt

theorem ThreadRun.left_le {n : Nat} {s t : Polling} (h : ThreadRun n s t)
    (hrunning : s.running = false) (hreached : Reached s) :
    n + t.left ≤ s.left ∧ t.running = false ∧ t.caller = s.caller ∧ Reached t := by
  induction h with
  | refl => exact ⟨Nat.le_of_eq (Nat.zero_add _), hrunning, rfl, hreached⟩
  | step _ hstep ih =>
      obtain ⟨hleft, hstopped, hcaller, hreached⟩ := ih hrunning hreached
      obtain ⟨hless, hstopped', hcaller'⟩ := hstep.left_lt hstopped
      exact ⟨by omega, hstopped', hcaller'.trans hcaller, .thread hreached hstep⟩

/-- While `StopPolling` waits, either the thread is finished or it can take a step. -/
theorem goesOn {pollThread : PollThread} {s : Polling}
    (hthread : s.pollThread = some pollThread) (hrunning : s.running = false)
    (hfinished : pollThread.isFinished = false) : ∃ t, ThreadStep s t := by
  cases pollThread with
  | alsaInotifyLoop fd point =>
      obtain ⟨point', hmove⟩ := AlsaPoint.goesOn (by simpa [PollThread.isFinished] using hfinished)
      exact ⟨_, .alsa hthread (hrunning ▸ hmove)⟩
  | pollLoop point =>
      obtain ⟨point', hmove⟩ := PollPoint.goesOn (by simpa [PollThread.isFinished] using hfinished)
      exact ⟨_, .poll hthread (hrunning ▸ hmove)⟩

/-- `StopPolling` returns: the thread it waits for takes at most 261 steps more, for one
buffer of events, and can always take the next one until the caller can return. -/
theorem stopPolling_returns {s t : Polling} (h : Reached s) (hjoin : s.caller = .join) {n : Nat}
    (hrun : ThreadRun n s t) :
    n ≤ eventsPerRead + 5 ∧ (∀ u, CallerStep t u → u = {}) ∧
      ((∃ u, ThreadStep t u) ∨ CallerStep t {}) := by
  obtain ⟨first, hbound, rfl⟩ := (Sound.of_reached h).of_join hjoin
  obtain ⟨hleft, hrunning, hcaller, hreached⟩ := hrun.left_le rfl h
  obtain ⟨pollThread, _, rfl⟩ := (Sound.of_reached hreached).of_join hcaller
  refine ⟨Nat.le_trans (Nat.le_add_right _ _) (Nat.le_trans hleft hbound), ?_, ?_⟩
  · intro u hstep
    cases hstep with
    | joined _ hthread hfinished =>
        cases hthread
        rw [PollThread.fds_of_isFinished hfinished]
    | _ => simp_all
  · cases hfinished : pollThread.isFinished with
    | false => exact Or.inl (goesOn rfl rfl hfinished)
    | true =>
        right
        have hreturn := @CallerStep.joined { pollThread, opened := pollThread.fds, caller := .join }
          pollThread rfl rfl hfinished
        rwa [PollThread.fds_of_isFinished hfinished] at hreturn ⊢

/-- The devices were watched, and then the caller stops the loop while it waits for events. -/
theorem watchedDevices_reached :
    Reached { pollThread := some (.alsaInotifyLoop 5 .poll), opened := [5], caller := .join } := by
  have h := Reached.start.caller (.start rfl rfl)
  replace h := h.caller (@CallerStep.inotify _ 5 rfl (by simp))
  replace h := h.caller (.watch true rfl)
  replace h := h.caller (.scanned rfl)
  replace h := h.caller (.launchAlsa rfl)
  replace h := h.thread (.alsa rfl .discover)
  replace h := h.thread (.alsa rfl (.goOn rfl))
  exact h.caller (.stop rfl rfl)

theorem stopPolling_returns_watchedDevices :
    1 ≤ eventsPerRead + 5 ∧
      (∀ u, CallerStep
        { pollThread := some (.alsaInotifyLoop 5 .test), opened := [5], caller := .join } u →
          u = {}) ∧
      ((∃ u, ThreadStep
        { pollThread := some (.alsaInotifyLoop 5 .test), opened := [5], caller := .join } u) ∨
        CallerStep
          { pollThread := some (.alsaInotifyLoop 5 .test), opened := [5], caller := .join } {}) :=
  stopPolling_returns watchedDevices_reached rfl (.step (.refl _) (.alsa rfl .timeout))

end Polling

end FreshCore.MicFixer
