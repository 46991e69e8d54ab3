import Mathlib.Logic.Function.Basic
import Mathlib.Data.List.Basic

/-!
# Sections under a lock

Each thread has sections to run one after the other. A section is run step by step with the
lock held, and the steps of different threads come in any order. The state that is shared is
nevertheless always one that the sections reach one at a time, with those of each thread in
the thread's own order.
-/

namespace Imperative

/-- How the sections of one kind are run. A step moves a point of the section's own and the
state that is shared. -/
structure Sections (Job Point σ : Type) where
  start : Job → Point
  Step : Job → Point → σ → Point → σ → Prop
  IsEnd : Point → Prop

/-- Threads, what they have yet to run, and who holds the lock. -/
structure Monitor (Thread Job Point σ : Type) where
  shared : σ
  pending : Thread → List Job
  running : Option (Thread × Job × Point) := none

variable {Thread Job Point σ : Type}

namespace Sections

variable (sections : Sections Job Point σ)

/-- The states on the way of a section that is run alone. -/
inductive Reaches (job : Job) (s : σ) : Point → σ → Prop
  | start : Reaches job s (sections.start job) s
  | step {point point' : Point} {s₁ s₂ : σ} : Reaches job s point s₁ →
      sections.Step job point s₁ point' s₂ → Reaches job s point' s₂

def Runs (job : Job) (s s' : σ) : Prop :=
  ∃ point, sections.Reaches job s point s' ∧ sections.IsEnd point

/-- One section after the other. -/
inductive Serial (s : σ) : List Job → σ → Prop
  | nil : Serial s [] s
  | snoc {jobs : List Job} {job : Job} {s₁ s₂ : σ} : Serial s jobs s₁ →
      sections.Runs job s₁ s₂ → Serial s (jobs ++ [job]) s₂

/-- The lock is taken by whoever comes first, and given back at the end of the section. -/
inductive MonitorStep [DecidableEq Thread] :
    Monitor Thread Job Point σ → Monitor Thread Job Point σ → Prop
  | lock {m : Monitor Thread Job Point σ} {thread : Thread} {job : Job} {rest : List Job} :
      m.running = none → m.pending thread = job :: rest →
      MonitorStep m { m with
        pending := Function.update m.pending thread rest
        running := some (thread, job, sections.start job) }
  | work {m : Monitor Thread Job Point σ} {thread : Thread} {job : Job} {point point' : Point}
      {s : σ} : m.running = some (thread, job, point) →
      sections.Step job point m.shared point' s →
      MonitorStep m { m with shared := s, running := some (thread, job, point') }
  | unlock {m : Monitor Thread Job Point σ} {thread : Thread} {job : Job} {point : Point} :
      m.running = some (thread, job, point) → sections.IsEnd point →
      MonitorStep m { m with running := none }

inductive MonitorRun [DecidableEq Thread] :
    Monitor Thread Job Point σ → Monitor Thread Job Point σ → Prop
  | refl (m : Monitor Thread Job Point σ) : MonitorRun m m
  | step {m m' m'' : Monitor Thread Job Point σ} : MonitorRun m m' →
      sections.MonitorStep m' m'' → MonitorRun m m''

end Sections

/-- The sections of one thread in an order of all of them. -/
def ofThread [DecidableEq Thread] (thread : Thread) (order : List (Thread × Job)) : List Job :=
  (order.filter fun entry => entry.1 = thread).map Prod.snd

/-- The section that is being run. -/
def Monitor.inProgress (m : Monitor Thread Job Point σ) : List (Thread × Job) :=
  m.running.toList.map fun (thread, job, _) => (thread, job)

/-- The sections of the order were run one after the other, and one may have begun since. -/
structure Monitor.Follows [DecidableEq Thread] (sections : Sections Job Point σ)
    (todo : Thread → List Job) (start : σ) (order : List (Thread × Job))
    (m : Monitor Thread Job Point σ) : Prop where
  own : ∀ thread, ofThread thread (order ++ m.inProgress) ++ m.pending thread = todo thread
  serial : ∃ s, sections.Serial start (order.map Prod.snd) s ∧
    (m.running = none → m.shared = s) ∧
    ∀ thread job point, m.running = some (thread, job, point) →
      sections.Reaches job s point m.shared

variable [DecidableEq Thread] {sections : Sections Job Point σ} {todo : Thread → List Job}
  {start : σ} {order : List (Thread × Job)} {m m' : Monitor Thread Job Point σ}

theorem ofThread_append (thread : Thread) (order order' : List (Thread × Job)) :
    ofThread thread (order ++ order') = ofThread thread order ++ ofThread thread order' := by
  simp [ofThread]

theorem mem_ofThread {thread : Thread} {job : Job} (h : (thread, job) ∈ order) :
    job ∈ ofThread thread order := by
  simpa [ofThread] using h

namespace Monitor.Follows

theorem init : Follows sections todo start []
    { shared := start, pending := todo : Monitor Thread Job Point σ } where
  own _ := rfl
  serial := ⟨start, .nil, fun _ => rfl, nofun⟩

theorem mem (h : Follows sections todo start order m) {thread : Thread} {job : Job}
    (hmem : (thread, job) ∈ order ++ m.inProgress) : job ∈ todo thread := by
  rw [← h.own thread]
  exact List.mem_append_left _ (mem_ofThread hmem)

/-- A section counts once it is over. -/
theorem step (h : Follows sections todo start order m) (hstep : sections.MonitorStep m m') :
    ∃ order', Follows sections todo start order' m' := by
  obtain ⟨s, hserial, hfree, hheld⟩ := h.serial
  cases hstep with
  | @lock thread job rest hrunning hpending =>
      refine ⟨order, ?_, s, hserial, nofun, ?_⟩
      · intro other
        rw [← h.own other, ofThread_append, ofThread_append]
        dsimp only [inProgress]
        rw [hrunning]
        by_cases hsame : other = thread
        · subst hsame
          simp [ofThread, hpending]
        · have hother : thread ≠ other := Ne.symm hsame
          simp [ofThread, hsame, hother]
      · intro _ _ _ hrun
        cases hrun
        dsimp only
        rw [hfree hrunning]
        exact .start
  | work hrunning hwork =>
      refine ⟨order, ?_, s, hserial, nofun, ?_⟩
      · intro other
        rw [← h.own other]
        simp [inProgress, hrunning]
      · intro _ _ _ hrun
        cases hrun
        exact .step (hheld _ _ _ hrunning) hwork
  | @unlock thread job point hrunning hend =>
      refine ⟨order ++ [(thread, job)], ?_, m.shared, ?_, fun _ => rfl, nofun⟩
      · intro other
        rw [← h.own other]
        simp [inProgress, hrunning]
      · rw [List.map_append]
        exact .snoc hserial ⟨point, hheld _ _ _ hrunning, hend⟩

end Monitor.Follows

/-- The threads do nothing that the sections could not do one at a time. -/
theorem Sections.MonitorRun.follows
    (hrun : sections.MonitorRun { shared := start, pending := todo } m) :
    ∃ order, m.Follows sections todo start order := by
  induction hrun with
  | refl => exact ⟨[], .init⟩
  | step _ hstep ih =>
      obtain ⟨order, hfollows⟩ := ih
      exact hfollows.step hstep

end Imperative
