import Mathlib.Algebra.BigOperators.Group.List.Basic
import Mathlib.Data.UInt
import FreshCore.Cache.CacheCleaner
import FreshCore.Daemon.Quiet
import FreshCore.Posix.Pruning

/-!
# What a removal can do

The remover and its loops are read off once: what each of them logs, in which order, and
how the tree changes on the way. Every run of the code is a run in this sense, cut off or
not and whatever other processes do, so that what follows about removals follows by
induction on such runs.
-/

namespace FreshCore

open Posix Imperative Config Device Cache

/-! ## Reading the log -/

/-- Says nothing about loops, removals, batches and cleanups. -/
def Event.isPlain : Event → Bool
  | entered _ => false
  | left _ _ => false
  | removed _ _ => false
  | removeFailed _ => false
  | lstatFailed _ => false
  | endBatch _ _ _ => false
  | cleaned _ _ => false
  | _ => true

/-- Other processes changed the tree. -/
def Event.isOthers : Event → Bool
  | others _ _ => true
  | _ => false

/-- No other process changed the tree. -/
def Alone (events : List Event) : Prop := ∀ event ∈ events, event.isOthers = false

instance (events : List Event) : Decidable (Alone events) := by
  unfold Alone
  infer_instance

@[simp] theorem alone_nil : Alone [] := by simp [Alone]

@[simp] theorem alone_cons {event : Event} {events : List Event} :
    Alone (event :: events) ↔ event.isOthers = false ∧ Alone events := by
  simp [Alone]

@[simp] theorem alone_append {events new : List Event} :
    Alone (events ++ new) ↔ Alone events ∧ Alone new := by
  simp [Alone, or_imp, forall_and]

/-- The bytes that `EndBatch` added to the total. -/
def Event.freedBytes : Event → UInt64
  | endBatch _ bytes _ => bytes
  | _ => 0

def freedBytes (events : List Event) : UInt64 := (events.map Event.freedBytes).sum

@[simp] theorem freedBytes_nil : freedBytes [] = 0 := rfl

@[simp] theorem freedBytes_cons (event : Event) (events : List Event) :
    freedBytes (event :: events) = event.freedBytes + freedBytes events := by
  simp [freedBytes]

@[simp] theorem freedBytes_append (events new : List Event) :
    freedBytes (events ++ new) = freedBytes events + freedBytes new := by
  simp [freedBytes]

/-- The path of an entry that could not be looked at, or not be removed. -/
def Event.failedPath? : Event → Option Bytes
  | lstatFailed path => some path
  | removeFailed path => some path
  | _ => none

theorem Event.failedPath?_eq_some {event : Event} {path : Bytes} :
    event.failedPath? = some path ↔ event = .removeFailed path ∨ event = .lstatFailed path := by
  cases event <;> simp [Event.failedPath?]

/-! ## Runs -/

/-- Nothing was done to the tree, which is as it was unless others have changed it. -/
structure Glances (fs : FileSystem) (looks : List Event) (fs' : FileSystem) : Prop where
  plain : ∀ event ∈ looks, event.isPlain = true
  still : Alone looks → fs' = fs

/-- `SafeRemove`: a file that is there is missed without notice only when others interfere. -/
inductive SafeRemoves (cwd : Loc) (path : Bytes) :
    FileSystem → List Event → FileSystem → Bool → Prop
  | missed {fs fs' : FileSystem} {looks : List Event} :
      Glances fs looks fs' →
      (Alone looks → ∀ node, fs.lstat cwd path = some node → node = .dir) →
      SafeRemoves cwd path fs looks fs' false
  | failed {fs fs' : FileSystem} {looks : List Event} {event : Event} {loc : Loc} :
      Glances fs looks fs' → event.failedPath? = some path →
      fs'.resolve cwd false path = some loc → (fs'.node loc).isSome →
      SafeRemoves cwd path fs (looks ++ [event]) fs' false
  | removed {fs fs₁ fs' : FileSystem} {looks : List Event} {loc : Loc} {node : Node} :
      Glances fs looks fs₁ → fs₁.resolve cwd false path = some loc → fs₁.node loc = some node →
      fs₁.erase loc = some fs' → (∀ event ∈ looks, event.isOthers = true) →
      SafeRemoves cwd path fs (looks ++ [.removed loc node]) fs' true

/-- `GetDirectoryChildren` found these entries. -/
structure Lists (cwd : Loc) (path : Bytes) (fs : FileSystem) (looks : List Event)
    (fs' : FileSystem) (names : List Name) : Prop where
  glances : Glances fs looks fs'
  listing : listing fs' cwd path = some names

/-- The check that comes before each child, and the look at it. -/
structure Checks (fs : FileSystem) (looks : List Event) (fs' : FileSystem) : Prop where
  glances : Glances fs looks fs'
  idle : ∃ state, .idle state ∈ looks

/-- What there is to do: a directory to remove, the loop over its children, at its head or
after a child, and the loop over the children of a cache directory. -/
inductive Job where
  | remove (path : Bytes)
  | head (path : Bytes) (names : List Name) (files : Int) (bytes : UInt64)
  | tail (path : Bytes) (rest : List Name) (files : Int) (bytes : UInt64)
  | children (path : Bytes) (names : List Name)

/-- How it ends: a call returns, a loop comes to its end or is left, or it is cut off. -/
inductive JobEnd where
  | returned (completed : Bool)
  | counts (files : Int) (bytes : UInt64)
  | stopped
  | cut

/-- The job takes the tree from the first one to the second, logs these events and ends in
this way. -/
inductive Run (cwd : Loc) (limit : Int) :
    Nat → Job → FileSystem → List Event → FileSystem → JobEnd → Prop
  | deep {path : Bytes} {fs : FileSystem} : Run cwd limit 0 (.remove path) fs [] fs .cut
  | refused {depth : Nat} {path : Bytes} {fs fs' : FileSystem} {looks : List Event} :
      Glances fs looks fs' → Run cwd limit (depth + 1) (.remove path) fs looks fs' (.returned false)
  | givenUp {depth : Nat} {path : Bytes} {fs fs₁ fs' : FileSystem} {looks events : List Event}
      {names : List Name} :
      Lists cwd path fs looks fs₁ names →
      Run cwd limit depth (.head path names 0 0) fs₁ events fs' .stopped →
      Run cwd limit (depth + 1) (.remove path) fs
        (looks ++ .entered path :: (events ++ [.left path false])) fs' (.returned false)
  | cutInside {depth : Nat} {path : Bytes} {fs fs₁ fs' : FileSystem} {looks events : List Event}
      {names : List Name} :
      Lists cwd path fs looks fs₁ names →
      Run cwd limit depth (.head path names 0 0) fs₁ events fs' .cut →
      Run cwd limit (depth + 1) (.remove path) fs (looks ++ .entered path :: events) fs' .cut
  | done {depth : Nat} {path : Bytes} {fs fs₁ fs₂ fs' : FileSystem}
      {looks events slow last : List Event} {names : List Name} {files : Int} {bytes : UInt64}
      {proceed removed : Bool} :
      Lists cwd path fs looks fs₁ names →
      Run cwd limit depth (.head path names 0 0) fs₁ events fs₂ (.counts files bytes) →
      Glances fs₂ slow fs₂ → SafeRemoves cwd path fs₂ last fs' removed →
      Run cwd limit (depth + 1) (.remove path) fs
        (looks ++ .entered path ::
          (events ++ (slow ++ .endBatch files bytes proceed :: .left path true :: last)))
        fs' (.returned true)
  | nil {depth : Nat} {path : Bytes} {fs : FileSystem} {files : Int} {bytes : UInt64} :
      Run cwd limit depth (.head path [] files bytes) fs [] fs (.counts files bytes)
  | busy {depth : Nat} {path : Bytes} {name : Name} {rest : List Name} {fs : FileSystem}
      {looks : List Event} {files : Int} {bytes : UInt64} :
      Glances fs looks fs →
      Run cwd limit depth (.head path (name :: rest) files bytes) fs looks fs .stopped
  | gone {depth : Nat} {path : Bytes} {name : Name} {rest : List Name} {fs fs₁ fs' : FileSystem}
      {looks events : List Event} {files : Int} {bytes : UInt64} {out : JobEnd} :
      Checks fs looks fs₁ → fs₁.lstat cwd (child path name) = none →
      Run cwd limit depth (.tail path rest files bytes) fs₁ events fs' out →
      Run cwd limit depth (.head path (name :: rest) files bytes) fs (looks ++ events) fs' out
  | unseen {depth : Nat} {path : Bytes} {name : Name} {rest : List Name}
      {fs fs₁ fs' : FileSystem} {looks events : List Event} {files : Int} {bytes : UInt64}
      {out : JobEnd} :
      Checks fs looks fs₁ → (fs₁.lstat cwd (child path name)).isSome →
      Run cwd limit depth (.tail path rest files bytes) fs₁ events fs' out →
      Run cwd limit depth (.head path (name :: rest) files bytes) fs
        (looks ++ .lstatFailed (child path name) :: events) fs' out
  | file {depth : Nat} {path : Bytes} {name : Name} {rest : List Name}
      {fs fs₁ fs₂ fs' : FileSystem} {looks last events : List Event} {files : Int}
      {bytes : UInt64} {node : Node} {removed : Bool} {out : JobEnd} :
      Checks fs looks fs₁ → fs₁.lstat cwd (child path name) = some node → node ≠ .dir →
      SafeRemoves cwd (child path name) fs₁ last fs₂ removed →
      Run cwd limit depth (.tail path rest (if removed then files + 1 else files)
        (if removed then bytes + node.size else bytes)) fs₂ events fs' out →
      Run cwd limit depth (.head path (name :: rest) files bytes) fs
        (looks ++ (last ++ events)) fs' out
  | dir {depth : Nat} {path : Bytes} {name : Name} {rest : List Name}
      {fs fs₁ fs₂ fs' : FileSystem} {looks inner events : List Event} {files : Int}
      {bytes : UInt64} {out : JobEnd} :
      Checks fs looks fs₁ → fs₁.lstat cwd (child path name) = some .dir →
      Run cwd limit depth (.remove (child path name)) fs₁ inner fs₂ (.returned true) →
      Run cwd limit depth (.tail path rest files bytes) fs₂ events fs' out →
      Run cwd limit depth (.head path (name :: rest) files bytes) fs
        (looks ++ (inner ++ events)) fs' out
  | aborted {depth : Nat} {path : Bytes} {name : Name} {rest : List Name}
      {fs fs₁ fs' : FileSystem} {looks inner : List Event} {files : Int} {bytes : UInt64} :
      Checks fs looks fs₁ → fs₁.lstat cwd (child path name) = some .dir →
      Run cwd limit depth (.remove (child path name)) fs₁ inner fs' (.returned false) →
      Run cwd limit depth (.head path (name :: rest) files bytes) fs (looks ++ inner) fs' .stopped
  | cutBelow {depth : Nat} {path : Bytes} {name : Name} {rest : List Name}
      {fs fs₁ fs' : FileSystem} {looks inner : List Event} {files : Int} {bytes : UInt64} :
      Checks fs looks fs₁ → fs₁.lstat cwd (child path name) = some .dir →
      Run cwd limit depth (.remove (child path name)) fs₁ inner fs' .cut →
      Run cwd limit depth (.head path (name :: rest) files bytes) fs (looks ++ inner) fs' .cut
  | onward {depth : Nat} {path : Bytes} {rest : List Name} {fs fs' : FileSystem}
      {events : List Event} {files : Int} {bytes : UInt64} {out : JobEnd} :
      files < limit → Run cwd limit depth (.head path rest files bytes) fs events fs' out →
      Run cwd limit depth (.tail path rest files bytes) fs events fs' out
  | full {depth : Nat} {path : Bytes} {rest : List Name} {fs : FileSystem} {slow : List Event}
      {files : Int} {bytes : UInt64} :
      limit ≤ files → Glances fs slow fs →
      Run cwd limit depth (.tail path rest files bytes) fs
        (slow ++ [.endBatch files bytes false]) fs .stopped
  | batch {depth : Nat} {path : Bytes} {rest : List Name} {fs fs' : FileSystem}
      {slow events : List Event} {files : Int} {bytes : UInt64} {out : JobEnd} :
      limit ≤ files → Glances fs slow fs →
      Run cwd limit depth (.head path rest 0 0) fs events fs' out →
      Run cwd limit depth (.tail path rest files bytes) fs
        (slow ++ .endBatch files bytes true :: events) fs' out
  | none {depth : Nat} {path : Bytes} {fs : FileSystem} :
      Run cwd limit depth (.children path []) fs [] fs (.returned true)
  | next {depth : Nat} {path : Bytes} {name : Name} {rest : List Name} {fs fs₁ fs' : FileSystem}
      {inner events : List Event} {out : JobEnd} :
      Run cwd limit depth (.remove (child path name)) fs inner fs₁ (.returned true) →
      Run cwd limit depth (.children path rest) fs₁ events fs' out →
      Run cwd limit depth (.children path (name :: rest)) fs (inner ++ events) fs' out
  | stop {depth : Nat} {path : Bytes} {name : Name} {rest : List Name} {fs fs' : FileSystem}
      {inner : List Event} :
      Run cwd limit depth (.remove (child path name)) fs inner fs' (.returned false) →
      Run cwd limit depth (.children path (name :: rest)) fs inner fs' (.returned false)
  | cutChild {depth : Nat} {path : Bytes} {name : Name} {rest : List Name} {fs fs' : FileSystem}
      {inner : List Event} :
      Run cwd limit depth (.remove (child path name)) fs inner fs' .cut →
      Run cwd limit depth (.children path (name :: rest)) fs inner fs' .cut

/-! ## The runs of the code -/

/-- The step from `w` to `w'` logged these events and changed the total by what they say. -/
structure Traced (env : Env) (w w' : World) (events : List Event) : Prop where
  log : w'.log = w.log ++ events
  config : w'.process.config = w.process.config
  total : w'.process.totalBytesFreedRun = w.process.totalBytesFreedRun + freedBytes events
  alone : env.Quiet → Alone events

namespace Traced

variable {env : Env} {w w' w'' : World} {events new : List Event}

theorem of_process (hlog : w'.log = w.log ++ events) (hprocess : w'.process = w.process)
    (hfreed : freedBytes events = 0) (halone : env.Quiet → Alone events) : Traced env w w' events :=
  ⟨hlog, by rw [hprocess], by rw [hprocess, hfreed, UInt64.add_zero], halone⟩

theorem silent (hlog : w'.log = w.log) (hprocess : w'.process = w.process) :
    Traced env w w' [] :=
  of_process (hlog.trans (List.append_nil _).symm) hprocess rfl fun _ => alone_nil

/-- One more entry, which frees nothing. -/
theorem single {event : Event} (hlog : w'.log = w.log ++ [event])
    (hprocess : w'.process = w.process) (hfreed : event.freedBytes = 0)
    (halone : event.isOthers = false) : Traced env w w' [event] :=
  of_process hlog hprocess (by simp [hfreed]) fun _ => by simpa using halone

theorem trans (h : Traced env w w' events) (h' : Traced env w' w'' new) :
    Traced env w w'' (events ++ new) := by
  refine ⟨?_, h'.config.trans h.config, ?_, fun hquiet => ?_⟩
  · rw [h'.log, h.log, List.append_assoc]
  · rw [h'.total, h.total, freedBytes_append, UInt64.add_assoc]
  · exact alone_append.mpr ⟨h.alone hquiet, h'.alone hquiet⟩

theorem next (h : Traced env w w' events) : Traced env w w'.next events :=
  ⟨h.log, h.config, h.total, h.alone⟩

theorem eventsOf_eq {α : Type} {x : Daemon α} (h : Traced env w (x.run w).2 events) :
    eventsOf x w = events := by
  rw [eventsOf, h.log, List.drop_left]

end Traced

/-- Plain events free nothing. -/
theorem freedBytes_plain {looks : List Event} (hplain : ∀ event ∈ looks, event.isPlain = true) :
    freedBytes looks = 0 := by
  induction looks with
  | nil => rfl
  | cons event rest ih =>
      rw [freedBytes_cons, ih fun other hother => hplain other (.tail _ hother)]
      have hevent := hplain event List.mem_cons_self
      cases event <;> first | rfl | cases hevent

namespace Glances

variable {fs fs' fs'' : FileSystem} {looks looks' : List Event}

theorem refl (fs : FileSystem) : Glances fs [] fs := ⟨by simp, fun _ => rfl⟩

theorem trans (h : Glances fs looks fs') (h' : Glances fs' looks' fs'') :
    Glances fs (looks ++ looks') fs'' := by
  constructor
  · intro event hevent
    exact (List.mem_append.mp hevent).elim (h.plain event) (h'.plain event)
  · intro halone
    rw [alone_append] at halone
    rw [h'.still halone.2, h.still halone.1]

theorem all {P : Event → Prop} (h : Glances fs looks fs')
    (hplain : ∀ event, event.isPlain = true → P event) : ∀ event ∈ looks, P event :=
  fun event hevent => hplain event (h.plain event hevent)

/-- An entry of the log that changes nothing. -/
theorem single {event : Event} (hplain : event.isPlain = true) (fs : FileSystem) :
    Glances fs [event] fs :=
  ⟨by simpa using hplain, fun _ => rfl⟩

end Glances

variable {env : Env}

theorem interfere_traced (env : Env) (w : World) :
    ∃ looks, Traced env w (w.interfere env) looks ∧ Glances w.fs looks (w.interfere env).fs ∧
      ∀ event ∈ looks, event.isOthers = true := by
  unfold World.interfere
  split
  · exact ⟨[], .silent rfl rfl, .refl w.fs, by simp⟩
  next hothers =>
    let fs := FsStep.applyAll w.fs (env.others w.tick)
    refine ⟨[.others w.working fs], .of_process rfl rfl rfl fun hquiet => ?_, ?_,
      by simp [Event.isOthers]⟩
    · exact absurd (hquiet w.tick) hothers
    · exact ⟨by simp [Event.isPlain], by simp [Event.isOthers]⟩

/-- A look at an entry yields what is there, or fails and says so. -/
theorem lstat_traced (env : Env) (path : Bytes) (w : World) :
    ∃ node w' looks new, (lstat env path).run w = (some node, w') ∧
      Traced env w w' (looks ++ new) ∧ Glances w.fs looks w'.fs ∧
      (∀ event ∈ looks, event.isOthers = true) ∧
      (node = w'.fs.lstat env.cwd path ∧ new = [] ∨
        node = none ∧ (w'.fs.lstat env.cwd path).isSome ∧ new = [.lstatFailed path]) := by
  obtain ⟨looks, htraced, hglances, hothers⟩ := interfere_traced env w
  obtain ⟨node, w', new, hrun, hfs, hprocess, hlog, hfound⟩ := lstat_run env path w
  have hnew : Traced env (w.interfere env) w' new := by
    refine .of_process hlog (hprocess.trans (interfere_process env w).symm) ?_ fun _ => ?_ <;>
      rcases hfound with ⟨_, rfl⟩ | ⟨_, _, rfl⟩ <;> simp [Event.freedBytes, Event.isOthers]
  rw [← hfs] at hglances hfound
  exact ⟨node, w', looks, new, hrun, htraced.trans hnew, hglances, hothers, hfound⟩

theorem evaluateIdleState_traced (env : Env) (w : World) :
    ∃ idle w' looks, (evaluateIdleState env).run w = (some idle, w') ∧ w'.fs = w.fs ∧
      Traced env w w' looks ∧ Glances w.fs looks w.fs ∧ .idle idle ∈ looks := by
  obtain ⟨tick, made, hrun, hchecks, _⟩ := evaluateIdleState_run env w
  have hmade : (∀ event ∈ made.map Prod.snd, event.isPlain = true) ∧
      Alone (made.map Prod.snd) := by
    rcases hchecks with ⟨_, hmade⟩ | ⟨_, hmade | ⟨on, hmade⟩⟩ <;>
      simp [hmade, Event.isPlain, Event.isOthers]
  have hplain : ∀ event ∈ made.map Prod.snd ++ [.idle (idleVerdict env w)],
      event.isPlain = true := by
    intro event hevent
    rcases List.mem_append.mp hevent with hmem | hmem
    · exact hmade.1 event hmem
    · rw [List.mem_singleton.mp hmem]
      rfl
  refine ⟨_, _, _, hrun, rfl, ⟨rfl, rfl, ?_, fun _ => ?_⟩, ⟨hplain, fun _ => rfl⟩, by simp⟩
  · rw [freedBytes_plain hplain, UInt64.add_zero]
  · simpa [Event.isOthers] using hmade.2

theorem endBatch_traced (env : Env) (files : Int) (bytes : UInt64) (w : World) :
    ∃ proceed w' slow, (endBatch env files bytes).run w = (some proceed, w') ∧ w'.fs = w.fs ∧
      Traced env w w' (slow ++ [.endBatch files bytes proceed]) ∧ Glances w.fs slow w.fs := by
  obtain ⟨tick, slow, proceed, hrun, hslow, _⟩ := endBatch_run env files bytes w
  have hplain : ∀ event ∈ slow, event.isPlain = true := by
    intro event hevent
    obtain ⟨durationMs, rfl⟩ := hslow event hevent
    rfl
  have halone : Alone slow := by
    intro event hevent
    obtain ⟨durationMs, rfl⟩ := hslow event hevent
    rfl
  refine ⟨_, _, slow, hrun, rfl, ⟨rfl, rfl, ?_, fun _ => ?_⟩, ⟨hplain, fun _ => rfl⟩⟩
  · simp [freedBytes_plain hplain, Event.freedBytes]
  · simpa [Event.isOthers] using halone

theorem startBatch_traced (env : Env) (w : World) :
    ∃ w', (startBatch env).run w = (some (), w') ∧ w'.fs = w.fs ∧ Traced env w w' [] :=
  ⟨_, rfl, rfl, (List.append_nil _).symm, rfl, (UInt64.add_zero _).symm, fun _ => alone_nil⟩

/-- A listing yields what is there, or fails. -/
theorem getDirectoryChildren_traced (env : Env) (path : Bytes) (w : World) :
    ∃ children w' looks, (getDirectoryChildren env path).run w = (some children, w') ∧
      Traced env w w' looks ∧ Glances w.fs looks w'.fs ∧
      (children = none ∨ children = listing w'.fs env.cwd path) := by
  obtain ⟨looks, htraced, hglances, _⟩ := interfere_traced env w
  obtain ⟨entries, w₁, new, hrun, hfs, hprocess, hlog, hfound⟩ := listDirectory_run env path w
  let names := entries.map (List.filter fun name => name ≠ dot && name ≠ dotDot)
  have hnew : Glances w₁.fs (new ++ [.listed path names]) w₁.fs ∧
      Alone (new ++ [.listed path names]) := by
    rcases hfound with ⟨_, rfl⟩ | ⟨_, rfl⟩ <;>
      exact ⟨⟨by simp [Event.isPlain], fun _ => rfl⟩, by simp [Event.isOthers]⟩
  have htraced' : Traced env (w.interfere env) (w₁.record (.listed path names))
      (new ++ [.listed path names]) := by
    refine .of_process ?_ (hprocess.trans (interfere_process env w).symm)
      (freedBytes_plain hnew.1.plain) fun _ => hnew.2
    rw [World.record, hlog, List.append_assoc]
  rw [← hfs] at hglances hfound
  refine ⟨names, w₁.record (.listed path names), looks ++ (new ++ [.listed path names]), ?_,
    htraced.trans htraced', hglances.trans hnew.1, ?_⟩
  · rw [getDirectoryChildren, Program.run_bind_of_some hrun]
    rfl
  · rcases hfound with ⟨hlisting, _⟩ | ⟨hnone, _⟩
    · exact Or.inr hlisting
    · left
      simp [names, hnone]

/-- A call that removes does so, fails to, or finds nothing that it could remove. -/
theorem removeEntry_traced (env : Env) {remove : FileSystem → Loc → Option FileSystem}
    (herase : ∀ fs loc fs', remove fs loc = some fs' → fs.erase loc = some fs') (path : Bytes)
    (w : World) :
    ∃ removed w' events, (removeEntry env remove path).run w = (some removed, w') ∧
      Traced env w w' events ∧
      (SafeRemoves env.cwd path w.fs events w'.fs removed ∨
        removed = false ∧ Glances w.fs events w'.fs ∧
          ∀ loc, w'.fs.resolve env.cwd false path = some loc →
            w'.fs.node loc = none ∨ remove w'.fs loc = none) := by
  obtain ⟨looks, htraced, hglances, hothers⟩ := interfere_traced env w
  unfold removeEntry
  dsimp only
  split
  next hnone =>
    refine ⟨false, _, looks, rfl, htraced.next, Or.inr ⟨rfl, hglances, fun loc hloc => ?_⟩⟩
    have hnever := hnone.symm.trans hloc
    cases hnever
  next loc hloc =>
    split
    next node fs hnode hremove =>
      split
      · have hfailed : Traced env (w.interfere env) ((w.interfere env).record (.removeFailed path))
            [.removeFailed path] := .single rfl rfl rfl rfl
        have hthere : ((w.interfere env).fs.node loc).isSome := by rw [hnode]; rfl
        exact ⟨false, _, _, rfl, (htraced.trans hfailed).next,
          Or.inl (.failed hglances rfl hloc hthere)⟩
      · have hremoved : Traced env (w.interfere env)
            ({ w.interfere env with fs }.record (.removed loc node)) [.removed loc node] :=
          .single rfl rfl rfl rfl
        exact ⟨true, _, _, rfl, (htraced.trans hremoved).next,
          Or.inl (.removed hglances hloc hnode (herase _ _ _ hremove) hothers)⟩
    next hfails =>
      refine ⟨false, _, looks, rfl, htraced.next, Or.inr ⟨rfl, hglances, fun other hother => ?_⟩⟩
      obtain rfl := Option.some.inj (hloc.symm.trans hother)
      cases hnode : (w.interfere env).fs.node loc with
      | none => exact Or.inl hnode
      | some node =>
          right
          cases hremove : remove (w.interfere env).fs loc with
          | none => exact hremove
          | some fs => exact (hfails node fs hnode hremove).elim

/-- What holds of plain events and of what `SafeRemove` logs itself. -/
theorem SafeRemoves.all {cwd : Loc} {path : Bytes} {fs fs' : FileSystem} {events : List Event}
    {removed : Bool} {P : Event → Prop} (h : SafeRemoves cwd path fs events fs' removed)
    (hplain : ∀ event, event.isPlain = true → P event) (hresisted : P (.removeFailed path))
    (hunseen : P (.lstatFailed path)) (hremoved : ∀ loc node, P (.removed loc node)) :
    ∀ event ∈ events, P event := by
  cases h with
  | missed hglances _ => exact hglances.all hplain
  | failed hglances hevent _ _ =>
      simp only [List.mem_append, List.mem_singleton, or_imp, forall_and, forall_eq]
      refine ⟨hglances.all hplain, ?_⟩
      rcases Event.failedPath?_eq_some.mp hevent with rfl | rfl
      · exact hresisted
      · exact hunseen
  | removed hglances _ _ _ _ =>
      simpa [or_imp, forall_and] using ⟨hglances.all hplain, hremoved _ _⟩

theorem SafeRemoves.after {cwd : Loc} {path : Bytes} {fs fs₁ fs' : FileSystem}
    {looks events : List Event} {removed : Bool} (h : SafeRemoves cwd path fs₁ events fs' removed)
    (hglances : Glances fs looks fs₁) (hlooks : ∀ event ∈ looks, event.isOthers = true) :
    SafeRemoves cwd path fs (looks ++ events) fs' removed := by
  cases h with
  | missed hmore hdir =>
      refine .missed (hglances.trans hmore) fun halone => ?_
      rw [alone_append] at halone
      rw [← hglances.still halone.1]
      exact hdir halone.2
  | failed hmore hevent hloc hnode =>
      rw [← List.append_assoc]
      exact .failed (hglances.trans hmore) hevent hloc hnode
  | removed hmore hloc hnode herase hothers =>
      rw [← List.append_assoc]
      refine .removed (hglances.trans hmore) hloc hnode herase fun event hevent => ?_
      exact (List.mem_append.mp hevent).elim (hlooks event) (hothers event)

/-- What is not a directory can be unlinked. -/
theorem unlink_isSome {fs : FileSystem} {loc : Loc} {node : Node} (hnode : fs.node loc = some node)
    (hnot : node ≠ .dir) : (fs.unlink loc).isSome := by
  have hleaf : fs.node loc ≠ some .dir := by
    rw [hnode]
    simpa using hnot
  have hroot : loc ≠ [] := by
    rintro rfl
    exact hleaf fs.root_dir
  have herase : (fs.erase loc).isSome := FileSystem.erase_isSome.mpr
    ⟨hroot, by rw [hnode]; rfl, FileSystem.children_eq_nil_of_not_dir hleaf⟩
  unfold FileSystem.unlink
  split
  next hdir => exact absurd hdir hleaf
  next => exact herase

theorem safeRemove_traced (env : Env) (path : Bytes) (w : World) :
    ∃ removed w' events, (safeRemove env path).run w = (some removed, w') ∧
      Traced env w w' events ∧ SafeRemoves env.cwd path w.fs events w'.fs removed := by
  obtain ⟨found, w₁, looks, new, hlstat, htraced, hglances, hothers, hfound⟩ :=
    lstat_traced env path w
  rw [safeRemove, Program.run_bind_of_some hlstat]
  obtain ⟨hnode, rfl⟩ | ⟨rfl, hthere, rfl⟩ := hfound
  swap
  · obtain ⟨node, hnode⟩ := Option.isSome_iff_exists.mp hthere
    obtain ⟨loc, hloc, hnode⟩ := Option.bind_eq_some_iff.mp hnode
    have hevent : (Event.lstatFailed path).failedPath? = some path := rfl
    exact ⟨false, w₁, _, rfl, htraced, .failed hglances hevent hloc (by rw [hnode]; rfl)⟩
  rw [List.append_nil] at htraced
  replace hnode := hnode.symm
  cases found with
  | none =>
      refine ⟨false, w₁, looks, rfl, htraced, .missed hglances fun halone node hsome => ?_⟩
      rw [← hglances.still halone, hnode] at hsome
      cases hsome
  | some node =>
      dsimp only
      split
      next hdir =>
        rw [Node.isDir_iff] at hdir
        obtain ⟨removed, w', events, hrun, htraced', hremoves | ⟨rfl, hmore, _⟩⟩ :=
          removeEntry_traced env (fun _ _ _ h => (FileSystem.rmdir_eq_some h).2) path w₁
        · exact ⟨removed, w', _, hrun, htraced.trans htraced', hremoves.after hglances hothers⟩
        · refine ⟨false, w', _, hrun, htraced.trans htraced',
            .missed (hglances.trans hmore) fun halone other hother => ?_⟩
          rw [alone_append] at halone
          rw [← hglances.still halone.1, hnode, Option.some.injEq] at hother
          rw [← hother, hdir]
      next hdir =>
        obtain ⟨removed, w', events, hrun, htraced', hremoves | ⟨rfl, hmore, hfails⟩⟩ :=
          removeEntry_traced env (fun _ _ _ h => (FileSystem.unlink_eq_some h).2) path w₁
        · exact ⟨removed, w', _, hrun, htraced.trans htraced', hremoves.after hglances hothers⟩
        · refine ⟨false, w', _, hrun, htraced.trans htraced',
            .missed (hglances.trans hmore) fun halone other hother => ?_⟩
          -- a file that is still there can be unlinked
          rw [alone_append] at halone
          obtain ⟨loc, hloc, hthere⟩ := Option.bind_eq_some_iff.mp hnode
          rw [hmore.still halone.2] at hfails
          rcases hfails loc hloc with hnone | hnone
          · rw [hthere] at hnone
            cases hnone
          · have hsome := unlink_isSome hthere fun hdirNode => hdir (Node.isDir_iff.mpr hdirNode)
            rw [hnone] at hsome
            cases hsome

/-! ## The loops -/

def removeEnd : Option Bool → JobEnd
  | none => .cut
  | some completed => .returned completed

def loopEnd : Option (Option (Int × UInt64)) → JobEnd
  | none => .cut
  | some none => .stopped
  | some (some (files, bytes)) => .counts files bytes

/-- From `w` to `w'` the job was done, and ended in this way. -/
def Does (env : Env) (depth : Nat) (job : Job) (w w' : World) (out : JobEnd) : Prop :=
  ∃ events, Traced env w w' events ∧
    Run env.cwd w.process.config.maxFilesPerBatch.toInt depth job w.fs events w'.fs out

/-- The remover does its job from wherever it starts. -/
def Remover (env : Env) (depth : Nat) (recurse : Bytes → Daemon Bool) : Prop :=
  ∀ path w, Does env depth (.remove path) w ((recurse path).run w).2
    (removeEnd ((recurse path).run w).1)

section Loops

variable {depth : Nat} {recurse : Bytes → Daemon Bool} {path : Bytes}

/-- After a child: the batch is closed if it is full. -/
theorem removeTail_does {rest : List Name}
    (hloop : ∀ files bytes w, Does env depth (.head path rest files bytes) w
      ((removeChildren env recurse path rest files bytes).run w).2
      (loopEnd ((removeChildren env recurse path rest files bytes).run w).1))
    (files : Int) (bytes : UInt64) (w : World) :
    let x : Daemon (Option (Int × UInt64)) := do
      let process ← getProcess
      if process.config.maxFilesPerBatch.toInt ≤ files then do
        let proceed ← endBatch env files bytes
        if !proceed then return none
        else do
          startBatch env
          removeChildren env recurse path rest 0 0
      else removeChildren env recurse path rest files bytes
    Does env depth (.tail path rest files bytes) w (x.run w).2 (loopEnd (x.run w).1) := by
  intro x
  have hprocess : getProcess.run w = (some w.process, w) := rfl
  simp only [x, Program.run_bind_of_some hprocess]
  split
  next hfull =>
    obtain ⟨proceed, w₁, slow, hend, hfs, htraced, hslow⟩ := endBatch_traced env files bytes w
    rw [Program.run_bind_of_some hend]
    cases proceed with
    | false =>
        have hrun : Run env.cwd w.process.config.maxFilesPerBatch.toInt depth
            (.tail path rest files bytes) w.fs (slow ++ [.endBatch files bytes false]) w₁.fs
            .stopped := by
          rw [hfs]
          exact .full hfull hslow
        exact ⟨_, htraced, hrun⟩
    | true =>
        obtain ⟨w₂, hstart, hfs₂, htraced₂⟩ := startBatch_traced env w₁
        simp only [Bool.not_true, Bool.false_eq_true, if_false, Program.run_bind_of_some hstart]
        obtain ⟨events, htraced', hrun⟩ := hloop 0 0 w₂
        refine ⟨_, (htraced.trans htraced₂).trans htraced', ?_⟩
        rw [htraced₂.config, htraced.config, hfs₂, hfs] at hrun
        simpa using Run.batch hfull hslow hrun
  next hroom =>
    obtain ⟨events, htraced, hrun⟩ := hloop files bytes w
    exact ⟨events, htraced, .onward (not_le.mp hroom) hrun⟩

/-- By induction on the names. -/
theorem removeChildren_does (hrecurse : Remover env depth recurse) (names : List Name)
    (files : Int) (bytes : UInt64) (w : World) :
    Does env depth (.head path names files bytes) w
      ((removeChildren env recurse path names files bytes).run w).2
      (loopEnd ((removeChildren env recurse path names files bytes).run w).1) := by
  induction names generalizing files bytes w with
  | nil => exact ⟨[], .silent rfl rfl, .nil⟩
  | cons name rest ih =>
      have htail (files : Int) (bytes : UInt64) (w : World) := removeTail_does ih files bytes w
      obtain ⟨idle, w₁, checks, hidle, hfs₁, htraced₁, hglances₁, hcheck⟩ :=
        evaluateIdleState_traced env w
      rw [removeChildren, Program.run_bind_of_some hidle]
      split
      next hbusy =>
        refine ⟨checks, htraced₁, ?_⟩
        simp only [Program.run_pure, loopEnd, hfs₁]
        exact .busy hglances₁
      next hidle =>
        obtain ⟨found, w₂, looks, new, hlstat, htraced₂, hglances₂, _, hfound⟩ :=
          lstat_traced env (child path name) w₁
        rw [hfs₁] at hglances₂
        have hchecks : Checks w.fs (checks ++ looks) w₂.fs :=
          ⟨hglances₁.trans hglances₂, idle, List.mem_append_left _ hcheck⟩
        have htraced := htraced₁.trans htraced₂
        rw [← List.append_assoc] at htraced
        obtain ⟨hnode, rfl⟩ | ⟨rfl, hthere, rfl⟩ := hfound
        swap
        · have hchild : (removeChild env recurse (child path name) files bytes).run w₁ =
              (some (some (files, bytes)), w₂) := by
            rw [removeChild, Program.run_bind_of_some hlstat]
            rfl
          rw [Program.run_bind_of_some hchild]
          obtain ⟨events, htraced₃, hrun⟩ := htail files bytes w₂
          rw [htraced.config] at hrun
          refine ⟨_, ?_, .unseen hchecks hthere hrun⟩
          simpa using htraced.trans htraced₃
        rw [List.append_nil] at htraced
        replace hnode := hnode.symm
        cases found with
        | none =>
            have hchild : (removeChild env recurse (child path name) files bytes).run w₁ =
                (some (some (files, bytes)), w₂) := by
              rw [removeChild, Program.run_bind_of_some hlstat]
              rfl
            rw [Program.run_bind_of_some hchild]
            obtain ⟨events, htraced₃, hrun⟩ := htail files bytes w₂
            rw [htraced.config] at hrun
            exact ⟨_, htraced.trans htraced₃, .gone hchecks hnode hrun⟩
        | some node =>
            by_cases hdir : node = .dir
            · subst hdir
              have hchild : (removeChild env recurse (child path name) files bytes).run w₁ =
                  (recurse (child path name) >>= fun completed =>
                    if completed then pure (some (files, bytes)) else pure none).run w₂ := by
                rw [removeChild, Program.run_bind_of_some hlstat]
                rfl
              obtain ⟨inner, htraced₃, hinner⟩ := hrecurse (child path name) w₂
              rw [htraced.config] at hinner
              rw [Program.run_bind, hchild, Program.run_bind]
              rcases hresult : (recurse (child path name)).run w₂ with ⟨_ | completed, w₃⟩ <;>
                rw [hresult] at htraced₃ hinner
              · exact ⟨_, htraced.trans htraced₃, .cutBelow hchecks hnode hinner⟩
              · cases completed with
                | false => exact ⟨_, htraced.trans htraced₃, .aborted hchecks hnode hinner⟩
                | true =>
                    obtain ⟨events, htraced₄, hrun⟩ := htail files bytes w₃
                    rw [htraced₃.config, htraced.config] at hrun
                    exact ⟨_, htraced.trans (htraced₃.trans htraced₄),
                      .dir hchecks hnode hinner hrun⟩
            · obtain ⟨removed, w₃, last, hremove, htraced₃, hremoves⟩ :=
                safeRemove_traced env (child path name) w₂
              have hchild : (removeChild env recurse (child path name) files bytes).run w₁ =
                  (some (some (if removed then files + 1 else files,
                    if removed then bytes + node.size else bytes)), w₃) := by
                have hnot : node.isDir = false := by
                  rw [Bool.eq_false_iff]
                  exact mt Node.isDir_iff.mp hdir
                rw [removeChild, Program.run_bind_of_some hlstat]
                simp only [hnot, Bool.false_eq_true, if_false, Program.run_bind_of_some hremove]
                cases removed <;> rfl
              rw [Program.run_bind_of_some hchild]
              obtain ⟨events, htraced₄, hrun⟩ := htail _ _ w₃
              rw [htraced₃.config, htraced.config] at hrun
              exact ⟨_, htraced.trans (htraced₃.trans htraced₄),
                .file hchecks hnode hdir hremoves hrun⟩

theorem enter_traced (path : Bytes) (w : World) :
    ∃ w', (enter path).run w = (some (), w') ∧ w'.fs = w.fs ∧ Traced env w w' [.entered path] :=
  ⟨_, rfl, rfl, .single rfl rfl rfl rfl⟩

theorem leave_traced (path : Bytes) (completed : Bool) (w : World) :
    ∃ w', (leave path completed).run w = (some (), w') ∧ w'.fs = w.fs ∧
      Traced env w w' [.left path completed] :=
  ⟨_, rfl, rfl, .single rfl rfl rfl rfl⟩

/-- By induction on the depth. -/
theorem removeRecursiveBatched_does (env : Env) (depth : Nat) :
    Remover env depth (removeRecursiveBatched env depth) := by
  induction depth with
  | zero => exact fun path w => ⟨[], .silent rfl rfl, .deep⟩
  | succ depth ih =>
      intro path w
      obtain ⟨children, w₁, looks, hlist, htraced₁, hglances, hfound⟩ :=
        getDirectoryChildren_traced env path w
      rw [removeRecursiveBatched, Program.run_bind_of_some hlist]
      cases children with
      | none => exact ⟨looks, htraced₁, .refused hglances⟩
      | some names =>
          have hlists : Lists env.cwd path w.fs looks w₁.fs names :=
            ⟨hglances, (hfound.resolve_left (by simp)).symm⟩
          obtain ⟨w₂, henter, hfs₂, htraced₂⟩ := enter_traced path w₁
          obtain ⟨w₃, hstart, hfs₃, htraced₃⟩ := startBatch_traced env w₂
          have hdoes : Does env depth (.head path names 0 0) w₃ _ _ :=
            removeChildren_does ih names 0 0 w₃
          obtain ⟨events, htraced₄, hloop⟩ := hdoes
          have htraced := htraced₁.trans (htraced₂.trans htraced₃)
          rw [htraced.config, hfs₃, hfs₂] at hloop
          simp only [Program.run_bind_of_some henter, Program.run_bind_of_some hstart]
          rw [Program.run_bind]
          rcases hresult :
            (removeChildren env (removeRecursiveBatched env depth) path names 0 0).run w₃ with
            ⟨_ | counts, w₄⟩ <;> rw [hresult] at htraced₄ hloop
          · refine ⟨looks ++ .entered path :: events, ?_, .cutInside hlists hloop⟩
            simpa using htraced.trans htraced₄
          · cases counts with
            | none =>
                obtain ⟨w₅, hleave, hfs₅, htraced₅⟩ := leave_traced path false w₄
                simp only [Program.run_bind_of_some hleave]
                rw [← hfs₅] at hloop
                refine ⟨looks ++ .entered path :: (events ++ [.left path false]), ?_,
                  .givenUp hlists hloop⟩
                simpa using (htraced.trans htraced₄).trans htraced₅
            | some counts =>
                obtain ⟨files, bytes⟩ := counts
                obtain ⟨proceed, w₅, slow, hend, hfs₅, htraced₅, hslow⟩ :=
                  endBatch_traced env files bytes w₄
                obtain ⟨w₆, hleave, hfs₆, htraced₆⟩ := leave_traced path true w₅
                obtain ⟨removed, w₇, last, hremove, htraced₇, hremoves⟩ :=
                  safeRemove_traced env path w₆
                rw [hfs₆, hfs₅] at hremoves
                simp only [Program.run_bind_of_some hend, Program.run_bind_of_some hleave,
                  Program.run_bind_of_some hremove]
                refine ⟨looks ++ .entered path :: (events ++ (slow ++
                  .endBatch files bytes proceed :: .left path true :: last)), ?_,
                  .done hlists hloop hslow hremoves⟩
                have hclosed := (htraced₅.trans htraced₆).trans htraced₇
                simpa using (htraced.trans htraced₄).trans hclosed

/-- By induction on the names. -/
theorem cleanChildren_does (env : Env) (depth : Nat) (path : Bytes) (names : List Name)
    (w : World) :
    Does env depth (.children path names) w ((cleanChildren env depth path names).run w).2
      (removeEnd ((cleanChildren env depth path names).run w).1) := by
  induction names generalizing w with
  | nil => exact ⟨[], .silent rfl rfl, .none⟩
  | cons name rest ih =>
      obtain ⟨inner, htraced, hinner⟩ := removeRecursiveBatched_does env depth (child path name) w
      rw [cleanChildren, Program.run_bind]
      rcases hresult : (removeRecursiveBatched env depth (child path name)).run w with
        ⟨_ | completed, w₁⟩ <;> rw [hresult] at htraced hinner
      · exact ⟨inner, htraced, .cutChild hinner⟩
      · cases completed with
        | false => exact ⟨inner, htraced, .stop hinner⟩
        | true =>
            obtain ⟨events, htraced', hrun⟩ := ih w₁
            rw [htraced.config] at hrun
            exact ⟨_, htraced.trans htraced', .next hinner hrun⟩

end Loops

/-! ## The cleaner -/

/-- `CleanDirectorySafely`: the loop over the children of a directory that could be listed, and
the record of the cleanup if the loop came to its end. -/
inductive Cleanup (cwd : Loc) (limit : Int) (depth : Nat) (path : Bytes) :
    FileSystem → List Event → FileSystem → JobEnd → Prop
  | unlisted {fs fs' : FileSystem} {looks : List Event} :
      Glances fs looks fs' → Cleanup cwd limit depth path fs looks fs' (.returned true)
  | cut {fs fs₁ fs' : FileSystem} {looks events : List Event} {names : List Name} :
      Lists cwd path fs looks fs₁ names →
      Run cwd limit depth (.children path names) fs₁ events fs' .cut →
      Cleanup cwd limit depth path fs (looks ++ .entered path :: events) fs' .cut
  | stopped {fs fs₁ fs' : FileSystem} {looks events : List Event} {names : List Name} :
      Lists cwd path fs looks fs₁ names →
      Run cwd limit depth (.children path names) fs₁ events fs' (.returned false) →
      Cleanup cwd limit depth path fs
        (looks ++ .entered path :: (events ++ [.left path false])) fs' (.returned false)
  | recorded {fs fs₁ fs' : FileSystem} {looks events saved : List Event} {names : List Name}
      {pkgName : Bytes} {now : UInt64} :
      Lists cwd path fs looks fs₁ names →
      Run cwd limit depth (.children path names) fs₁ events fs' (.returned true) →
      Glances fs' saved fs' →
      Cleanup cwd limit depth path fs
        (looks ++ .entered path :: (events ++ .left path true :: .cleaned pkgName now :: saved))
        fs' (.returned true)

theorem saveStateAtomic_traced (env : Env) (w : World) :
    ∃ w' saved, (saveStateAtomic env).run w = (some (), w') ∧ w'.fs = w.fs ∧
      Traced env w w' saved ∧ Glances w.fs saved w.fs := by
  unfold saveStateAtomic
  dsimp only
  split
  · exact ⟨_, [.saved w.process.states], rfl, rfl, .single rfl rfl rfl rfl, .single rfl w.fs⟩
  · exact ⟨_, [], rfl, rfl, .silent rfl rfl, .refl w.fs⟩

theorem cleanDirectorySafely_does (env : Env) (depth : Nat) (targetDir : CacheDirInfo)
    (w : World) :
    ∃ events, Traced env w ((cleanDirectorySafely env depth targetDir).run w).2 events ∧
      Cleanup env.cwd w.process.config.maxFilesPerBatch.toInt depth targetDir.path w.fs events
        ((cleanDirectorySafely env depth targetDir).run w).2.fs
        (removeEnd ((cleanDirectorySafely env depth targetDir).run w).1) := by
  obtain ⟨children, w₁, looks, hlist, htraced₁, hglances, hfound⟩ :=
    getDirectoryChildren_traced env targetDir.path w
  rw [cleanDirectorySafely, Program.run_bind_of_some hlist]
  cases children with
  | none => exact ⟨looks, htraced₁, .unlisted hglances⟩
  | some names =>
      have hlists : Lists env.cwd targetDir.path w.fs looks w₁.fs names :=
        ⟨hglances, (hfound.resolve_left (by simp)).symm⟩
      obtain ⟨w₂, henter, hfs₂, htraced₂⟩ := enter_traced targetDir.path w₁
      obtain ⟨events, htraced₃, hloop⟩ := cleanChildren_does env depth targetDir.path names w₂
      have htraced := (htraced₁.trans htraced₂).trans htraced₃
      rw [htraced₂.config, htraced₁.config, hfs₂] at hloop
      simp only [Program.run_bind_of_some henter]
      rw [Program.run_bind]
      rcases hresult : (cleanChildren env depth targetDir.path names).run w₂ with
        ⟨_ | completed, w₃⟩ <;> rw [hresult] at htraced hloop
      · refine ⟨looks ++ .entered targetDir.path :: events, ?_, .cut hlists hloop⟩
        simpa using htraced
      · obtain ⟨w₄, hleave, hfs₄, htraced₄⟩ := leave_traced targetDir.path completed w₃
        simp only [Program.run_bind_of_some hleave]
        cases completed with
        | false =>
            rw [← hfs₄] at hloop
            refine ⟨looks ++ .entered targetDir.path :: (events ++ [.left targetDir.path false]),
              ?_, .stopped hlists hloop⟩
            simpa using htraced.trans htraced₄
        | true =>
            let now := (env.realtime w₄.tick).ms
            let record := recordCleanup now (getPackageState w₄.process.states targetDir.pkgName)
            let w₅ : World := { w₄ with
              process := { w₄.process with
                states := updatePackageState w₄.process.states targetDir.pkgName record }
              tick := w₄.tick + 1
              log := w₄.log ++ [.cleaned targetDir.pkgName now] }
            have htraced₅ : Traced env w₄ w₅ [.cleaned targetDir.pkgName now] :=
              ⟨rfl, rfl, (UInt64.add_zero _).symm, fun _ => by simp [Event.isOthers]⟩
            obtain ⟨w₆, saved, hsave, hfs₆, htraced₆, hsaved⟩ := saveStateAtomic_traced env w₅
            have hrest : (do
                let process ← getProcess
                let state := getPackageState process.states targetDir.pkgName
                let now ← getCurrentTimeMs env
                setProcess fun p => { p with
                  states := updatePackageState p.states targetDir.pkgName
                    (recordCleanup now state) }
                note (.cleaned targetDir.pkgName now)
                saveStateAtomic env
                return true : Daemon Bool).run w₄ = (some true, w₆) := by
              have hfirst : getProcess.run w₄ = (some w₄.process, w₄) := rfl
              have hnow : (getCurrentTimeMs env).run w₄ = (some now, w₄.next) := rfl
              rw [Program.run_bind_of_some hfirst, Program.run_bind_of_some hnow,
                Program.run_bind_of_some rfl, Program.run_bind_of_some rfl]
              exact Program.run_bind_of_some hsave
            simp only [Bool.not_true, Bool.false_eq_true, if_false]
            rw [hrest]
            have hfs : w₆.fs = w₃.fs := hfs₆.trans hfs₄
            have hthere : Glances w₆.fs saved w₆.fs := by rwa [hfs₆]
            rw [← hfs] at hloop
            refine ⟨looks ++ .entered targetDir.path :: (events ++
              .left targetDir.path true :: .cleaned targetDir.pkgName now :: saved), ?_,
              .recorded hlists hloop hthere⟩
            simpa using ((htraced.trans htraced₄).trans htraced₅).trans htraced₆

end FreshCore
