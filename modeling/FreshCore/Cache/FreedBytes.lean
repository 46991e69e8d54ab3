import FreshCore.Cache.RemovalFrame

/-!
# Freed bytes

Each removal loop counts the bytes it frees and hands them over at the end of a batch. A loop
that is left early hands over nothing, so what it had counted by then is lost; apart from
that every byte arrives in the total.
-/

namespace FreshCore

open Posix Imperative Config Device Cache

/-! ## What the loops hold -/

/-- The size of the file that was removed, if one was. -/
def Event.removedSize : Event → UInt64
  | removed _ node => if node.isDir then 0 else node.size
  | _ => 0

def removedSize (events : List Event) : UInt64 := (events.map Event.removedSize).sum

/-- For each removal loop that is running, innermost first, the size of the files it has removed
since the last batch it handed over. -/
def openLoops : List UInt64 → Event → List UInt64
  | sizes, .entered _ => 0 :: sizes
  | size :: sizes, .removed _ node => (if node.isDir then size else size + node.size) :: sizes
  | _ :: sizes, .endBatch _ _ _ => 0 :: sizes
  | _ :: sizes, .left _ _ => sizes
  | sizes, _ => sizes

/-- What a loop that is left early had not handed over. -/
def Event.lostSize (sizes : List UInt64) : Event → UInt64
  | left _ completed => if completed then 0 else sizes.headD 0
  | _ => 0

/-- The size of the files whose removal no loop reports any more. -/
def lostSize : List UInt64 → List Event → UInt64
  | _, [] => 0
  | sizes, event :: rest => event.lostSize sizes + lostSize (openLoops sizes event) rest

@[simp] theorem removedSize_cons (event : Event) (events : List Event) :
    removedSize (event :: events) = event.removedSize + removedSize events := by
  simp [removedSize]

@[simp] theorem removedSize_append (events new : List Event) :
    removedSize (events ++ new) = removedSize events + removedSize new := by
  simp [removedSize]

theorem lostSize_append (sizes : List UInt64) (events new : List Event) :
    lostSize sizes (events ++ new) =
      lostSize sizes events + lostSize (events.foldl openLoops sizes) new := by
  induction events generalizing sizes with
  | nil => simp [lostSize]
  | cons event rest ih => rw [List.cons_append, lostSize, lostSize, ih, UInt64.add_assoc]; rfl

/-! ## Accounts -/

/-- The events take what the loops hold from the first list to the second, and everything that
was held or removed was handed over, is lost or is still held. -/
structure Accounts (sizes : List UInt64) (events : List Event) (sizes' : List UInt64) : Prop where
  loops : events.foldl openLoops sizes = sizes'
  balance : sizes.sum + removedSize events = freedBytes events + lostSize sizes events + sizes'.sum

namespace Accounts

variable {sizes sizes' sizes'' : List UInt64} {events new : List Event}

theorem nil (sizes : List UInt64) : Accounts sizes [] sizes :=
  ⟨rfl, by simp [removedSize, lostSize]⟩

theorem trans (h : Accounts sizes events sizes') (h' : Accounts sizes' new sizes'') :
    Accounts sizes (events ++ new) sizes'' := by
  constructor
  · rw [List.foldl_append, h.loops, h'.loops]
  · rw [removedSize_append, freedBytes_append, lostSize_append, h.loops, ← UInt64.add_assoc,
      h.balance]
    have hnew := h'.balance
    grind

/-- One event, by what it does to the loops. -/
theorem single {event : Event} (hloops : openLoops sizes event = sizes')
    (hbalance : sizes.sum + event.removedSize =
      event.freedBytes + event.lostSize sizes + sizes'.sum) : Accounts sizes [event] sizes' := by
  refine ⟨hloops, ?_⟩
  simpa [removedSize, freedBytes, lostSize] using hbalance

/-- Plain events leave what the loops hold. -/
theorem of_plain (hplain : ∀ event ∈ events, event.isPlain = true) :
    Accounts sizes events sizes := by
  induction events with
  | nil => exact nil sizes
  | cons event rest ih =>
      have hrest := ih fun other hother => hplain other (.tail _ hother)
      have hsame : openLoops sizes event = sizes ∧ event.removedSize = 0 ∧
          event.freedBytes = 0 ∧ event.lostSize sizes = 0 := by
        have hevent := hplain event List.mem_cons_self
        cases event <;> first | (cases sizes <;> exact ⟨rfl, rfl, rfl, rfl⟩) | cases hevent
      obtain ⟨hloops, hremoved, hfreed, hlost⟩ := hsame
      have hfirst : Accounts sizes [event] sizes :=
        single hloops (by simp [hremoved, hfreed, hlost])
      exact hfirst.trans hrest

theorem entered (path : Bytes) (sizes : List UInt64) :
    Accounts sizes [.entered path] (0 :: sizes) :=
  single (by cases sizes <;> rfl) (by simp [Event.removedSize, Event.freedBytes, Event.lostSize])

/-- A batch hands over what its loop holds. -/
theorem endBatch (files : Int) (size : UInt64) (proceed : Bool) (sizes : List UInt64) :
    Accounts (size :: sizes) [.endBatch files size proceed] (0 :: sizes) :=
  single rfl (by simp [Event.removedSize, Event.freedBytes, Event.lostSize])

theorem completed (path : Bytes) (sizes : List UInt64) :
    Accounts (0 :: sizes) [.left path true] sizes :=
  single rfl (by simp [Event.removedSize, Event.freedBytes, Event.lostSize])

/-- A loop that is left early loses what it holds. -/
theorem abandoned (path : Bytes) (size : UInt64) (sizes : List UInt64) :
    Accounts (size :: sizes) [.left path false] sizes :=
  single rfl (by simp [Event.removedSize, Event.freedBytes, Event.lostSize])

theorem removedFile {node : Node} (hnot : node ≠ .dir) (loc : Loc) (size : UInt64)
    (sizes : List UInt64) :
    Accounts (size :: sizes) [.removed loc node] ((size + node.size) :: sizes) := by
  have hfile : node.isDir = false := Bool.eq_false_iff.mpr (mt Node.isDir_iff.mp hnot)
  apply single (by simp [openLoops, hfile])
  simp only [Event.removedSize, hfile, Event.freedBytes, Event.lostSize, List.sum_cons]
  grind

theorem removedDir (loc : Loc) (sizes : List UInt64) :
    Accounts sizes [.removed loc .dir] sizes := by
  apply single ?_ (by simp [Event.removedSize, Event.freedBytes, Event.lostSize, Node.isDir])
  cases sizes <;> rfl

theorem failed {event : Event} {path : Bytes} (hfailed : event.failedPath? = some path)
    (sizes : List UInt64) : Accounts sizes [event] sizes := by
  rcases Event.failedPath?_eq_some.mp hfailed with rfl | rfl
  all_goals
    apply single ?_ (by simp [Event.removedSize, Event.freedBytes, Event.lostSize])
    cases sizes <;> rfl

end Accounts

/-! ## The accounts of a run -/

/-- What the job's own loop holds, on top of those around it. -/
def Job.loops (sizes : List UInt64) : Job → List UInt64
  | .remove _ => sizes
  | .head _ _ _ bytes => bytes :: sizes
  | .tail _ _ _ bytes => bytes :: sizes
  | .children _ _ => sizes

/-- What is held when the job has ended in this way. -/
def JobEnd.Leaves (sizes : List UInt64) : JobEnd → List UInt64 → Prop
  | .returned _, sizes' => sizes' = sizes
  | .counts _ bytes, sizes' => sizes' = bytes :: sizes
  | .stopped, sizes' => ∃ size, sizes' = size :: sizes
  | .cut, _ => True

section Runs

variable {cwd : Loc} {limit : Int} {depth : Nat} {path : Bytes} {job : Job} {fs fs' : FileSystem}
  {events : List Event} {out : JobEnd}

/-- The loop counts what `SafeRemove` takes. -/
theorem SafeRemoves.accounts_file {node : Node} {removed : Bool}
    (h : SafeRemoves cwd path fs events fs' removed) (halone : Alone events)
    (hnode : fs.lstat cwd path = some node) (hnot : node ≠ .dir) (size : UInt64)
    (sizes : List UInt64) :
    Accounts (size :: sizes) events ((if removed then size + node.size else size) :: sizes) := by
  cases h with
  | missed hglances _ => exact .of_plain hglances.plain
  | failed hglances hfailed _ _ =>
      exact (Accounts.of_plain hglances.plain).trans (.failed hfailed _)
  | removed hglances hloc hother herase =>
      rw [alone_append] at halone
      rw [hglances.still halone.1] at hloc hother
      rw [FileSystem.lstat, hloc, Option.bind_some, hother, Option.some.injEq] at hnode
      subst hnode
      exact (Accounts.of_plain hglances.plain).trans (.removedFile hnot _ size sizes)

/-- The directory itself has no size. -/
theorem SafeRemoves.accounts_dir {removed : Bool}
    (h : SafeRemoves cwd path fs events fs' removed) (halone : Alone events)
    (hdir : ∀ loc, fs.resolve cwd false path = some loc → ∀ node, fs.node loc = some node →
      node = .dir) (sizes : List UInt64) : Accounts sizes events sizes := by
  cases h with
  | missed hglances _ => exact .of_plain hglances.plain
  | failed hglances hfailed _ _ =>
      exact (Accounts.of_plain hglances.plain).trans (.failed hfailed _)
  | removed hglances hloc hnode herase =>
      rw [alone_append] at halone
      rw [hglances.still halone.1] at hloc hnode
      obtain rfl := hdir _ hloc _ hnode
      exact (Accounts.of_plain hglances.plain).trans (.removedDir _ sizes)

/-- What was listed as a directory is one, or is gone, after its loop. -/
theorem Lists.still_dir {looks : List Event} {fs₁ fs₂ : FileSystem} {names : List Name}
    {files : Int} {bytes : UInt64} (h : Lists cwd path fs looks fs₁ names)
    (hrun : Run cwd limit depth (.head path names files bytes) fs₁ events fs₂ out)
    (halone : Alone events) (loc : Loc) (hloc : fs₂.resolve cwd false path = some loc)
    (node : Node) (hnode : fs₂.node loc = some node) : node = .dir := by
  have hlisting := h.listing
  rw [FreshCore.listing] at hlisting
  obtain ⟨place, hplace, hdir⟩ := Option.bind_eq_some_iff.mp hlisting
  have hentries := h.entriesAt (Job.remove_at hplace)
  have hsub := (hrun.takes halone hentries).pruned.subtree
  obtain rfl := Option.some.inj ((hsub.resolve hloc).symm.trans hplace)
  split at hdir
  next hthere =>
    have hbefore := hsub _ _ hnode
    rw [hthere, Option.some.injEq] at hbefore
    exact hbefore.symm
  next => cases hdir

/-- By induction on the run: each loop holds what it counts. -/
theorem Run.accounts (h : Run cwd limit depth job fs events fs' out) (halone : Alone events)
    (sizes : List UInt64) :
    ∃ sizes', Accounts (job.loops sizes) events sizes' ∧ out.Leaves sizes sizes' := by
  induction h generalizing sizes with
  | deep => exact ⟨sizes, .nil sizes, trivial⟩
  | refused hglances => exact ⟨sizes, .of_plain hglances.plain, rfl⟩
  | @givenUp depth path _ _ _ _ _ _ hlists _ ih =>
      simp only [alone_append, alone_cons] at halone
      obtain ⟨_, hloop, size, rfl⟩ := ih halone.2.2.1 sizes
      exact ⟨sizes, (Accounts.of_plain hlists.glances.plain).trans
        ((Accounts.entered path sizes).trans (hloop.trans (.abandoned path size sizes))), rfl⟩
  | @cutInside _ path _ _ _ _ _ _ hlists _ ih =>
      simp only [alone_append, alone_cons] at halone
      obtain ⟨sizes', hloop, _⟩ := ih halone.2.2 sizes
      exact ⟨sizes', (Accounts.of_plain hlists.glances.plain).trans
        ((Accounts.entered path sizes).trans hloop), trivial⟩
  | @done depth path _ _ _ _ _ _ _ _ _ files bytes proceed _ hlists hrun hslow hlast ih =>
      simp only [alone_append, alone_cons] at halone
      obtain ⟨halone₁, -, halone₂, halone₃, -, -, halone₄⟩ := halone
      obtain ⟨_, hloop, rfl⟩ := ih halone₂ sizes
      have hself := hlast.accounts_dir halone₄ (hlists.still_dir hrun halone₂) sizes
      have hended := (Accounts.of_plain hslow.plain).trans
        ((Accounts.endBatch files bytes proceed sizes).trans
          ((Accounts.completed path sizes).trans hself))
      exact ⟨sizes, (Accounts.of_plain hlists.glances.plain).trans
        ((Accounts.entered path sizes).trans (hloop.trans hended)), rfl⟩
  | nil => exact ⟨_, .nil _, rfl⟩
  | busy hglances => exact ⟨_, .of_plain hglances.plain, _, rfl⟩
  | gone hchecks _ _ ih =>
      rw [alone_append] at halone
      obtain ⟨sizes', hrest, hleaves⟩ := ih halone.2 sizes
      exact ⟨sizes', (Accounts.of_plain hchecks.glances.plain).trans hrest, hleaves⟩
  | @unseen _ path name _ _ _ _ _ _ _ bytes _ hchecks _ _ ih =>
      simp only [alone_append, alone_cons] at halone
      obtain ⟨sizes', hrest, hleaves⟩ := ih halone.2.2 sizes
      have hskipped : Accounts (bytes :: sizes) [.lstatFailed (child path name)] _ :=
        .failed rfl (bytes :: sizes)
      exact ⟨sizes', (Accounts.of_plain hchecks.glances.plain).trans (hskipped.trans hrest),
        hleaves⟩
  | @file _ _ _ _ _ _ _ _ _ _ _ _ bytes node removed _ hchecks hnode hnot hremoves _ ih =>
      simp only [alone_append] at halone
      obtain ⟨sizes', hrest, hleaves⟩ := ih halone.2.2 sizes
      have hfile := hremoves.accounts_file halone.2.1 hnode hnot bytes sizes
      exact ⟨sizes', (Accounts.of_plain hchecks.glances.plain).trans (hfile.trans hrest), hleaves⟩
  | dir hchecks _ _ _ ihinner ih =>
      simp only [alone_append] at halone
      obtain ⟨_, hinner, rfl⟩ := ihinner halone.2.1 (_ :: sizes)
      obtain ⟨sizes', hrest, hleaves⟩ := ih halone.2.2 sizes
      exact ⟨sizes', (Accounts.of_plain hchecks.glances.plain).trans (hinner.trans hrest), hleaves⟩
  | aborted hchecks _ _ ih =>
      rw [alone_append] at halone
      obtain ⟨_, hinner, rfl⟩ := ih halone.2 (_ :: sizes)
      exact ⟨_, (Accounts.of_plain hchecks.glances.plain).trans hinner, _, rfl⟩
  | cutBelow hchecks _ _ ih =>
      rw [alone_append] at halone
      obtain ⟨sizes', hinner, _⟩ := ih halone.2 (_ :: sizes)
      exact ⟨sizes', (Accounts.of_plain hchecks.glances.plain).trans hinner, trivial⟩
  | onward _ _ ih => exact ih halone sizes
  | @full _ _ _ _ _ files bytes _ hslow =>
      exact ⟨_, (Accounts.of_plain hslow.plain).trans (.endBatch files bytes false sizes), 0, rfl⟩
  | @batch _ _ _ _ _ _ _ files bytes _ _ hslow _ ih =>
      simp only [alone_append, alone_cons] at halone
      obtain ⟨sizes', hrest, hleaves⟩ := ih halone.2.2 sizes
      exact ⟨sizes', (Accounts.of_plain hslow.plain).trans
        ((Accounts.endBatch files bytes true sizes).trans hrest), hleaves⟩
  | none => exact ⟨sizes, .nil sizes, rfl⟩
  | next _ _ ihinner ih =>
      rw [alone_append] at halone
      obtain ⟨sizes, hinner, rfl⟩ := ihinner halone.1 sizes
      obtain ⟨sizes', hrest, hleaves⟩ := ih halone.2 sizes
      exact ⟨sizes', hinner.trans hrest, hleaves⟩
  | stop _ ih => exact ih halone sizes
  | cutChild _ ih => exact ih halone sizes

/-- The job came to its end. -/
def JobEnd.completed : JobEnd → Bool
  | .returned completed => completed
  | .counts _ _ => true
  | .stopped => false
  | .cut => false

/-- A loop was left early. -/
def Event.isAbandoned : Event → Bool
  | left _ completed => !completed
  | _ => false

theorem Event.not_abandoned (event : Event) (hplain : event.isPlain = true) :
    event.isAbandoned = false := by
  cases event <;> first | rfl | cases hplain

/-- Where the job came to its end, so did every loop within it. -/
theorem Run.not_abandoned (h : Run cwd limit depth job fs events fs' out)
    (hout : out.completed = true) : ∀ event ∈ events, event.isAbandoned = false := by
  induction h with
  | done hlists _ hslow hlast ih =>
      have hlists := hlists.glances.all Event.not_abandoned
      have hslow := hslow.all Event.not_abandoned
      have hlast := hlast.all Event.not_abandoned rfl rfl fun _ _ => rfl
      simp only [List.mem_append, List.mem_cons, or_imp, forall_and, forall_eq]
      exact ⟨hlists, rfl, ih rfl, hslow, rfl, rfl, hlast⟩
  | nil => simp
  | gone hchecks _ _ ih =>
      simpa [or_imp, forall_and] using ⟨hchecks.glances.all Event.not_abandoned, ih hout⟩
  | unseen hchecks _ _ ih =>
      simpa [or_imp, forall_and, Event.isAbandoned] using
        ⟨hchecks.glances.all Event.not_abandoned, ih hout⟩
  | file hchecks _ _ hremoves _ ih =>
      have hchecks := hchecks.glances.all Event.not_abandoned
      have hremoves := hremoves.all Event.not_abandoned rfl rfl fun _ _ => rfl
      simpa [or_imp, forall_and] using ⟨hchecks, hremoves, ih hout⟩
  | dir hchecks _ _ _ ihinner ih =>
      have hchecks := hchecks.glances.all Event.not_abandoned
      simpa [or_imp, forall_and] using ⟨hchecks, ihinner rfl, ih hout⟩
  | onward _ _ ih => exact ih hout
  | batch _ hslow _ ih =>
      simpa [or_imp, forall_and, Event.isAbandoned] using ⟨hslow.all Event.not_abandoned, ih hout⟩
  | none => simp
  | next _ _ ihinner ih => simpa [or_imp, forall_and] using ⟨ihinner rfl, ih hout⟩
  | _ => cases hout

/-- Only loops that are left early lose anything. -/
theorem lostSize_of_not_abandoned (sizes : List UInt64)
    (hevents : ∀ event ∈ events, event.isAbandoned = false) : lostSize sizes events = 0 := by
  induction events generalizing sizes with
  | nil => rfl
  | cons event rest ih =>
      have hevent := hevents event List.mem_cons_self
      have hlost : event.lostSize sizes = 0 := by
        cases event with
        | left path completed =>
            rw [Event.isAbandoned, Bool.not_eq_false'] at hevent
            rw [Event.lostSize, if_pos hevent]
        | _ => rfl
      rw [lostSize, hlost, ih _ fun other hother => hevents other (.tail _ hother), UInt64.add_zero]

end Runs

/-! ## The total -/

/-- When no other process changes the tree, a call that returns has added to the total what it
removed, but for what was lost. -/
theorem removeRecursiveBatched_accounts {env : Env} {depth : Nat} {path : Bytes} {w w' : World}
    {completed : Bool}
    (hresult : (removeRecursiveBatched env depth path).run w = (some completed, w'))
    (halone : Alone (eventsOf (removeRecursiveBatched env depth path) w)) :
    w.process.totalBytesFreedRun +
        removedSize (eventsOf (removeRecursiveBatched env depth path) w) =
      w'.process.totalBytesFreedRun +
        lostSize [] (eventsOf (removeRecursiveBatched env depth path) w) := by
  obtain ⟨events, htraced, hrun⟩ := removeRecursiveBatched_does env depth path w
  rw [htraced.eventsOf_eq] at halone ⊢
  rw [hresult] at htraced hrun
  obtain ⟨_, haccounts, rfl⟩ := hrun.accounts halone []
  have hbalance := haccounts.balance
  simp only [Job.loops, List.sum_nil, UInt64.zero_add, UInt64.add_zero] at hbalance
  rw [htraced.total, hbalance, UInt64.add_assoc]

/-- The call returns, and it has added the size of what it removed just when nothing was lost. -/
theorem removeRecursiveBatched_accounted_iff (env : Env) (depth : Nat) (path : Bytes) (w : World)
    (hdepth : ∀ loc ∈ w.fs.locs, loc.length < depth)
    (halone : Alone (eventsOf (removeRecursiveBatched env depth path) w)) :
    ∃ completed w', (removeRecursiveBatched env depth path).run w = (some completed, w') ∧
      (w'.process.totalBytesFreedRun = w.process.totalBytesFreedRun +
          removedSize (eventsOf (removeRecursiveBatched env depth path) w) ↔
        lostSize [] (eventsOf (removeRecursiveBatched env depth path) w) = 0) := by
  obtain ⟨completed, hcompleted⟩ :=
    Option.isSome_iff_exists.mp (removeRecursiveBatched_isSome hdepth halone)
  refine ⟨completed, _, Prod.ext hcompleted rfl, ?_⟩
  rw [removeRecursiveBatched_accounts (Prod.ext hcompleted rfl) halone, UInt64.left_eq_add]

/-- A directory with two files. -/
def twoFilesWorld : World where
  fs := FsStep.applyAll .bare [
    .mkdir [] (lit "a"),
    .create [lit "a"] (lit "x") 10,
    .create [lit "a"] (lit "y") 20]

/-- The screen goes on while the first file is being removed. -/
def interruptedDevice : Env :=
  { restingDevice with
    screen := fun tick => { brightness := some (if tick < 5 then 0 else 100), wakefulness := [] } }

theorem removeRecursiveBatched_accounted_iff_twoFiles :
    ∃ completed w', (removeRecursiveBatched restingDevice 3 (lit "/a")).run twoFilesWorld =
        (some completed, w') ∧
      w'.process.totalBytesFreedRun = 30 ∧
      removedSize
        (eventsOf (removeRecursiveBatched restingDevice 3 (lit "/a")) twoFilesWorld) = 30 ∧
      lostSize []
        (eventsOf (removeRecursiveBatched restingDevice 3 (lit "/a")) twoFilesWorld) = 0 := by
  obtain ⟨completed, w', hrun, haccounted⟩ :=
    removeRecursiveBatched_accounted_iff restingDevice 3 (lit "/a") twoFilesWorld
      (by decide +kernel) (by decide +kernel)
  have htotal : ((removeRecursiveBatched restingDevice 3 (lit "/a")).run
      twoFilesWorld).2.process.totalBytesFreedRun = 30 := by decide +kernel
  have hremoved : removedSize (eventsOf (removeRecursiveBatched restingDevice 3 (lit "/a"))
      twoFilesWorld) = 30 := by decide +kernel
  rw [hrun] at htotal
  refine ⟨completed, w', hrun, htotal, hremoved, haccounted.mp ?_⟩
  rw [htotal, hremoved]
  rfl

/-- The first file is gone, its size is not in the total. -/
theorem removeRecursiveBatched_unaccounted :
    ((removeRecursiveBatched interruptedDevice 3 (lit "/a")).run twoFilesWorld).1 = some false ∧
    Alone (eventsOf (removeRecursiveBatched interruptedDevice 3 (lit "/a")) twoFilesWorld) ∧
    removedSize
      (eventsOf (removeRecursiveBatched interruptedDevice 3 (lit "/a")) twoFilesWorld) = 10 ∧
    ((removeRecursiveBatched interruptedDevice 3 (lit "/a")).run
        twoFilesWorld).2.process.totalBytesFreedRun ≠
      twoFilesWorld.process.totalBytesFreedRun + removedSize
        (eventsOf (removeRecursiveBatched interruptedDevice 3 (lit "/a")) twoFilesWorld) := by
  decide +kernel

end FreshCore
