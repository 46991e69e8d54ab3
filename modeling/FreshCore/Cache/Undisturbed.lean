import FreshCore.Cache.RemovalRuns
import FreshCore.Daemon.Unless

/-!
# Following undisturbed code

A run is disturbed by a check that finds the device in use, a batch that is told to stop, and a
call that fails. In any other run each call returns, and has found and removed what it should;
the rules below follow the tree through such a run.
-/

namespace FreshCore

open Posix Imperative Config Device Cache

/-- A check that finds the device in use, a batch that is told to stop, and a listing or a
removal that fails. -/
def Event.interrupts : Event → Bool
  | idle state => state = .notIdle
  | endBatch _ _ proceed => !proceed
  | listFailed _ => true
  | removeFailed _ => true
  | _ => false

/-- The same, and a look at an entry that fails. -/
def Event.disturbs : Event → Bool
  | lstatFailed _ => true
  | event => event.interrupts

/-- Nothing interrupted the run. -/
def Uninterrupted (events : List Event) : Prop := ¬ Occurs Event.interrupts events

/-- Nothing disturbed it. -/
def Undisturbed (events : List Event) : Prop := ¬ Occurs Event.disturbs events

instance (events : List Event) : Decidable (Uninterrupted events) := by
  unfold Uninterrupted
  infer_instance

instance (events : List Event) : Decidable (Undisturbed events) := by
  unfold Undisturbed
  infer_instance

/-- Every entry that was there could be looked at. -/
def AllSeen (events : List Event) : Prop := ∀ path, .lstatFailed path ∉ events

instance (events : List Event) : Decidable (AllSeen events) :=
  let seen : Event → Bool
    | .lstatFailed _ => false
    | _ => true
  decidable_of_iff (events.all seen = true) (by
    rw [List.all_eq_true]
    constructor
    · intro h path hmem
      cases h _ hmem
    · intro h event hmem
      cases event with
      | lstatFailed path => exact absurd hmem (h path)
      | _ => rfl)

theorem Uninterrupted.undisturbed {events : List Event} (h : Uninterrupted events)
    (hseen : AllSeen events) : Undisturbed events := by
  rintro ⟨event, hevent, hdisturbs⟩
  cases event with
  | lstatFailed path => exact hseen path hevent
  | _ => exact h ⟨_, hevent, hdisturbs⟩

/-- No call failed for an entry that was there. -/
theorem Undisturbed.failedPath?_eq_none {events : List Event} (h : Undisturbed events)
    {event : Event} (hevent : event ∈ events) : event.failedPath? = none := by
  cases hfailed : event.failedPath? with
  | none => rfl
  | some path =>
      refine absurd ⟨event, hevent, ?_⟩ h
      rcases Event.failedPath?_eq_some.mp hfailed with rfl | rfl <;> rfl

/-! ## Following the tree through a run -/

section Steps

variable (mark : Nat)

/-- Unless the run was disturbed, the tree is as described. -/
def Calm (tree : FileSystem → Prop) : World → Prop :=
  Unless Event.disturbs mark fun w => tree w.fs

/-- From a tree as described, an undisturbed run returns, with a result and a tree as
described. -/
def Yields {α : Type} (tree : FileSystem → Prop) (x : Daemon α)
    (result : α → FileSystem → Prop) : Prop :=
  Program.Triple (Calm mark tree) x (fun a => Calm mark (result a)) (Calm mark fun _ => False)

end Steps

variable {env : Env} {mark : Nat} {tree tree' : FileSystem → Prop}

namespace Calm

variable {w w' : World}

theorem mono (h : Calm mark tree w) (htree : tree w.fs → tree' w.fs) : Calm mark tree' w :=
  Unless.mono h htree

theorem silent (h : Calm mark tree w) (hlog : w'.log = w.log)
    (htree : tree w.fs → tree' w'.fs) : Calm mark tree' w' :=
  Unless.silent h hlog htree

/-- A step that reports either has disturbed the run or has kept the tree as described. -/
theorem event (h : Calm mark tree w) {event : Event} (hlog : w'.log = w.log ++ [event])
    (hnext : tree w.fs → event.disturbs = true ∨ tree' w'.fs) : Calm mark tree' w' :=
  Unless.extend h hlog fun _ hw => (hnext hw).imp_left Occurs.single

end Calm

namespace Yields

variable {α β : Type} {x : Daemon α} {result result' : α → FileSystem → Prop}

theorem pure {a : α} (h : ∀ fs, tree fs → result a fs) :
    Yields mark tree (Pure.pure a) result :=
  Program.Triple.pure fun _ hw => hw.mono (h _)

theorem bind {f : α → Daemon β} {final : β → FileSystem → Prop} (hx : Yields mark tree x result)
    (hf : ∀ a, Yields mark (result a) (f a) final) : Yields mark tree (x >>= f) final :=
  Program.Triple.bind hx hf

theorem ite {c : Prop} [Decidable c] {y : Daemon α} (hx : c → Yields mark tree x result)
    (hy : ¬ c → Yields mark tree y result) : Yields mark tree (if c then x else y) result :=
  Program.Triple.ite hx hy

theorem strengthen (hx : Yields mark tree x result) (htree : ∀ fs, tree' fs → tree fs) :
    Yields mark tree' x result :=
  Program.Triple.strengthen hx fun _ hw => hw.mono (htree _)

theorem weaken (hx : Yields mark tree x result) (hresult : ∀ a fs, result a fs → result' a fs) :
    Yields mark tree x result' :=
  Program.Triple.weaken hx fun a _ hw => hw.mono (hresult a _)

/-- A single call: it returns, and has disturbed the run or left the tree as described. -/
theorem of_run (h : ∀ w, ∃ a w' new, x.run w = (some a, w') ∧ w'.log = w.log ++ new ∧
      (tree w.fs → Occurs Event.disturbs new ∨ result a w'.fs)) :
    Yields mark tree x result := by
  intro w hw
  obtain ⟨a, w', new, hrun, hlog, hnext⟩ := h w
  rw [hrun, Program.post_some]
  exact Unless.extend hw hlog fun _ htree => hnext htree

/-- Code that only adds to the log is followed from trees as described only. -/
theorem of_within {scope : Scope} (hwithin : Within env scope x)
    (h : ∀ w, tree w.fs → ∃ a w' new, x.run w = (some a, w') ∧ w'.log = w.log ++ new ∧
      result a w'.fs) :
    Yields mark tree x result := by
  intro w hw
  rcases hw.2 with hoccurs | htree
  · obtain ⟨hmark, new, hsince, _⟩ := (hwithin.reaches w).since hw.1
    rcases hrun : x.run w with ⟨_ | a, w'⟩ <;>
      (rw [hrun] at hmark hsince; exact ⟨hmark, Or.inl (hsince ▸ hoccurs.append new)⟩)
  · obtain ⟨a, w', new, hrun, hlog, hresult⟩ := h w htree
    rw [hrun, Program.post_some]
    exact Unless.extend hw hlog fun _ _ => Or.inr hresult

/-- Nothing is to be shown where no tree is as described. -/
theorem of_impossible {scope : Scope} (hwithin : Within env scope x) (htree : ∀ fs, ¬ tree fs) :
    Yields mark tree x result :=
  of_within hwithin fun w hw => (htree w.fs hw).elim

theorem by_cases (p : FileSystem → Prop)
    (hpos : Yields mark (fun fs => tree fs ∧ p fs) x result)
    (hneg : Yields mark (fun fs => tree fs ∧ ¬ p fs) x result) : Yields mark tree x result := by
  intro w hw
  by_cases hp : p w.fs
  · exact hpos w (hw.mono fun htree => ⟨htree, hp⟩)
  · exact hneg w (hw.mono fun htree => ⟨htree, hp⟩)

/-- What an undisturbed run from `w` comes to. -/
theorem run {w : World} (hx : Yields w.log.length (fun fs => fs = w.fs) x result)
    (hcalm : Undisturbed (eventsOf x w)) :
    ∃ a, (x.run w).1 = some a ∧ result a (x.run w).2.fs := by
  unfold eventsOf at hcalm
  have hpost := hx w (Unless.start _ rfl)
  rcases hrun : x.run w with ⟨_ | a, w'⟩ <;> rw [hrun] at hpost hcalm
  · rw [Program.post_none] at hpost
    exact (Unless.of_not_occurs hpost hcalm).elim
  · rw [Program.post_some] at hpost
    exact ⟨a, rfl, Unless.of_not_occurs hpost hcalm⟩

end Yields

/-! ## Single calls -/

section Calls

variable (hquiet : env.Quiet)

theorem getProcess_yields : Yields mark tree getProcess fun _ => tree :=
  Program.Triple.inspect fun _ hw => hw

theorem setProcess_yields (change : Process → Process) :
    Yields mark tree (setProcess change) fun _ => tree :=
  Program.Triple.update fun _ hw => hw.silent rfl fun htree => htree

theorem sense_yields {α : Type} (read : Nat → α) :
    Yields mark tree (sense read) fun _ => tree :=
  fun _ hw => hw.silent rfl fun htree => htree

theorem note_yields (event : Event) : Yields mark tree (note event) fun _ => tree :=
  Program.Triple.update fun _ hw => hw.event rfl fun htree => Or.inr htree

theorem enter_yields (path : Bytes) : Yields mark tree (enter path) fun _ => tree :=
  Program.Triple.update fun _ hw => hw.event rfl fun htree => Or.inr htree

theorem leave_yields (path : Bytes) (completed : Bool) :
    Yields mark tree (leave path completed) fun _ => tree :=
  Program.Triple.update fun _ hw => hw.event rfl fun htree => Or.inr htree

theorem save_yields : Yields mark tree (saveStateAtomic env) fun _ => tree := by
  intro w hw
  unfold saveStateAtomic
  dsimp only
  split
  · exact hw.event rfl fun htree => Or.inr htree
  · exact hw.silent rfl fun htree => htree

theorem evaluateIdleState_yields :
    Yields mark tree (evaluateIdleState env) fun idle fs => tree fs ∧ idle ≠ .notIdle := by
  refine .of_run fun w => ?_
  obtain ⟨tick, made, hrun, _⟩ := evaluateIdleState_run env w
  refine ⟨_, _, _, hrun, rfl, fun htree => ?_⟩
  by_cases hidle : idleVerdict env w = .notIdle
  · refine Or.inl ⟨.idle (idleVerdict env w), by simp, ?_⟩
    simp [Event.disturbs, Event.interrupts, hidle]
  · exact Or.inr ⟨htree, hidle⟩

theorem startBatch_yields : Yields mark tree (startBatch env) fun _ => tree :=
  .bind (sense_yields _) fun _ => setProcess_yields _

theorem endBatch_yields (filesProcessed : Int) (bytesFreed : UInt64) :
    Yields mark tree (endBatch env filesProcessed bytesFreed)
      fun proceed fs => tree fs ∧ proceed = true := by
  refine .of_run fun w => ?_
  obtain ⟨tick, slow, proceed, hrun, _, _⟩ := endBatch_run env filesProcessed bytesFreed w
  refine ⟨_, _, _, hrun, rfl, fun htree => ?_⟩
  cases proceed with
  | false => exact Or.inl ⟨.endBatch filesProcessed bytesFreed false, by simp, rfl⟩
  | true => exact Or.inr ⟨htree, rfl⟩

include hquiet

theorem lstat_yields (path : Bytes) :
    Yields mark tree (lstat env path) fun node fs =>
      tree fs ∧ node = fs.lstat env.cwd path := by
  refine .of_run fun w => ?_
  obtain ⟨node, w', new, hrun, hfs, _, hlog, hfound⟩ := lstat_quiet hquiet path w
  refine ⟨node, w', new, hrun, hlog, fun htree => ?_⟩
  rw [hfs]
  rcases hfound with ⟨hnode, _⟩ | ⟨_, _, rfl⟩
  · exact Or.inr ⟨htree, hnode⟩
  · exact Or.inl (.single rfl)

theorem listDirectory_yields (path : Bytes) :
    Yields mark tree (listDirectory env path) fun entries fs => tree fs ∧
      entries.map (List.filter fun name => name ≠ dot && name ≠ dotDot) =
        listing fs env.cwd path := by
  refine .of_run fun w => ?_
  obtain ⟨entries, w', new, hrun, hfs, _, hlog, hfound⟩ := listDirectory_quiet hquiet path w
  refine ⟨entries, w', new, hrun, hlog, fun htree => ?_⟩
  rcases hfound with ⟨hlisting, _⟩ | ⟨_, rfl⟩
  · rw [hfs]
    exact Or.inr ⟨htree, hlisting⟩
  · exact Or.inl (.single rfl)

theorem getDirectoryChildren_yields (path : Bytes) :
    Yields mark tree (getDirectoryChildren env path)
      fun children fs => tree fs ∧ children = listing fs env.cwd path := by
  unfold getDirectoryChildren
  refine .bind (listDirectory_yields hquiet path) fun entries => ?_
  exact .bind (note_yields _) fun _ => .pure fun _ h => h

/-- An entry that is a leaf of the tree goes. -/
theorem removeEntry_yields {remove : FileSystem → Loc → Option FileSystem} {path : Bytes}
    {loc : Loc}
    (htree : ∀ fs, tree fs → fs.resolve env.cwd false path = some loc ∧
      ∃ fs', remove fs loc = some fs' ∧ fs.erase loc = some fs') :
    Yields mark tree (removeEntry env remove path) fun removed fs' =>
      removed = true ∧ ∃ fs, tree fs ∧ Pruned (fun other => other = loc) fs fs' := by
  refine .of_run fun w => ?_
  unfold removeEntry
  dsimp only
  rw [interfere_quiet hquiet]
  split
  next hnone =>
    refine ⟨_, _, [], rfl, (List.append_nil _).symm, fun hw => ?_⟩
    rw [(htree _ hw).1] at hnone
    cases hnone
  next place hplace =>
    split
    next node fs' hnode hremove =>
      split
      · exact ⟨_, _, [.removeFailed path], rfl, rfl, fun _ => Or.inl (.single rfl)⟩
      · refine ⟨_, _, [.removed place node], rfl, rfl, fun hw => Or.inr ⟨rfl, w.fs, hw, ?_⟩⟩
        obtain ⟨hloc, fs'', hremove', herase⟩ := htree _ hw
        obtain rfl := Option.some.inj (hplace.symm.trans hloc)
        obtain rfl := Option.some.inj (hremove.symm.trans hremove')
        exact .of_erase herase
    next hfails =>
      refine ⟨_, _, [], rfl, (List.append_nil _).symm, fun hw => ?_⟩
      obtain ⟨hloc, fs', hremove, herase⟩ := htree _ hw
      obtain rfl := Option.some.inj (hplace.symm.trans hloc)
      have hsome : (w.fs.erase place).isSome := by rw [herase]; rfl
      obtain ⟨node, hnode⟩ := Option.isSome_iff_exists.mp (FileSystem.erase_isSome.mp hsome).2.1
      exact (hfails node fs' hnode hremove).elim

/-- `SafeRemove` takes what has no entries. -/
theorem safeRemove_yields {path : Bytes} {loc : Loc} (hroot : loc ≠ [])
    (htree : ∀ fs, tree fs → fs.resolve env.cwd false path = some loc ∧
      (fs.node loc).isSome ∧ fs.children loc = []) :
    Yields mark tree (safeRemove env path) fun removed fs' =>
      removed = true ∧ ∃ fs, tree fs ∧ Pruned (fun other => other = loc) fs fs' := by
  have herase (fs : FileSystem) (hfs : tree fs) : ∃ fs', fs.erase loc = some fs' :=
    Option.isSome_iff_exists.mp (FileSystem.erase_isSome.mpr ⟨hroot, (htree fs hfs).2⟩)
  have hlstat (fs : FileSystem) (hfs : tree fs) : fs.lstat env.cwd path = fs.node loc := by
    rw [FileSystem.lstat, (htree fs hfs).1, Option.bind_some]
  refine .bind (lstat_yields hquiet path) fun node => ?_
  cases node with
  | none =>
      refine .pure fun fs hfs => ?_
      have hsome := (htree fs hfs.1).2.1
      rw [← hlstat fs hfs.1, ← hfs.2] at hsome
      cases hsome
  | some node =>
      have hnode (fs : FileSystem) (hfs : tree fs ∧ some node = fs.lstat env.cwd path) :
          fs.node loc = some node := by rw [← hlstat fs hfs.1, hfs.2]
      have hforget (removed : Bool) (fs' : FileSystem) : (removed = true ∧
          ∃ fs, (tree fs ∧ some node = fs.lstat env.cwd path) ∧
            Pruned (fun other => other = loc) fs fs') →
          removed = true ∧ ∃ fs, tree fs ∧ Pruned (fun other => other = loc) fs fs' := by
        rintro ⟨hremoved, fs, ⟨hfs, _⟩, hpruned⟩
        exact ⟨hremoved, fs, hfs, hpruned⟩
      refine .ite (fun hdir => ?_) fun hdir => ?_
      · refine (removeEntry_yields hquiet fun fs hfs => ⟨(htree fs hfs.1).1, ?_⟩).weaken hforget
        obtain ⟨fs', hfs'⟩ := herase fs hfs.1
        refine ⟨fs', ?_, hfs'⟩
        rw [FileSystem.rmdir, hnode fs hfs, Node.isDir_iff.mp hdir]
        exact hfs'
      · refine (removeEntry_yields hquiet fun fs hfs => ⟨(htree fs hfs.1).1, ?_⟩).weaken hforget
        obtain ⟨fs', hfs'⟩ := herase fs hfs.1
        refine ⟨fs', ?_, hfs'⟩
        rw [FileSystem.unlink, hnode fs hfs]
        cases node with
        | dir => exact absurd rfl hdir
        | file size => exact hfs'
        | symlink target => exact hfs'

end Calls

end FreshCore
