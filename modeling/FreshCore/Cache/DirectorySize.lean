import Mathlib.Algebra.BigOperators.Group.List.Basic
import Mathlib.Data.UInt
import FreshCore.Cache.PackageScanner
import FreshCore.Daemon.Quiet
import FreshCore.Posix.Pruning

/-!
# Measuring a directory on a tree that nobody else changes

What a measurement comes to depends on the tree, on which of its directories can be listed
and on which of its entries can be looked at. Where each call finds what it always finds, it is
a function of these.
-/

namespace FreshCore

open Posix Imperative Device

variable {env : Env} {answers : Bytes → Option (List Name)} {unseen : Bytes → Bool}

/-- An entry of such a name can never be looked at, as where the name is too long. -/
def Env.Hides (env : Env) (unseen : Bytes → Bool) : Prop :=
  ∀ path, unseen path = true → ∀ tick, env.lstatFails tick path = true

theorem Env.hides_none (env : Env) : env.Hides fun _ => false := nofun

/-- Every listing found what that directory's listing finds, and every entry that was there
could be looked at but for those of such names. -/
structure Heeds (answers : Bytes → Option (List Name)) (unseen : Bytes → Bool)
    (events : List Event) : Prop where
  listed : ∀ path names, .listed path names ∈ events → names = answers path
  seen : ∀ path, .lstatFailed path ∈ events → unseen path = true

instance (answers : Bytes → Option (List Name)) (unseen : Bytes → Bool) (events : List Event) :
    Decidable (Heeds answers unseen events) :=
  let heeds : Event → Bool
    | .listed path names => names = answers path
    | .lstatFailed path => unseen path
    | _ => true
  decidable_of_iff (events.all heeds = true) (by
    rw [List.all_eq_true]
    constructor
    · intro h
      exact ⟨fun path names hmem => of_decide_eq_true (h _ hmem), fun path hmem => h _ hmem⟩
    · intro h event hmem
      cases event with
      | listed path names => exact decide_eq_true (h.listed path names hmem)
      | lstatFailed path => exact h.seen path hmem
      | _ => rfl)

theorem Heeds.left {events new : List Event} (h : Heeds answers unseen (events ++ new)) :
    Heeds answers unseen events :=
  ⟨fun path names hmem => h.listed path names (List.mem_append_left new hmem),
    fun path hmem => h.seen path (List.mem_append_left new hmem)⟩

theorem Heeds.right {events new : List Event} (h : Heeds answers unseen (events ++ new)) :
    Heeds answers unseen new :=
  ⟨fun path names hmem => h.listed path names (List.mem_append_right events hmem),
    fun path hmem => h.seen path (List.mem_append_right events hmem)⟩

/-- The step from `w` to `w'` left the tree as it was, and what it added to the log says
truly of each directory what was found there, or that it could not be listed. -/
structure Looked (env : Env) (w w' : World) (new : List Event) : Prop where
  fs : w'.fs = w.fs
  process : w'.process = w.process
  log : w'.log = w.log ++ new
  listed : ∀ path names, .listed path names ∈ new →
    names = listing w.fs env.cwd path ∨ .listFailed path ∈ new

namespace Looked

variable {w w' w'' : World} {new new' : List Event}

theorem refl (env : Env) (w : World) : Looked env w w [] :=
  ⟨rfl, rfl, (List.append_nil _).symm, by simp⟩

theorem trans (h : Looked env w w' new) (h' : Looked env w' w'' new') :
    Looked env w w'' (new ++ new') := by
  refine ⟨h'.fs.trans h.fs, h'.process.trans h.process, ?_, fun path names hmem => ?_⟩
  · rw [h'.log, h.log, List.append_assoc]
  · rcases List.mem_append.mp hmem with hmem | hmem
    · exact (h.listed path names hmem).imp_right (List.mem_append_left new')
    · rw [← h.fs]
      exact (h'.listed path names hmem).imp_right (List.mem_append_right new)

end Looked

/-- A listing finds what is there or fails, and reports what it found. -/
theorem getDirectoryChildren_looked (hquiet : env.Quiet) (path : Bytes) (w : World) :
    ∃ children w' new, (getDirectoryChildren env path).run w = (some children, w') ∧
      Looked env w w' new ∧ .listed path children ∈ new ∧
      (children = none ∨ children = listing w.fs env.cwd path) := by
  obtain ⟨entries, w₁, new, hrun, hfs, hprocess, hlog, hfound⟩ :=
    listDirectory_quiet hquiet path w
  let names := entries.map (List.filter fun name => name ≠ dot && name ≠ dotDot)
  refine ⟨names, w₁.record (.listed path names), new ++ [.listed path names], ?_, ?_, by simp, ?_⟩
  · rw [getDirectoryChildren, Program.run_bind_of_some hrun]
    rfl
  · refine ⟨hfs, hprocess, ?_, fun other found hmem => ?_⟩
    · simp [World.record, hlog]
    · rcases hfound with ⟨hlisting, rfl⟩ | ⟨_, rfl⟩
      · simp only [List.nil_append, List.mem_singleton, Event.listed.injEq] at hmem
        rw [hmem.1, hmem.2]
        exact Or.inl hlisting
      · simp only [List.cons_append, List.nil_append, List.mem_cons, List.not_mem_nil, or_false,
          reduceCtorEq, false_or, Event.listed.injEq] at hmem
        rw [hmem.1]
        exact Or.inr List.mem_cons_self
  · rcases hfound with ⟨hlisting, _⟩ | ⟨hnone, _⟩
    · exact Or.inr hlisting
    · left
      simp [names, hnone]

/-- What a look at an entry finds. -/
def seenEntry (fs : FileSystem) (cwd : Loc) (unseen : Bytes → Bool) (path : Bytes) :
    Option Node :=
  if unseen path then none else fs.lstat cwd path

/-- A look that always fails finds nothing. -/
theorem lstat_hidden {path : Bytes} {w w' : World} {node : Option Node}
    (hfails : ∀ tick, env.lstatFails tick path = true)
    (hrun : (lstat env path).run w = (some node, w')) : node = none := by
  unfold lstat at hrun
  dsimp only at hrun
  split at hrun
  · cases hrun
    rfl
  · rw [if_pos (hfails _)] at hrun
    cases hrun
    rfl

/-- A look at an entry finds what is there, or fails and reports it. -/
theorem lstat_looked (hquiet : env.Quiet) (hhides : env.Hides unseen) (path : Bytes) (w : World) :
    ∃ node w' new, (lstat env path).run w = (some node, w') ∧ Looked env w w' new ∧
      (node = none ∨ node = w.fs.lstat env.cwd path) ∧
      (Heeds answers unseen new → node = seenEntry w.fs env.cwd unseen path) := by
  obtain ⟨node, w', new, hrun, hfs, hprocess, hlog, hfound⟩ := lstat_quiet hquiet path w
  refine ⟨node, w', new, hrun, ⟨hfs, hprocess, hlog, fun other names hmem => ?_⟩, ?_,
    fun hheeds => ?_⟩
  · rcases hfound with ⟨_, rfl⟩ | ⟨_, _, rfl⟩
    · cases hmem
    · simp at hmem
  · exact hfound.symm.imp And.left And.left
  · rw [seenEntry]
    split
    next hunseen => exact lstat_hidden (hhides path hunseen) hrun
    next hseen =>
      rcases hfound with ⟨hnode, _⟩ | ⟨_, _, rfl⟩
      · exact hnode
      · exact absurd (hheeds.seen path List.mem_cons_self) hseen

/-! ## The size of a directory -/

/-- What an entry adds to the size of its directory. -/
def entrySize (size : Bytes → UInt64) (path : Bytes) : Option Node → UInt64
  | none => 0
  | some node => if node.isDir then size path else node.size

/-- The size that is measured where the calls find this. -/
def measuredSize (fs : FileSystem) (cwd : Loc) (answers : Bytes → Option (List Name))
    (unseen : Bytes → Bool) : Nat → Bytes → UInt64
  | 0, _ => 0
  | depth + 1, path =>
      (((answers path).getD []).map fun name =>
        entrySize (measuredSize fs cwd answers unseen depth) (child path name)
          (seenEntry fs cwd unseen (child path name))).sum

/-- On the tree `fs` the code returns, having looked only, and with that size if its calls found
what they always find. -/
def Measures (env : Env) (answers : Bytes → Option (List Name)) (unseen : Bytes → Bool)
    (fs : FileSystem) (x : Daemon UInt64) (size : UInt64) : Prop :=
  ∀ w, w.fs = fs → ∃ result w' new, x.run w = (some result, w') ∧ Looked env w w' new ∧
    (Heeds answers unseen new → result = size)

variable {fs : FileSystem} {path : Bytes}

theorem sumSizes_measures (hquiet : env.Quiet) (hhides : env.Hides unseen)
    {recurse : Bytes → Daemon UInt64} {size : Bytes → UInt64} {names : List Name}
    (hrecurse : ∀ name ∈ names, fs.lstat env.cwd (child path name) = some .dir →
      Measures env answers unseen fs (recurse (child path name)) (size (child path name)))
    (sum : UInt64) :
    Measures env answers unseen fs (sumSizes env recurse path names sum)
      (sum + (names.map fun name =>
        entrySize size (child path name) (seenEntry fs env.cwd unseen (child path name))).sum) := by
  induction names generalizing sum with
  | nil =>
      intro w _
      exact ⟨sum, w, [], rfl, .refl env w, fun _ => by simp⟩
  | cons name rest ih =>
      intro w hw
      have hrest (sum : UInt64) := ih (fun other hother => hrecurse other (.tail _ hother)) sum
      obtain ⟨found, w₁, looks, hlstat, hlooked, hthere, hseen⟩ :=
        @lstat_looked env answers unseen hquiet hhides (child path name) w
      have hw₁ := hlooked.fs.trans hw
      rw [hw] at hthere hseen
      rw [sumSizes, Program.run_bind_of_some hlstat, List.map_cons, List.sum_cons]
      cases found with
      | none =>
          obtain ⟨result, w', new, hrun, hlooked', hsize⟩ := hrest sum w₁ hw₁
          refine ⟨result, w', looks ++ new, hrun, hlooked.trans hlooked', fun hheeds => ?_⟩
          rw [hsize hheeds.right, ← hseen hheeds.left, entrySize, UInt64.zero_add]
      | some node =>
          have hnode := hthere.resolve_left (by simp)
          dsimp only
          split
          next hdir =>
            obtain rfl := Node.isDir_iff.mp hdir
            obtain ⟨inner, w₂, new₂, hinner, hlooked₂, hinnerSize⟩ :=
              hrecurse name List.mem_cons_self hnode.symm w₁ hw₁
            obtain ⟨result, w', new, hrun, hlooked', hsize⟩ :=
              hrest (sum + inner) w₂ (hlooked₂.fs.trans hw₁)
            refine ⟨result, w', looks ++ new₂ ++ new, ?_, (hlooked.trans hlooked₂).trans hlooked',
              fun hheeds => ?_⟩
            · rw [Program.run_bind_of_some hinner]
              exact hrun
            · rw [hsize hheeds.right, hinnerSize hheeds.left.right, ← hseen hheeds.left.left,
                entrySize, if_pos hdir, UInt64.add_assoc]
          next hdir =>
            obtain ⟨result, w', new, hrun, hlooked', hsize⟩ := hrest (sum + node.size) w₁ hw₁
            refine ⟨result, w', looks ++ new, hrun, hlooked.trans hlooked', fun hheeds => ?_⟩
            rw [hsize hheeds.right, ← hseen hheeds.left, entrySize, if_neg hdir, UInt64.add_assoc]

/-- By induction on the depth: a directory is measured by its entries, each of which lies one
level deeper. -/
theorem getDirectorySize_measures (hquiet : env.Quiet) (hhides : env.Hides unseen) {depth : Nat}
    (hdepth : 0 < depth)
    (hshallow : ∀ loc, fs.resolve env.cwd false path = some loc → fs.Shallow loc depth) :
    Measures env answers unseen fs (getDirectorySize env depth path)
      (measuredSize fs env.cwd answers unseen depth path) := by
  induction depth generalizing path with
  | zero => exact absurd hdepth (Nat.lt_irrefl 0)
  | succ depth ih =>
      intro w hw
      obtain ⟨children, w₁, new₁, hlist, hlooked₁, hlisted, hchildren⟩ :=
        getDirectoryChildren_looked hquiet path w
      rw [getDirectorySize, Program.run_bind_of_some hlist, measuredSize]
      cases children with
      | none =>
          refine ⟨0, w₁, new₁, rfl, hlooked₁, fun hheeds => ?_⟩
          rw [← hheeds.listed path none hlisted]
          rfl
      | some names =>
          have hlisting := hchildren.resolve_left (by simp)
          rw [hw, listing] at hlisting
          obtain ⟨loc, hloc, hdir⟩ := Option.bind_eq_some_iff.mp hlisting.symm
          split at hdir
          next hnode =>
            cases hdir
            have hentries (name : Name) (hname : name ∈ fs.children loc)
                (hchild : fs.lstat env.cwd (child path name) = some .dir) :
                Measures env answers unseen fs (getDirectorySize env depth (child path name))
                  (measuredSize fs env.cwd answers unseen depth (child path name)) := by
              have hfollow := FileSystem.resolve_follow hloc hnode
              have hvalid := FileSystem.children_valid hname
              rw [FileSystem.lstat_child hfollow hnode hvalid] at hchild
              have hbelow := (hshallow loc hloc).entry name
              refine ih (hbelow [] (by rwa [List.append_nil])) fun place hplace => ?_
              rw [FileSystem.resolve_child_dir hfollow hvalid hchild, Option.some.injEq] at hplace
              rwa [← hplace]
            obtain ⟨result, w', new, hrun, hlooked, hsize⟩ :=
              sumSizes_measures hquiet hhides hentries 0 w₁ (hlooked₁.fs.trans hw)
            refine ⟨result, w', new₁ ++ new, hrun, hlooked₁.trans hlooked, fun hheeds => ?_⟩
            rw [hsize hheeds.right, ← hheeds.left.listed path _ hlisted, UInt64.zero_add]
            rfl
          next => cases hdir

end FreshCore
