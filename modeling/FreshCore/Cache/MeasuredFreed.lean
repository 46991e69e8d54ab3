import FreshCore.Cache.CleanerComplete
import FreshCore.Cache.DirectorySize
import FreshCore.Cache.FreedBytes
import FreshCore.Posix.Weight

/-!
# The measured size is freed

Both come to the sizes of what stands at and below the directory: the measurement adds them
up entry by entry, the removal in the order in which things go.
-/

namespace FreshCore

open Posix Imperative Config Device Cache

/-- By induction on the depth: the measurement comes to the weight of the tree. -/
theorem measuredSize_eq_weigh {cwd loc : Loc} {fs : FileSystem} {path : Bytes} {depth : Nat}
    (hat : DirAt cwd path loc fs) (hshallow : fs.Shallow loc depth) :
    measuredSize fs cwd (listing fs cwd) (fun _ => false) depth path =
      fs.weigh Node.size (fs.under loc) := by
  induction depth generalizing path loc with
  | zero => exact absurd (hshallow [] (by rw [List.append_nil, hat.dir])) (Nat.lt_irrefl 0)
  | succ depth ih =>
      rw [measuredSize, hat.listing, Option.getD_some, FileSystem.weigh_under_dir _ hat.dir,
        Node.size, UInt64.zero_add]
      apply congrArg List.sum
      apply List.map_congr_left
      intro name hname
      have hentry := FileSystem.mem_children.mp hname
      obtain ⟨node, hnode⟩ := Option.isSome_iff_exists.mp hentry
      rw [seenEntry, if_neg Bool.false_ne_true, hat.lstat_entry hentry, hnode, entrySize]
      by_cases hdir : node = .dir
      · subst hdir
        exact ih (hat.entry hnode) (hshallow.entry name)
      · have hfile : node.isDir = false := Bool.eq_false_iff.mpr (mt Node.isDir_iff.mp hdir)
        rw [FileSystem.weigh_under_leaf _ hnode hdir]
        simp [hfile]

/-- What was removed weighs what stood at its places. -/
theorem removedSize_eq_weigh {fs : FileSystem} {events : List Event}
    (hfound : ∀ loc node, .removed loc node ∈ events → fs.node loc = some node) :
    removedSize events = fs.weigh Node.size (removedLocs events) := by
  induction events with
  | nil => rfl
  | cons event rest ih =>
      rw [removedSize_cons, ih fun loc node hmem => hfound loc node (.tail _ hmem)]
      cases event with
      | removed loc node =>
          have hnode := hfound loc node List.mem_cons_self
          have hsize : (if node.isDir then 0 else node.size) = node.size := by cases node <;> rfl
          rw [Event.removedSize, hsize]
          simp [removedLocs, Event.removedLoc?, FileSystem.weigh, hnode]
      | _ => exact UInt64.zero_add _

/-- When everything went and nothing resisted, each place at and below the directory was emptied
once. -/
theorem Takes.removedLocs_perm {cwd loc : Loc} {fs fs' : FileSystem} {events : List Event}
    (h : Takes cwd (fun place => loc <+: place) fs events fs')
    (hcalm : ∀ event ∈ events, event.failedPath? = none)
    (hgone : ∀ place, loc <+: place → fs'.node place = none) :
    (removedLocs events).Perm (fs.under loc) := by
  have hsame : attempts fs cwd events = removedLocs events := by
    apply List.filterMap_congr
    intro event hevent
    have hnone := hcalm event hevent
    cases event <;> first | rfl | cases hnone
  have hnodup := h.nodup
  have howned := h.owned
  rw [hsame] at hnodup howned
  apply (List.perm_ext_iff_of_nodup hnodup (fs.under_nodup loc)).mpr
  intro place
  rw [FileSystem.mem_under]
  constructor
  · intro hplace
    refine ⟨?_, howned place hplace⟩
    obtain ⟨node, hevent⟩ := mem_removedLocs.mp hplace
    rw [h.node_of_removed hevent]
    rfl
  · rintro ⟨hthere, hpre⟩
    by_contra hkept
    rw [← h.pruned.kept place hkept, hgone place hpre] at hthere
    cases hthere

section Code

variable {env : Env} {depth : Nat} {path : Bytes} {loc : Loc}

/-- Where no call failed, each found what is there. -/
theorem Looked.heeds {w w' : World} {new : List Event} (h : Looked env w w' new)
    (hcalm : Undisturbed new) : Heeds (listing w.fs env.cwd) (fun _ => false) new := by
  refine ⟨fun other names hlisted => ?_, fun other hfailed => absurd ⟨_, hfailed, rfl⟩ hcalm⟩
  apply (h.listed other names hlisted).resolve_right
  exact fun hfailed => hcalm ⟨_, hfailed, rfl⟩

theorem getDirectorySize_weighs (hquiet : env.Quiet) {w : World} (hat : DirAt env.cwd path loc w.fs)
    (hdepth : ∀ loc ∈ w.fs.locs, loc.length < depth)
    (hcalm : Undisturbed (eventsOf (getDirectorySize env depth path) w)) :
    ∃ w', (getDirectorySize env depth path).run w =
      (some (w.fs.weigh Node.size (w.fs.under loc)), w') := by
  have hshallow := FileSystem.shallow_of_locs hdepth
  obtain ⟨size, w', new, hrun, hlooked, hsize⟩ :=
    getDirectorySize_measures hquiet env.hides_none (FileSystem.depth_pos hdepth)
      (fun place _ => hshallow place) w rfl
  have hnew : eventsOf (getDirectorySize env depth path) w = new := by
    rw [eventsOf, hrun, hlooked.log, List.drop_left]
  rw [hnew] at hcalm
  refine ⟨w', ?_⟩
  rw [hrun, hsize (hlooked.heeds hcalm), measuredSize_eq_weigh hat (hshallow loc)]

theorem removeRecursiveBatched_weighs (hquiet : env.Quiet) {w : World}
    (hat : DirAt env.cwd path loc w.fs) (hroot : loc ≠ [])
    (hdepth : ∀ loc ∈ w.fs.locs, loc.length < depth)
    (hcalm : Undisturbed (eventsOf (removeRecursiveBatched env depth path) w)) :
    ∃ w', (removeRecursiveBatched env depth path).run w = (some true, w') ∧
      (∀ place, loc <+: place → w'.fs.node place = none) ∧
      freedBytes (eventsOf (removeRecursiveBatched env depth path) w) =
        w.fs.weigh Node.size (w.fs.under loc) := by
  have hremoves : Yields w.log.length (fun fs => fs = w.fs) (removeRecursiveBatched env depth path)
      fun completed fs' => completed = true ∧
        ∃ fs, fs = w.fs ∧ Pruned (fun place => loc <+: place) fs fs' := by
    apply removeRecursiveBatched_removes hquiet hroot
    rintro fs rfl
    exact ⟨hat, FileSystem.shallow_of_locs hdepth loc⟩
  obtain ⟨completed, hresult, rfl, fs, rfl, hpruned⟩ := hremoves.run hcalm
  obtain ⟨events, htraced, hrun⟩ := removeRecursiveBatched_does env depth path w
  rw [htraced.eventsOf_eq] at hcalm ⊢
  have halone := htraced.alone hquiet
  have htakes := hrun.takes halone (Job.remove_at hat.leads.resolve)
  have hperm := htakes.removedLocs_perm (fun _ => hcalm.failedPath?_eq_none) hpruned.empty
  -- every loop came to its end, so nothing was lost
  rw [hresult] at hrun
  have hlost := lostSize_of_not_abandoned [] (hrun.not_abandoned rfl)
  obtain ⟨_, haccounts, rfl⟩ := hrun.accounts halone []
  have hbalance := haccounts.balance
  simp only [Job.loops, List.sum_nil, UInt64.zero_add, UInt64.add_zero, hlost] at hbalance
  refine ⟨_, Prod.ext hresult rfl, hpruned.empty, ?_⟩
  rw [← hbalance, removedSize_eq_weigh fun _ _ hevent => htakes.node_of_removed hevent,
    FileSystem.weigh_perm _ hperm]

/-- A root cannot be removed, so the directory is another one. What is measured, at some time
before, is what the removal hands over. -/
theorem removal_frees_measured (hquiet : env.Quiet) (before w : World)
    (hdepth : ∀ loc ∈ w.fs.locs, loc.length < depth) (hroot : loc ≠ [])
    (hleads : w.fs.Leads env.cwd false path loc) (hdir : w.fs.node loc = some .dir)
    (hsame : before.fs = w.fs)
    (hmeasured : Undisturbed (eventsOf (getDirectorySize env depth path) before))
    (hremoved : Undisturbed (eventsOf (removeRecursiveBatched env depth path) w)) :
    ∃ size before' w', (getDirectorySize env depth path).run before = (some size, before') ∧
      (removeRecursiveBatched env depth path).run w = (some true, w') ∧
      (∀ place, loc <+: place → w'.fs.node place = none) ∧
      freedBytes (eventsOf (removeRecursiveBatched env depth path) w) = size := by
  have hat : DirAt env.cwd path loc w.fs := ⟨hleads, hdir⟩
  obtain ⟨w', hremove, hgone, hfreed⟩ :=
    removeRecursiveBatched_weighs hquiet hat hroot hdepth hremoved
  rw [← hsame] at hat hdepth
  obtain ⟨before', hsize⟩ := getDirectorySize_weighs hquiet hat hdepth hmeasured
  rw [hsame] at hsize
  exact ⟨_, before', w', hsize, hremove, hgone, hfreed⟩

end Code

theorem removal_frees_measured_linked :
    ∃ size before' w', (getDirectorySize restingDevice 4 (lit "/a")).run linkedFolderWorld =
        (some size, before') ∧
      (removeRecursiveBatched restingDevice 4 (lit "/a")).run linkedFolderWorld =
        (some true, w') ∧
      (∀ place, [lit "a"] <+: place → w'.fs.node place = none) ∧
      freedBytes (eventsOf (removeRecursiveBatched restingDevice 4 (lit "/a"))
        linkedFolderWorld) = size ∧ size = 12 := by
  have hname : lit "/a" = render [lit "a"] := by decide
  have hdir : linkedFolderWorld.fs.node [lit "a"] = some .dir := by decide +kernel
  have hleads : linkedFolderWorld.fs.Leads restingDevice.cwd false (lit "/a") [lit "a"] := by
    rw [hname]
    exact FileSystem.leads_render hdir false
  have hdepth : ∀ loc ∈ linkedFolderWorld.fs.locs, loc.length < 4 := by decide +kernel
  have hmeasured : Undisturbed (eventsOf (getDirectorySize restingDevice 4 (lit "/a"))
      linkedFolderWorld) := by decide +kernel
  have hremoved : Undisturbed (eventsOf (removeRecursiveBatched restingDevice 4 (lit "/a"))
      linkedFolderWorld) := by decide +kernel
  obtain ⟨size, before', w', hsize, hremove, hgone, hfreed⟩ :=
    removal_frees_measured restingDevice_quiet linkedFolderWorld linkedFolderWorld hdepth
      (by decide) hleads hdir rfl hmeasured hremoved
  have hresult : ((getDirectorySize restingDevice 4 (lit "/a")).run linkedFolderWorld).1 =
      some 12 := by decide +kernel
  rw [hsize, Option.some.injEq] at hresult
  exact ⟨size, before', w', hsize, hremove, hgone, hfreed, hresult⟩

end FreshCore
