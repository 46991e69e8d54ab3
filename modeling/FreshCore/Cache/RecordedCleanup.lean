import FreshCore.Cache.CleanerComplete
import FreshCore.Cache.FreedBytes

/-!
# What a recorded cleanup left

A removal that comes to its end has come to every file, or to an entry around it that it could
not look at. What resisted is still there, and the cleanup is recorded all the same.
-/

namespace FreshCore

open Posix Imperative Config Device Cache

/-! ## Every file is come to -/

/-- Entries of these names stand in the directory `loc`, which the path leads to whatever happens
below it. -/
structure ListedAt (cwd : Loc) (fs : FileSystem) (path : Bytes) (loc : Loc)
    (names : List Name) : Prop where
  dirAt : DirAt cwd path loc fs
  nodup : names.Nodup
  present : ∀ name ∈ names, (fs.node (loc ++ [name])).isSome

namespace ListedAt

variable {cwd loc : Loc} {fs fs' : FileSystem} {path : Bytes} {name : Name} {rest : List Name}

theorem entriesAt {names : List Name} (h : ListedAt cwd fs path loc names) :
    EntriesAt cwd fs path loc names := by
  refine ⟨h.nodup, fun name hname => ?_⟩
  exact Job.remove_at (h.dirAt.resolve_entry (h.present name hname))

theorem tail (h : ListedAt cwd fs path loc (name :: rest)) : ListedAt cwd fs path loc rest :=
  ⟨h.dirAt, (List.nodup_cons.mp h.nodup).2, fun other hother => h.present other (.tail _ hother)⟩

/-- The others stay whatever is taken at and below the first one. -/
theorem takes {events : List Event} (h : ListedAt cwd fs path loc (name :: rest))
    (htakes : Takes cwd (fun place => loc ++ [name] <+: place) fs events fs') :
    ListedAt cwd fs' path loc rest := by
  have howned (place : Loc) (hplace : place ∈ removedLocs events) : loc ++ [name] <+: place :=
    htakes.owned place (mem_attempts.mpr (Or.inl hplace))
  refine ⟨h.dirAt.pruned htakes.pruned fun place hplace => ?_, h.tail.nodup,
    fun other hother => ?_⟩
  · exact (below_child loc name).trans (howned place hplace)
  · rw [htakes.pruned.kept]
    · exact h.present other (.tail _ hother)
    · exact fun hplace => h.entriesAt.apart (howned _ hplace) ⟨other, hother, List.prefix_rfl⟩

/-- An entry is led to, and if it is a directory, then whatever happens below it. -/
theorem head (h : ListedAt cwd fs path loc (name :: rest)) :
    fs.resolve cwd false (child path name) = some (loc ++ [name]) ∧
      (fs.node (loc ++ [name]) = some .dir → DirAt cwd (child path name) (loc ++ [name]) fs) :=
  ⟨h.dirAt.resolve_entry (h.present name List.mem_cons_self), h.dirAt.entry⟩

end ListedAt

/-- The job's names lead where they should, and go on doing so. -/
def Job.Ready (cwd : Loc) (fs : FileSystem) (loc : Loc) : Job → Prop
  | .remove path => fs.resolve cwd false path = some loc ∧
      (fs.node loc = some .dir → DirAt cwd path loc fs)
  | .head path names _ _ => ListedAt cwd fs path loc names
  | .tail path rest _ _ => ListedAt cwd fs path loc rest
  | .children path names => ListedAt cwd fs path loc names

theorem Job.Ready.at {cwd loc : Loc} {fs : FileSystem} {job : Job} (h : job.Ready cwd fs loc) :
    job.At cwd fs loc := by
  cases job with
  | remove path => exact Job.remove_at h.1
  | head path names files bytes => exact ListedAt.entriesAt h
  | tail path rest files bytes => exact ListedAt.entriesAt h
  | children path names => exact ListedAt.entriesAt h

/-- The place was emptied, or is at or below one whose entry could not be looked at or not be
removed. -/
def Reached (fs : FileSystem) (cwd : Loc) (events : List Event) (place : Loc) : Prop :=
  place ∈ removedLocs events ∨ ∃ loc, FailedAt fs cwd events loc ∧ loc <+: place

/-- Each file at a place of this kind was come to. -/
def Tries (cwd : Loc) (owns : Loc → Prop) (fs : FileSystem) (events : List Event) : Prop :=
  ∀ place node, owns place → fs.node place = some node → node ≠ .dir →
    Reached fs cwd events place

section Tries

variable {cwd loc : Loc} {owns : Loc → Prop} {fs fs' : FileSystem} {events new : List Event}
  {path : Bytes} {name : Name} {rest : List Name}

theorem Reached.after {place : Loc} (h : Reached fs cwd new place) (events : List Event) :
    Reached fs cwd (events ++ new) place := by
  rcases h with hremoved | ⟨loc, ⟨event, hevent, hfailed⟩, hpre⟩
  · rw [Reached, removedLocs_append]
    exact Or.inl (List.mem_append_right _ hremoved)
  · exact Or.inr ⟨loc, ⟨event, List.mem_append_right _ hevent, hfailed⟩, hpre⟩

theorem Reached.before {place : Loc} (h : Reached fs cwd events place) (new : List Event) :
    Reached fs cwd (events ++ new) place := by
  rcases h with hremoved | ⟨loc, ⟨event, hevent, hfailed⟩, hpre⟩
  · rw [Reached, removedLocs_append]
    exact Or.inl (List.mem_append_left _ hremoved)
  · exact Or.inr ⟨loc, ⟨event, List.mem_append_left _ hevent, hfailed⟩, hpre⟩

/-- Names led to the same places when there was more. -/
theorem Reached.of_subtree {place : Loc} (h : Reached fs' cwd events place)
    (hsub : fs'.Subtree fs) : Reached fs cwd events place := by
  refine h.imp_right ?_
  rintro ⟨loc, ⟨event, hevent, path, hfailed, hloc⟩, hpre⟩
  exact ⟨loc, ⟨event, hevent, path, hfailed, hsub.resolve hloc⟩, hpre⟩

theorem Tries.after (h : Tries cwd owns fs new) (events : List Event) :
    Tries cwd owns fs (events ++ new) := by
  intro place node howns hnode hnot
  exact (h place node howns hnode hnot).after events

theorem Tries.before (h : Tries cwd owns fs events) (new : List Event) :
    Tries cwd owns fs (events ++ new) := by
  intro place node howns hnode hnot
  exact (h place node howns hnode hnot).before new

/-- What is left to the others is still there when the first one is done. -/
theorem Tries.child (hlisted : ListedAt cwd fs path loc (name :: rest))
    (htakes : Takes cwd (fun place => loc ++ [name] <+: place) fs events fs')
    (hfirst : Tries cwd (fun place => loc ++ [name] <+: place) fs events)
    (hrest : Tries cwd (fun place => ∃ other ∈ rest, loc ++ [other] <+: place) fs' new) :
    Tries cwd (fun place => ∃ other ∈ name :: rest, loc ++ [other] <+: place) fs
      (events ++ new) := by
  rintro place node ⟨other, hother, hpre⟩ hnode hnot
  rcases List.mem_cons.mp hother with rfl | hother
  · exact (hfirst place node hpre hnode hnot).before new
  · have hapart : ¬ loc ++ [name] <+: place := fun hname =>
      hlisted.entriesAt.apart hname ⟨other, hother, hpre⟩
    rw [← htakes.elsewhere hapart] at hnode
    have hreached := hrest place node ⟨other, hother, hpre⟩ hnode hnot
    exact (hreached.of_subtree htakes.pruned.subtree).after events

/-- Whatever is at and below an entry is come to with it. -/
theorem Tries.unseen (hloc : fs.resolve cwd false path = some loc) :
    Tries cwd (fun place => loc <+: place) fs [.lstatFailed path] :=
  fun _ _ hpre _ _ => Or.inr ⟨loc, ⟨_, List.mem_cons_self, path, rfl, hloc⟩, hpre⟩

/-- A file that is there is tried. -/
theorem SafeRemoves.tries {removed : Bool} (h : SafeRemoves cwd path fs events fs' removed)
    (halone : Alone events) (hloc : fs.resolve cwd false path = some loc) {node : Node}
    (hnode : fs.node loc = some node) (hnot : node ≠ .dir) :
    Tries cwd (fun place => loc <+: place) fs events := by
  intro place other hpre hother _
  have hself : place = loc := by
    refine FileSystem.eq_of_under ?_ hpre (by rw [hother]; rfl)
    rw [hnode]
    exact fun hdir => hnot (Option.some.inj hdir)
  subst hself
  cases h with
  | missed _ hmissed =>
      refine absurd (hmissed halone node ?_) hnot
      rw [FileSystem.lstat, hloc, Option.bind_some, hnode]
  | @failed _ _ event _ _ hfailed _ _ =>
      exact Or.inr ⟨place, ⟨event, by simp, path, hfailed, hloc⟩, List.prefix_rfl⟩
  | @removed _ _ looks place' node' hglances hthere _ _ _ =>
      rw [alone_append] at halone
      rw [hglances.still halone.1, hloc, Option.some.injEq] at hthere
      exact Or.inl (mem_removedLocs.mpr ⟨node', by simp [hthere]⟩)

end Tries

section Runs

variable {cwd loc : Loc} {limit : Int} {depth : Nat} {job : Job} {fs fs' : FileSystem}
  {events : List Event} {out : JobEnd}

/-- What was listed stands where the path leads to. -/
theorem Lists.listedAt {path : Bytes} {looks : List Event} {names : List Name}
    (h : Lists cwd path fs looks fs' names) (hready : (Job.remove path).Ready cwd fs' loc) :
    ListedAt cwd fs' path loc names ∧ fs'.node loc = some .dir ∧ names = fs'.children loc := by
  have hlisting := h.listing
  rw [FreshCore.listing, hready.1, Option.bind_some] at hlisting
  split at hlisting
  next hdir =>
    obtain rfl := Option.some.inj hlisting
    refine ⟨⟨hready.2 hdir, fs'.children_nodup loc, ?_⟩, hdir, rfl⟩
    exact fun name hname => FileSystem.mem_children.mp hname
  next => cases hlisting

/-- By induction on the run: where it came to its end, it has come to every file. -/
theorem Run.tries (h : Run cwd limit depth job fs events fs' out) (halone : Alone events)
    (hout : out.completed = true) (hready : job.Ready cwd fs loc) :
    Tries cwd (job.Owns loc) fs events := by
  induction h generalizing loc with
  | done hlists _ _ _ ih =>
      simp only [alone_append, alone_cons] at halone
      rw [← hlists.glances.still halone.1] at hready ⊢
      obtain ⟨hlisted, hdir, rfl⟩ := hlists.listedAt hready
      have hloop := ih halone.2.2.1 rfl hlisted
      refine Tries.after (Tries.after (Tries.before ?_ _) [_]) _
      -- a file is not the directory, so it stands below it
      intro place node hpre hnode hnot
      have hself : place ≠ loc := by
        rintro rfl
        exact hnot (Option.some.inj (hnode.symm.trans hdir))
      have hthere : (FileSystem.node _ place).isSome := Option.isSome_of_eq_some hnode
      have hentry := (FileSystem.below_iff_children hthere).mp ⟨hpre, hself⟩
      exact hloop place node hentry hnode hnot
  | nil => exact fun place node hnever => (by simp [Job.Owns] at hnever)
  | gone hchecks hnone _ _ =>
      rw [alone_append] at halone
      rw [hchecks.glances.still halone.1, FileSystem.lstat, hready.head.1, Option.bind_some]
        at hnone
      have hthere := hready.present _ List.mem_cons_self
      rw [hnone] at hthere
      cases hthere
  | @unseen _ path name _ _ _ _ _ _ _ _ _ hchecks _ _ ih =>
      simp only [alone_append, alone_cons] at halone
      rw [← hchecks.glances.still halone.1] at hready ⊢
      have hhead := hready.head.1
      have htakes : Takes cwd (fun place => loc ++ [name] <+: place) _
          [.lstatFailed (child path name)] _ :=
        .failed rfl hhead (hready.present name List.mem_cons_self) List.prefix_rfl
      have hlisted := hready.takes htakes
      exact (Tries.child hready htakes (.unseen hhead) (ih halone.2.2 hout hlisted)).after _
  | @file _ _ name rest _ _ _ _ _ _ _ _ _ _ _ _ hchecks hnode hnot hremoves hrest ih =>
      simp only [alone_append] at halone
      rw [← hchecks.glances.still halone.1] at hready ⊢
      have htakes : Takes cwd (fun place => loc ++ [name] <+: place) _ _ _ :=
        hremoves.takes halone.2.1 fun place hplace => by
          rw [Job.remove_at hready.head.1 place hplace]
      have hlisted := hready.takes htakes
      rw [FileSystem.lstat, hready.head.1, Option.bind_some] at hnode
      have hfirst := hremoves.tries halone.2.1 hready.head.1 hnode hnot
      exact (Tries.child hready htakes hfirst (ih halone.2.2 hout hlisted)).after _
  | @dir _ _ name rest _ _ _ _ _ _ _ _ _ _ hchecks _ hinner hrest ihinner ih =>
      simp only [alone_append] at halone
      rw [← hchecks.glances.still halone.1] at hready ⊢
      have hhead : (Job.remove _).Ready cwd _ (loc ++ [name]) := hready.head
      have htakes := hinner.takes halone.2.1 hhead.at
      have hlisted := hready.takes htakes
      exact (Tries.child hready htakes (ihinner halone.2.1 rfl hhead)
        (ih halone.2.2 hout hlisted)).after _
  | onward _ _ ih => exact ih halone hout hready
  | batch _ _ _ ih =>
      simp only [alone_append, alone_cons] at halone
      exact Tries.after (Tries.after (ih halone.2.2 hout hready) [_]) _
  | none => exact fun place node hnever => (by simp [Job.Owns] at hnever)
  | @next _ _ name rest _ _ _ _ _ _ hinner hrest ihinner ih =>
      rw [alone_append] at halone
      have hhead : (Job.remove _).Ready cwd _ (loc ++ [name]) := hready.head
      have htakes := hinner.takes halone.1 hhead.at
      have hlisted := hready.takes htakes
      exact Tries.child hready htakes (ihinner halone.1 rfl hhead)
        (ih halone.2 hout hlisted)
  | _ => cases hout

/-- The cleanup was recorded. -/
def Event.isCleaned : Event → Bool
  | cleaned _ _ => true
  | _ => false

theorem Event.not_cleaned (event : Event) (hplain : event.isPlain = true) :
    event.isCleaned = false := by
  cases event <;> first | rfl | cases hplain

theorem Glances.not_cleaned {looks : List Event} (h : Glances fs looks fs') :
    ∀ event ∈ looks, event.isCleaned = false :=
  h.all Event.not_cleaned

theorem SafeRemoves.not_cleaned {path : Bytes} {removed : Bool}
    (h : SafeRemoves cwd path fs events fs' removed) :
    ∀ event ∈ events, event.isCleaned = false :=
  h.all Event.not_cleaned rfl rfl fun _ _ => rfl

/-- The loops do not record anything. -/
theorem Run.not_cleaned (h : Run cwd limit depth job fs events fs' out) :
    ∀ event ∈ events, event.isCleaned = false := by
  induction h with
  | deep => simp
  | refused hglances => exact hglances.not_cleaned
  | givenUp hlists _ ih =>
      simpa [or_imp, forall_and, Event.isCleaned] using ⟨hlists.glances.not_cleaned, ih⟩
  | cutInside hlists _ ih =>
      simpa [or_imp, forall_and, Event.isCleaned] using ⟨hlists.glances.not_cleaned, ih⟩
  | done hlists _ hslow hlast ih =>
      simpa [or_imp, forall_and, Event.isCleaned] using
        ⟨hlists.glances.not_cleaned, ih, hslow.not_cleaned, hlast.not_cleaned⟩
  | nil => simp
  | busy hglances => exact hglances.not_cleaned
  | gone hchecks _ _ ih => simpa [or_imp, forall_and] using ⟨hchecks.glances.not_cleaned, ih⟩
  | unseen hchecks _ _ ih =>
      simpa [or_imp, forall_and, Event.isCleaned] using ⟨hchecks.glances.not_cleaned, ih⟩
  | file hchecks _ _ hremoves _ ih =>
      simpa [or_imp, forall_and] using ⟨hchecks.glances.not_cleaned, hremoves.not_cleaned, ih⟩
  | dir hchecks _ _ _ ihinner ih =>
      simpa [or_imp, forall_and] using ⟨hchecks.glances.not_cleaned, ihinner, ih⟩
  | aborted hchecks _ _ ih => simpa [or_imp, forall_and] using ⟨hchecks.glances.not_cleaned, ih⟩
  | cutBelow hchecks _ _ ih => simpa [or_imp, forall_and] using ⟨hchecks.glances.not_cleaned, ih⟩
  | onward _ _ ih => exact ih
  | full _ hslow => simpa [or_imp, forall_and, Event.isCleaned] using hslow.not_cleaned
  | batch _ hslow _ ih =>
      simpa [or_imp, forall_and, Event.isCleaned] using ⟨hslow.not_cleaned, ih⟩
  | none => simp
  | next _ _ ihinner ih => simpa [or_imp, forall_and] using ⟨ihinner, ih⟩
  | stop _ ih => exact ih
  | cutChild _ ih => exact ih

end Runs

/-! ## What is left -/

/-- A cleanup that was recorded has come to every file. -/
theorem Cleanup.tries {cwd loc : Loc} {limit : Int} {depth : Nat} {path : Bytes}
    {fs fs' : FileSystem} {events : List Event} {out : JobEnd}
    (h : Cleanup cwd limit depth path fs events fs' out) (halone : Alone events)
    (hleads : fs.Leads cwd false path loc)
    (hrecorded : ∃ event ∈ events, event.isCleaned = true) :
    Tries cwd (Below loc) fs events := by
  obtain ⟨event, hevent, hcleaned⟩ := hrecorded
  have hnever (hnot : ∀ event ∈ events, event.isCleaned = false) : False := by
    rw [hnot event hevent] at hcleaned
    cases hcleaned
  cases h with
  | unlisted hglances => exact (hnever hglances.not_cleaned).elim
  | cut hlists hrun =>
      refine (hnever ?_).elim
      simpa [or_imp, forall_and, Event.isCleaned] using
        ⟨hlists.glances.not_cleaned, hrun.not_cleaned⟩
  | stopped hlists hrun =>
      refine (hnever ?_).elim
      simpa [or_imp, forall_and, Event.isCleaned] using
        ⟨hlists.glances.not_cleaned, hrun.not_cleaned⟩
  | recorded hlists hrun _ =>
      simp only [alone_append, alone_cons] at halone
      rw [← hlists.glances.still halone.1] at hleads ⊢
      have hready : (Job.remove path).Ready cwd _ loc :=
        ⟨hleads.resolve, fun hdir => ⟨hleads, hdir⟩⟩
      obtain ⟨hlisted, _, rfl⟩ := hlists.listedAt hready
      have hloop := hrun.tries halone.2.2.1 rfl hlisted
      refine Tries.after (Tries.after (Tries.before ?_ _) [_]) _
      intro place node hbelow hnode hnot
      have hthere : (FileSystem.node _ place).isSome := Option.isSome_of_eq_some hnode
      exact hloop place node ((FileSystem.below_iff_children hthere).mp hbelow) hnode hnot

/-- If the entry could not be looked at or not be removed, no file stood at or below it any
more. -/
def FilesGone (fs : FileSystem) (cwd : Loc) (front : List Event) (event : Event) : Prop :=
  ∀ path ∈ event.failedPath?, ∀ entry ∈ fs.resolve cwd false path, ∀ place ∈ fs.locs,
    entry <+: place → fs.node place ≠ some .dir → place ∈ removedLocs front

instance (fs : FileSystem) (cwd : Loc) (front : List Event) (event : Event) :
    Decidable (FilesGone fs cwd front event) := by
  unfold FilesGone
  infer_instance

/-- On a tree that nobody else changes, a recorded cleanup has left no file just when, each time
an entry could not be looked at or not be removed, all files at and below it had gone. -/
theorem cleanDirectorySafely_emptied_iff {env : Env} (hquiet : env.Quiet) (depth : Nat)
    (targetDir : CacheDirInfo) (w : World) {loc : Loc}
    (hleads : w.fs.Leads env.cwd false targetDir.path loc)
    (hrecorded : ∃ pkgName now,
      .cleaned pkgName now ∈ eventsOf (cleanDirectorySafely env depth targetDir) w) :
    (∀ place node, Below loc place →
      ((cleanDirectorySafely env depth targetDir).run w).2.fs.node place = some node →
        node = .dir) ↔
    Throughout (FilesGone w.fs env.cwd)
      (eventsOf (cleanDirectorySafely env depth targetDir) w) := by
  obtain ⟨events, htraced, hcleanup⟩ := cleanDirectorySafely_does env depth targetDir w
  rw [htraced.eventsOf_eq] at hrecorded ⊢
  obtain ⟨pkgName, now, hrecorded⟩ := hrecorded
  have halone := htraced.alone hquiet
  have htries := hcleanup.tries halone hleads ⟨_, hrecorded, rfl⟩
  have htakes := hcleanup.takes halone (Job.remove_at hleads.resolve)
  constructor
  · rintro hempty front event ⟨back, hsplit⟩ path hfailed entry hentry place hplace hpre hnot
    rw [List.append_assoc, List.singleton_append] at hsplit
    subst hsplit
    rw [Option.mem_def] at hfailed hentry
    obtain ⟨node, hnode⟩ := Option.isSome_iff_exists.mp ((w.fs.mem_locs place).mp hplace)
    have hbelow : Below loc place := (htakes.owned entry (mem_attempts.mpr
      (Or.inr ⟨event, by simp, path, hfailed, hentry⟩))).trans hpre
    have hremoved : place ∈ removedLocs (front ++ event :: back) := by
      by_contra hkept
      have hleft := htakes.pruned.kept place hkept
      rw [hnode] at hleft
      rw [hempty place node hbelow hleft] at hnode
      exact hnot hnode
    -- it did not go at the failing call or later
    rw [removedLocs_append, List.mem_append] at hremoved
    refine hremoved.resolve_right ?_
    rw [removedLocs_failed hfailed]
    exact htakes.not_removed_later hfailed hentry hpre
  · intro hgone place node hbelow hleft
    by_contra hnot
    have hnode := htakes.pruned.node_of_eq_some hleft
    have hremoved : place ∈ removedLocs events := by
      rcases htries place node hbelow hnode hnot with hremoved | ⟨entry, hfailed, hpre⟩
      · exact hremoved
      · obtain ⟨event, hevent, path, hfailed, hentry⟩ := hfailed
        obtain ⟨front, back, rfl⟩ := List.append_of_mem hevent
        have hfront := hgone front event ⟨back, by simp⟩ path hfailed entry hentry place
          ((w.fs.mem_locs place).mpr (Option.isSome_of_eq_some hnode)) hpre
          (by rw [hnode]; exact fun hdir => hnot (Option.some.inj hdir))
        rw [removedLocs_append]
        exact List.mem_append_left _ hfront
    rw [htakes.pruned.empty place hremoved] at hleft
    cases hleft

/-- A cache with one directory, which holds two files. -/
def deepFilesWorld : World where
  fs := FsStep.applyAll .bare [
    .mkdir [] (lit "c"),
    .mkdir [lit "c"] (lit "d"),
    .create [lit "c", lit "d"] (lit "f") 1,
    .create [lit "c", lit "d"] (lit "g") 2]

def deepCache : CacheDirInfo := ⟨lit "/c", lit "com.c", 0, false⟩

/-- The first file cannot be unlinked. -/
def refusingDevice : Env := { restingDevice with removeFails := fun tick => tick = 7 }

theorem leads_deepCache : deepFilesWorld.fs.Leads [] false deepCache.path [lit "c"] := by
  have hpath : deepCache.path = render [lit "c"] := by decide
  have hdir : deepFilesWorld.fs.node [lit "c"] = some .dir := by decide +kernel
  rw [hpath]
  exact FileSystem.leads_render hdir false

/-- Whether the log says so can be evaluated. -/
theorem exists_cleaned_iff {events : List Event} :
    (∃ pkgName now, .cleaned pkgName now ∈ events) ↔ events.any Event.isCleaned = true := by
  rw [List.any_eq_true]
  constructor
  · rintro ⟨pkgName, now, hevent⟩
    exact ⟨_, hevent, rfl⟩
  · rintro ⟨event, hevent, hcleaned⟩
    cases event <;> first | exact ⟨_, _, hevent⟩ | cases hcleaned

/-- The directory can no longer be looked at once its files have gone. -/
def blindDevice : Env := { restingDevice with lstatFails := fun tick _ => tick = 15 }

/-- The directory stays, but no file does. -/
theorem cleanDirectorySafely_emptied_iff_deepFiles :
    ¬ AllSeen (eventsOf (cleanDirectorySafely blindDevice 4 deepCache) deepFilesWorld) ∧
    ((cleanDirectorySafely blindDevice 4 deepCache).run deepFilesWorld).2.fs.node
      [lit "c", lit "d"] = some .dir ∧
    ∀ place node, Below [lit "c"] place →
      ((cleanDirectorySafely blindDevice 4 deepCache).run deepFilesWorld).2.fs.node place =
        some node → node = .dir := by
  have hrecorded := exists_cleaned_iff.mpr (show
    (eventsOf (cleanDirectorySafely blindDevice 4 deepCache) deepFilesWorld).any
      Event.isCleaned = true by decide +kernel)
  have hemptied := cleanDirectorySafely_emptied_iff (fun _ => rfl) 4 deepCache deepFilesWorld
    leads_deepCache hrecorded
  exact ⟨by decide +kernel, by decide +kernel, hemptied.mpr (by decide +kernel)⟩

/-- The cleanup is recorded, and the file is still there. -/
theorem cleanDirectorySafely_not_emptied :
    (eventsOf (cleanDirectorySafely refusingDevice 4 deepCache) deepFilesWorld).any
        Event.isCleaned = true ∧
      (getPackageState ((cleanDirectorySafely refusingDevice 4 deepCache).run
        deepFilesWorld).2.process.states (lit "com.c")).cleanupCount = 1 ∧
      ((cleanDirectorySafely refusingDevice 4 deepCache).run deepFilesWorld).2.fs.node
        [lit "c", lit "d", lit "f"] = some (.file 1) := by
  decide +kernel

end FreshCore
