import FreshCore.Cache.RemovalFrame
import FreshCore.Cache.SweepsComplete
import FreshCore.Core.DecisionEngine

/-!
# The targets in turn

The loop over the targets ends with the first one whose directory holds anything that is not a
directory, for it cannot be emptied. The targets after it, which are of lower priority, are
left as they are, at this maintenance and at each one for as long as that stays there.
-/

namespace FreshCore

open Posix Imperative Config Device Cache

variable {env : Env} {mark depth : Nat} {fs fs' fs'' : FileSystem}

/-! ## Directories that can be emptied -/

/-- Nothing but directories stands in the directory. -/
def DirsOnly (fs : FileSystem) (dir : Loc) : Prop :=
  ∀ name ∈ fs.children dir, fs.node (dir ++ [name]) = some .dir

instance (fs : FileSystem) (dir : Loc) : Decidable (DirsOnly fs dir) := by
  unfold DirsOnly
  infer_instance

theorem not_dirsOnly_iff {dir : Loc} :
    ¬ DirsOnly fs dir ↔ ∃ name node, fs.node (dir ++ [name]) = some node ∧ node ≠ .dir := by
  unfold DirsOnly
  push Not
  constructor
  · rintro ⟨name, hname, hnot⟩
    obtain ⟨node, hnode⟩ := Option.isSome_iff_exists.mp (FileSystem.mem_children.mp hname)
    rw [hnode] at hnot
    exact ⟨name, node, hnode, by simpa using hnot⟩
  · rintro ⟨name, node, hnode, hnot⟩
    refine ⟨name, FileSystem.mem_children.mpr (Option.isSome_of_eq_some hnode), ?_⟩
    simpa [hnode] using hnot

theorem DirsOnly.subtree {dir : Loc} (h : DirsOnly fs dir) (hsub : fs'.Subtree fs) :
    DirsOnly fs' dir := by
  intro name hname
  obtain ⟨node, hnode⟩ := Option.isSome_iff_exists.mp (FileSystem.mem_children.mp hname)
  have hthere := hsub _ _ hnode
  rw [h name (FileSystem.mem_children.mpr (Option.isSome_of_eq_some hthere))] at hthere
  rw [hnode, ← hthere]

/-- The directories before the first one that cannot be emptied. -/
def cleanable (fs : FileSystem) (dirs : List Loc) : List Loc := dirs.takeWhile (DirsOnly fs ·)

/-- The directories up to the first one that cannot be emptied. -/
def reached (fs : FileSystem) (dirs : List Loc) : List Loc :=
  dirs.take ((cleanable fs dirs).length + 1)

/-- The place is below one of the directories. -/
def Inside (dirs : List Loc) (place : Loc) : Prop := ∃ dir ∈ dirs, Below dir place

instance (dirs : List Loc) (place : Loc) : Decidable (Inside dirs place) := by
  unfold Inside
  infer_instance

theorem cleanable_congr {dirs : List Loc}
    (h : ∀ dir ∈ dirs, (DirsOnly fs dir ↔ DirsOnly fs' dir)) :
    cleanable fs dirs = cleanable fs' dirs := by
  induction dirs with
  | nil => rfl
  | cons dir rest ih =>
      rw [List.forall_mem_cons] at h
      simp only [cleanable, List.takeWhile_cons, h.1] at ih ⊢
      rw [ih h.2]

theorem not_gone_entry {gone : Loc → Prop} {dir other : Loc}
    (hgone : ∀ place, gone place → Below dir place) (hne : other ≠ dir)
    (hapart : ¬ Below dir other) (name : Name) : ¬ gone (other ++ [name]) := by
  intro hname
  obtain ⟨hpre, hself⟩ := hgone _ hname
  rcases List.prefix_concat_iff.mp hpre with heq | hpre
  · exact hself heq.symm
  · exact hapart ⟨hpre, hne⟩

/-- What is taken below one directory makes no difference to another that is not below it. -/
theorem dirsOnly_pruned {gone : Loc → Prop} {dir other : Loc} (hpruned : Pruned gone fs fs')
    (hgone : ∀ place, gone place → Below dir place) (hne : other ≠ dir)
    (hapart : ¬ Below dir other) : DirsOnly fs' other ↔ DirsOnly fs other := by
  have hkept := not_gone_entry hgone hne hapart
  unfold DirsOnly
  apply forall_congr'
  intro name
  rw [hpruned.mem_children, and_iff_left (hkept name), hpruned.kept _ (hkept name)]

/-! ## One target -/

/-- The path leads to the directory whatever happens below the directories `dirs`, none of
which is below another. -/
structure Laid (cwd : Loc) (dirs : List Loc) (path : Bytes) (dir : Loc) (fs : FileSystem) :
    Prop where
  leads : ∀ fs' : FileSystem, (∀ place, ¬ Inside dirs place → fs'.node place = fs.node place) →
    fs'.resolve cwd false path = some dir
  isDir : fs.node dir = some .dir
  apart : ¬ Inside dirs dir

namespace Laid

variable {cwd dir other : Loc} {dirs : List Loc} {path : Bytes}

/-- It goes on leading there whatever happens below them. -/
theorem agree (h : Laid cwd dirs path dir fs)
    (hagree : ∀ place, ¬ Inside dirs place → fs'.node place = fs.node place) :
    Laid cwd dirs path dir fs' := by
  refine ⟨fun fs'' hagree' => h.leads fs'' fun place hplace => ?_, ?_, h.apart⟩
  · rw [hagree' place hplace, hagree place hplace]
  · rw [hagree dir h.apart, h.isDir]

theorem dirAt (h : Laid cwd dirs path dir fs) (hmem : dir ∈ dirs) :
    DirAt cwd path dir fs := by
  refine ⟨fun fs' hagree => h.leads fs' fun place hplace => ?_, h.isDir⟩
  exact hagree place fun hbelow => hplace ⟨dir, hmem, hbelow⟩

theorem pruned {gone : Loc → Prop} (h : Laid cwd dirs path dir fs)
    (hpruned : Pruned gone fs fs') (hgone : ∀ place, gone place → Below other place)
    (hmem : other ∈ dirs) : Laid cwd dirs path dir fs' :=
  h.agree fun place hplace =>
    hpruned.kept place fun htaken => hplace ⟨other, hmem, hgone place htaken⟩

/-- A canonical path of a directory outside the others does. -/
theorem of_render (hpath : path = render dir) (hdir : fs.node dir = some .dir)
    (hapart : ¬ Inside dirs dir) : Laid cwd dirs path dir fs := by
  refine ⟨fun fs' hagree => ?_, hdir, hapart⟩
  rw [hpath]
  exact FileSystem.resolve_render (by rw [hagree dir hapart, hdir]) false

end Laid

/-- What is shown of the runs from each tree that is as described, with what is known of the
trees before and after them anyhow. -/
theorem Yields.frame {α : Type} {x : Daemon α} {scope : Scope} {tree : FileSystem → Prop}
    {result : FileSystem → α → FileSystem → Prop} {framed : FileSystem → FileSystem → Prop}
    (hwithin : Within env scope x)
    (hx : ∀ fs, tree fs → ∀ mark, Yields mark (fun other => other = fs) x (result fs))
    (hframe : ∀ w, tree w.fs → framed w.fs (x.run w).2.fs) :
    Yields mark tree x fun a fs' => ∃ fs, tree fs ∧ result fs a fs' ∧ framed fs fs' := by
  have hruns (w : World) (hw : tree w.fs) : Program.Post
      (fun a => Calm w.log.length fun fs' => result w.fs a fs' ∧ framed w.fs fs')
      (Calm w.log.length fun _ => False) (x.run w) := by
    have hpost := hx w.fs hw w.log.length w (Unless.start _ rfl)
    have hthen := hframe w hw
    rcases hrun : x.run w with ⟨_ | a, w'⟩ <;> rw [hrun] at hpost hthen
    · exact hpost
    · rw [Program.post_some] at hpost ⊢
      exact hpost.mono fun hresult => ⟨hresult, hthen⟩
  refine (Unless.triple hwithin hruns).mono (fun _ h => h) (fun a w' hw' => hw'.mono ?_)
    fun w' hw' => hw'.mono ?_
  · rintro ⟨w, hw, hend⟩
    exact ⟨w.fs, hw, hend⟩
  · rintro ⟨_, _, hnever⟩
    exact hnever

/-- Whatever disturbs it, a cleaning takes nothing but what is below its directory. -/
theorem cleanDirectorySafely_prunes (hquiet : env.Quiet) {w : World} {targetDir : CacheDirInfo}
    {dir : Loc} (hdir : DirAt env.cwd targetDir.path dir w.fs) :
    ∃ gone, (∀ place, gone place → Below dir place) ∧
      Pruned gone w.fs ((cleanDirectorySafely env depth targetDir).run w).2.fs := by
  obtain ⟨events, htraced, hcleanup⟩ := cleanDirectorySafely_does env depth targetDir w
  have htakes := hcleanup.takes (htraced.alone hquiet) (Job.remove_at hdir.leads.resolve)
  refine ⟨_, fun place hplace => ?_, htakes.pruned⟩
  exact htakes.owned place (mem_attempts.mpr (Or.inl hplace))

/-- A cleaning that nobody disturbs comes to its end if there are directories only, and takes
nothing but what is below its directory in any case. -/
theorem cleanDirectorySafely_turn (hquiet : env.Quiet) (hdepth : 0 < depth)
    {tree : FileSystem → Prop} {targetDir : CacheDirInfo} {dir : Loc}
    (htree : ∀ fs, tree fs → DirAt env.cwd targetDir.path dir fs ∧ fs.Shallow dir (depth + 1)) :
    Yields mark tree (cleanDirectorySafely env depth targetDir) fun completed fs' =>
      ∃ fs, tree fs ∧ Cleaned dir (fs.children dir) completed fs fs' ∧
        ∃ gone, (∀ place, gone place → Below dir place) ∧ Pruned gone fs fs' := by
  apply Yields.frame (cleanDirectorySafely_within env depth (Scope.Sub.refl cleanScope) targetDir)
  · intro fs hfs mark
    have hcleans := @cleanDirectorySafely_yields env mark (fun other => other = fs) dir depth
      hquiet hdepth targetDir fun other hother => hother ▸ htree fs hfs
    apply hcleans.weaken
    rintro completed fs' ⟨_, rfl, hcleaned⟩
    exact hcleaned
  · exact fun w hw => cleanDirectorySafely_prunes hquiet (htree w.fs hw).1

/-! ## The loop -/

/-- What the loop over the directories does. -/
structure CleansInTurn (dirs : List Loc) (completed : Bool) (fs fs' : FileSystem) : Prop where
  subtree : fs'.Subtree fs
  completed_iff : completed = true ↔ ∀ dir ∈ dirs, DirsOnly fs dir
  emptied : ∀ dir ∈ cleanable fs dirs, fs'.children dir = []
  unreached : ∀ place, ¬ Inside (reached fs dirs) place → fs'.node place = fs.node place

namespace CleansInTurn

variable {dir : Loc} {rest : List Loc} {completed : Bool}

theorem nil (fs : FileSystem) : CleansInTurn [] true fs fs where
  subtree := .refl fs
  completed_iff := by simp
  emptied := by simp [cleanable]
  unreached _ _ := rfl

theorem children_eq_nil (hsub : fs'.Subtree fs) (hempty : fs.children dir = []) :
    fs'.children dir = [] := by
  rw [List.eq_nil_iff_forall_not_mem] at hempty ⊢
  intro name hname
  obtain ⟨node, hnode⟩ := Option.isSome_iff_exists.mp (FileSystem.mem_children.mp hname)
  exact hempty name (FileSystem.mem_children.mpr (Option.isSome_of_eq_some (hsub _ _ hnode)))

/-- The first directory stops the loop. -/
theorem stopped {gone : Loc → Prop} (hnot : ¬ DirsOnly fs dir) (hpruned : Pruned gone fs fs')
    (hgone : ∀ place, gone place → Below dir place) :
    CleansInTurn (dir :: rest) false fs fs' := by
  have hnone : cleanable fs (dir :: rest) = [] := by simp [cleanable, hnot]
  constructor
  · exact hpruned.subtree
  · simp [hnot]
  · simp [hnone]
  · intro place hplace
    refine hpruned.kept place fun htaken => hplace ⟨dir, ?_, hgone place htaken⟩
    simp [reached, hnone]

/-- The first directory is emptied and the loop goes on to the others. -/
theorem cons {gone : Loc → Prop} (hdirs : DirsOnly fs dir) (hempty : fs'.children dir = [])
    (hpruned : Pruned gone fs fs') (hgone : ∀ place, gone place → Below dir place)
    (hapart : ∀ other ∈ rest, ¬ Below dir other) (hrest : CleansInTurn rest completed fs' fs'') :
    CleansInTurn (dir :: rest) completed fs fs'' := by
  have hsame : ∀ other ∈ rest, (DirsOnly fs' other ↔ DirsOnly fs other) := by
    intro other hother
    by_cases hself : other = dir
    · subst hself
      exact iff_of_true (by simp [DirsOnly, hempty]) hdirs
    · exact dirsOnly_pruned hpruned hgone hself (hapart other hother)
  have hcleanable : cleanable fs (dir :: rest) = dir :: cleanable fs' rest := by
    rw [cleanable_congr hsame]
    simp [cleanable, hdirs]
  constructor
  · exact hrest.subtree.trans hpruned.subtree
  · rw [hrest.completed_iff, List.forall_mem_cons, and_iff_right hdirs]
    exact forall₂_congr hsame
  · rw [hcleanable, List.forall_mem_cons]
    exact ⟨children_eq_nil hrest.subtree hempty, hrest.emptied⟩
  · intro place hplace
    rw [reached, hcleanable, List.length_cons, List.take_succ_cons] at hplace
    rw [hrest.unreached place, hpruned.kept place]
    · exact fun htaken => hplace ⟨dir, List.mem_cons_self, hgone place htaken⟩
    · rintro ⟨other, hother, hbelow⟩
      exact hplace ⟨other, List.mem_cons_of_mem _ hother, hbelow⟩

end CleansInTurn

theorem cleanTargets_yields (hquiet : env.Quiet) (hdepth : 0 < depth)
    {tree : FileSystem → Prop} {dirs : List Loc} {places : List (MaintenanceTarget × Loc)}
    (hmem : ∀ place ∈ places, place.2 ∈ dirs)
    (htree : ∀ fs, tree fs → (∀ dir ∈ dirs, fs.Shallow dir (depth + 1)) ∧
      ∀ place ∈ places, Laid env.cwd dirs place.1.cacheDir.path place.2 fs) :
    Yields mark tree (cleanTargets env depth (places.map Prod.fst)) fun completed fs' =>
      ∃ fs, tree fs ∧ CleansInTurn (places.map Prod.snd) completed fs fs' := by
  induction places generalizing tree with
  | nil => exact .pure fun fs hfs => ⟨fs, hfs, .nil fs⟩
  | cons place rest ih =>
      obtain ⟨target, dir⟩ := place
      obtain ⟨hdir, hothers⟩ := List.forall_mem_cons.mp hmem
      have hready (fs : FileSystem) (hfs : tree fs) :
          DirAt env.cwd target.cacheDir.path dir fs ∧ fs.Shallow dir (depth + 1) :=
        ⟨((htree fs hfs).2 _ List.mem_cons_self).dirAt hdir, (htree fs hfs).1 dir hdir⟩
      rw [List.map_cons, cleanTargets]
      refine .bind evaluateIdleState_yields fun idle => .ite (fun hidle => ?_) fun _ => ?_
      · exact .pure fun fs hfs => absurd hidle hfs.2
      refine .bind (cleanDirectorySafely_turn hquiet hdepth fun fs hfs => hready fs hfs.1)
        fun completed => .ite (fun hstop => ?_) fun hgo => ?_
      · apply Yields.pure
        rintro fs' ⟨fs, hfs, hcleaned, gone, hgone, hpruned⟩
        refine ⟨fs, hfs.1, .stopped (fun hdirs => ?_) hpruned hgone⟩
        rw [hcleaned.completed_iff.mpr hdirs] at hstop
        cases hstop
      · have hcompleted : completed = true := by simpa using hgo
        refine (ih hothers fun fs' hfs' => ?_).weaken fun all fs'' hend => ?_
        · obtain ⟨fs, hfs, _, gone, hgone, hpruned⟩ := hfs'
          obtain ⟨hshallow, hlaid⟩ := htree fs hfs.1
          exact ⟨fun other hother => hpruned.shallow (hshallow other hother),
            fun other hother => (hlaid other (.tail _ hother)).pruned hpruned hgone hdir⟩
        · obtain ⟨fs', ⟨fs, hfs, hcleaned, gone, hgone, hpruned⟩, hrest⟩ := hend
          have hempty := ((hready fs hfs.1).1.emptied (hcleaned.pruned hcompleted)).2
          refine ⟨fs, hfs.1, .cons (hcleaned.completed_iff.mp hcompleted) hempty hpruned hgone ?_
            hrest⟩
          intro other hother hbelow
          obtain ⟨place, hplace, rfl⟩ := List.mem_map.mp hother
          exact ((htree fs hfs.1).2 place (.tail _ hplace)).apart ⟨dir, hdir, hbelow⟩

/-- On a tree that nobody else changes, an undisturbed loop over the targets empties those
before the first one that holds anything but directories, stops at that one, and changes
nothing below those after it; it comes to its end exactly when there is no such target. -/
theorem cleanTargets_inTurn (hquiet : env.Quiet) {w : World}
    (hdepth : ∀ loc ∈ w.fs.locs, loc.length < depth) {places : List (MaintenanceTarget × Loc)}
    (hlaid : ∀ place ∈ places,
      Laid env.cwd (places.map Prod.snd) place.1.cacheDir.path place.2 w.fs)
    (hcalm : Undisturbed (eventsOf (cleanTargets env depth (places.map Prod.fst)) w)) :
    ∃ completed,
      ((cleanTargets env depth (places.map Prod.fst)).run w).1 = some completed ∧
      CleansInTurn (places.map Prod.snd) completed w.fs
        ((cleanTargets env depth (places.map Prod.fst)).run w).2.fs := by
  have hshallow (dir : Loc) : w.fs.Shallow dir (depth + 1) := fun rest hrest =>
    Nat.lt_succ_of_lt (FileSystem.shallow_of_locs hdepth dir rest hrest)
  have hloop := @cleanTargets_yields env w.log.length depth hquiet (FileSystem.depth_pos hdepth)
    (fun fs => fs = w.fs) (places.map Prod.snd) places (fun _ => List.mem_map_of_mem)
    fun fs hfs => hfs ▸ ⟨fun dir _ => hshallow dir, hlaid⟩
  obtain ⟨completed, hresult, fs, rfl, hcleans⟩ := hloop.run hcalm
  exact ⟨completed, hresult, hcleans⟩

def cacheOfALoc : Loc := [lit "data", lit "com.a", lit "cache"]

def cacheOfBLoc : Loc := [lit "data", lit "com.b", lit "cache"]

def targetA : MaintenanceTarget := { cacheDir := cacheOfA, priority := 20 }

def targetB : MaintenanceTarget where
  cacheDir := { path := lit "/data/com.b/cache", pkgName := lit "com.b" }
  priority := 10

/-- A file in the cache of `com.a`, and a directory with a file in that of `com.b`. -/
def blockedCacheWorld : World where
  fs := FsStep.applyAll emptyDevice [
    .create cacheOfALoc (lit "f") 10,
    .mkdir [lit "data"] (lit "com.b"),
    .mkdir [lit "data", lit "com.b"] (lit "cache"),
    .mkdir cacheOfBLoc (lit "d"),
    .create (cacheOfBLoc ++ [lit "d"]) (lit "f") 10]

/-- In the order `com.b`, `com.a` the one is emptied before the loop stops at the other. -/
theorem cleanTargets_inTurn_twoCaches :
    ∃ completed,
      ((cleanTargets restingDevice 6 [targetB, targetA]).run blockedCacheWorld).1 =
        some completed ∧
      CleansInTurn [cacheOfBLoc, cacheOfALoc] completed blockedCacheWorld.fs
        ((cleanTargets restingDevice 6 [targetB, targetA]).run blockedCacheWorld).2.fs := by
  have hlaid : ∀ place ∈ [(targetB, cacheOfBLoc), (targetA, cacheOfALoc)],
      Laid restingDevice.cwd [cacheOfBLoc, cacheOfALoc] place.1.cacheDir.path place.2
        blockedCacheWorld.fs := by
    intro place hplace
    rcases List.mem_pair.mp hplace with rfl | rfl
    · exact .of_render (by decide +kernel) (by decide +kernel) (by decide +kernel)
    · exact .of_render (by decide +kernel) (by decide +kernel) (by decide +kernel)
  have hcalm : Undisturbed
      (eventsOf (cleanTargets restingDevice 6 [targetB, targetA]) blockedCacheWorld) := by
    decide +kernel
  have hdepth : ∀ loc ∈ blockedCacheWorld.fs.locs, loc.length < 6 := by decide +kernel
  have hturn := cleanTargets_inTurn restingDevice_quiet hdepth hlaid
  simp only [List.map_cons, List.map_nil] at hturn
  exact hturn hcalm

end FreshCore
