import FreshCore.Cache.CleanerProgress
import FreshCore.Core.Invariants
import FreshCore.Core.TargetTurns

/-!
# Targets get done

A loop over the targets is ended by the first batch that is told to stop, and as the totals of a
run are never reset, that may be the first batch of each. But it was a full one: every loop that
nothing else interferes with takes a batch's worth of entries from the directories that can be
emptied, so that after so many of them all these are empty.
-/

namespace FreshCore

open Posix Imperative Config Device Cache

variable {env : Env} {mark depth batch rounds : Nat} {config : Configuration}
  {fs fs' fs'' : FileSystem} {dirs ahead : List Loc} {dir : Loc} {limit : Int}

/-! ## Counting what is left -/

/-- The number of entries below these directories. -/
def entriesInside (dirs : List Loc) (fs : FileSystem) : Nat := fs.locs.countP (Inside dirs ·)

theorem entriesInside_le (h : fs'.Subtree fs) : entriesInside dirs fs' ≤ entriesInside dirs fs :=
  h.locs_subperm.countP_le _

/-- Where nothing changes but below these directories, that is where entries have gone. -/
theorem entriesInside_add (h : ∀ place, ¬ Inside dirs place → fs'.node place = fs.node place) :
    entriesInside dirs fs' + fs.locs.length = entriesInside dirs fs + fs'.locs.length := by
  have houtside : fs'.locs.countP (¬ Inside dirs ·) = fs.locs.countP (¬ Inside dirs ·) := by
    rw [List.countP_eq_length_filter, List.countP_eq_length_filter]
    apply List.Perm.length_eq
    rw [List.perm_ext_iff_of_nodup (fs'.locs_nodup.filter _) (fs.locs_nodup.filter _)]
    intro place
    rw [List.mem_filter, List.mem_filter, fs'.mem_locs, fs.mem_locs, decide_eq_true_eq]
    exact and_congr_left fun hplace => by rw [h place hplace]
  have hsplit (fs : FileSystem) :=
    List.length_eq_countP_add_countP (fun place => decide (Inside dirs place)) (l := fs.locs)
  have hfs := hsplit fs
  have hfs' := hsplit fs'
  simp only [entriesInside, decide_not, decide_eq_true_eq] at *
  omega

theorem children_eq_nil_of_entriesInside (h : entriesInside dirs fs = 0) (hdir : dir ∈ dirs) :
    fs.children dir = [] := by
  rw [List.eq_nil_iff_forall_not_mem]
  intro name hname
  have hloc := (fs.mem_locs _).mpr (FileSystem.mem_children.mp hname)
  have hnone := List.countP_eq_zero.mp h _ hloc
  exact hnone (decide_eq_true ⟨dir, hdir, below_child dir name⟩)

/-! ## One loop -/

/-- What a loop comes to: the directories are empty, or so many entries below some of them have
gone and nothing else. -/
structure GetsOn (dirs ahead : List Loc) (limit : Int) (fs fs' : FileSystem) : Prop where
  subtree : fs'.Subtree fs
  emptied_or_fewer : (∀ dir ∈ ahead, fs'.children dir = []) ∨
    Fewer limit fs fs' ∧ ∀ place, ¬ Inside dirs place → fs'.node place = fs.node place

namespace GetsOn

variable {rest : List Loc} {gone : Loc → Prop}

/-- The loop was ended at its first directory. -/
theorem stopped (hpruned : Pruned gone fs fs') (hgone : ∀ place, gone place → Below dir place)
    (hmem : dir ∈ dirs) (hfewer : Fewer limit fs fs') : GetsOn dirs ahead limit fs fs' where
  subtree := hpruned.subtree
  emptied_or_fewer := Or.inr ⟨hfewer, fun place hplace =>
    hpruned.kept place fun htaken => hplace ⟨dir, hmem, hgone place htaken⟩⟩

/-- The first directory is empty now, and the loop went on to the others. -/
theorem cons (hempty : fs'.children dir = []) (hpruned : Pruned gone fs fs')
    (hgone : ∀ place, gone place → Below dir place) (hmem : dir ∈ dirs)
    (hrest : GetsOn dirs rest limit fs' fs'') : GetsOn dirs (dir :: rest) limit fs fs'' := by
  refine ⟨hrest.subtree.trans hpruned.subtree, hrest.emptied_or_fewer.imp ?_ ?_⟩
  · intro hall
    exact List.forall_mem_cons.mpr ⟨CleansInTurn.children_eq_nil hrest.subtree hempty, hall⟩
  · rintro ⟨hfewer, hsame⟩
    refine ⟨hfewer.of_longer hpruned.subtree.locs_subperm.length_le, fun place hplace => ?_⟩
    rw [hsame place hplace, hpruned.kept]
    exact fun htaken => hplace ⟨dir, hmem, hgone place htaken⟩

/-- In numbers, of all directories those that are not empty already being among these. -/
theorem entriesInside_le (h : GetsOn dirs ahead limit fs fs')
    (hall : ∀ dir ∈ dirs, fs.children dir ≠ [] → dir ∈ ahead)
    (hbatch : (batch : Int) ≤ max 1 limit) :
    (∀ dir ∈ dirs, fs'.children dir = []) ∨
      entriesInside dirs fs' + batch ≤ entriesInside dirs fs := by
  refine h.emptied_or_fewer.imp (fun hempty dir hdir => ?_) fun hfewer => ?_
  · by_cases hthere : fs.children dir = []
    · exact CleansInTurn.children_eq_nil h.subtree hthere
    · exact hempty dir (hall dir hdir hthere)
  · obtain ⟨⟨hlost, henough⟩, hsame⟩ := hfewer
    have hcount := entriesInside_add hsame
    omega

end GetsOn

/-- Removing takes away and adds nothing, wherever the path leads. -/
theorem cleanDirectorySafely_subtree (hquiet : env.Quiet) (targetDir : CacheDirInfo) (w : World) :
    ((cleanDirectorySafely env depth targetDir).run w).2.fs.Subtree w.fs := by
  obtain ⟨events, htraced, hcleanup⟩ := cleanDirectorySafely_does env depth targetDir w
  have htakes (loc : Loc)
      (hat : ∀ place, w.fs.resolve env.cwd false targetDir.path = some place → place = loc) :=
    hcleanup.takes (htraced.alone hquiet) hat
  cases hloc : w.fs.resolve env.cwd false targetDir.path with
  | none => exact (htakes [] (by simp [hloc])).pruned.subtree
  | some loc => exact (htakes loc (Job.remove_at hloc)).pruned.subtree

theorem cleanTargets_subtree (hquiet : env.Quiet) (targets : List MaintenanceTarget) (w : World) :
    ((cleanTargets env depth targets).run w).2.fs.Subtree w.fs := by
  have hengine : engineScope.Keeps env fun w' => w'.fs.Subtree w.fs :=
    .of_still hquiet (fun _ _ => id) fun w' w'' hw _ hfs => by rwa [hfs]
  have hclean (dir : CacheDirInfo) :
      Program.Triple (fun w' => w'.fs.Subtree w.fs) (cleanDirectorySafely env depth dir)
        (fun _ w' => w'.fs.Subtree w.fs) fun w' => w'.fs.Subtree w.fs :=
    .of_state fun w' hw => (cleanDirectorySafely_subtree hquiet dir w').trans hw
  exact (cleanTargets_kept hengine hclean targets w (.refl w.fs)).state

theorem cleanDirectorySafely_worked (hquiet : env.Quiet) {tree : FileSystem → Prop}
    {targetDir : CacheDirInfo}
    (htree : ∀ fs, tree fs →
      DirAt env.cwd targetDir.path dir fs ∧ fs.Shallow dir (depth + 1) ∧ DirsOnly fs dir) :
    Advances mark config tree (cleanDirectorySafely env depth targetDir) fun completed fs' =>
      ∃ fs, tree fs ∧ Worked config.maxFilesPerBatch.toInt
          (fun place => ∃ name ∈ fs.children dir, dir ++ [name] <+: place) completed fs fs' ∧
        ∃ gone, (∀ place, gone place → Below dir place) ∧ Pruned gone fs fs' := by
  apply Advances.frame
    (cleanDirectorySafely_within env depth (Scope.Sub.refl cleanScope) targetDir)
  · intro fs hfs mark
    have hcleans := @cleanDirectorySafely_advances env mark config (fun other => other = fs) dir
      depth hquiet targetDir fun other hother => hother ▸ htree fs hfs
    apply hcleans.weaken
    rintro completed fs' ⟨_, rfl, hworked⟩
    exact hworked
  · exact fun w hw => cleanDirectorySafely_prunes hquiet (htree w.fs hw).1

/-- By induction on the targets whose directories hold directories only; what comes after them
takes nothing back. -/
theorem cleanTargets_getsOn (hquiet : env.Quiet) {before : List (MaintenanceTarget × Loc)}
    (after : List MaintenanceTarget) {tree : FileSystem → Prop}
    (hmem : ∀ place ∈ before, place.2 ∈ dirs)
    (htree : ∀ fs, tree fs → (∀ dir ∈ dirs, fs.Shallow dir (depth + 1) ∧ DirsOnly fs dir) ∧
      ∀ place ∈ before, Laid env.cwd dirs place.1.cacheDir.path place.2 fs) :
    Program.Triple (Ongoing mark config tree)
      (cleanTargets env depth (before.map Prod.fst ++ after))
      (fun _ => Ongoing mark config fun fs' => ∃ fs, tree fs ∧
        GetsOn dirs (before.map Prod.snd) config.maxFilesPerBatch.toInt fs fs')
      (Ongoing mark config fun fs' => ∃ fs, tree fs ∧
        GetsOn dirs (before.map Prod.snd) config.maxFilesPerBatch.toInt fs fs') := by
  induction before generalizing tree with
  | nil =>
      refine .of_state fun w hw => ?_
      have hreach := (cleanTargets_within env depth (Scope.Sub.refl cleanScope) after).reaches w
      obtain ⟨new, hlog, _⟩ := hreach.log
      have hconfig := hreach.observe (γ := Configuration) fun _ hchange p => (hchange p).1
      refine Unless.extend hw hlog fun _ hstate => Or.inr ⟨hconfig.trans hstate.1, ?_⟩
      exact ⟨w.fs, hstate.2, cleanTargets_subtree hquiet after w, Or.inl (by simp)⟩
  | cons place rest ih =>
      obtain ⟨target, dir⟩ := place
      obtain ⟨hdir, hothers⟩ := List.forall_mem_cons.mp hmem
      have hready (fs : FileSystem) (hfs : tree fs) :
          DirAt env.cwd target.cacheDir.path dir fs ∧ fs.Shallow dir (depth + 1) ∧
            DirsOnly fs dir :=
        ⟨((htree fs hfs).2 _ (.head _)).dirAt hdir, (htree fs hfs).1 dir hdir⟩
      rw [List.map_cons, List.cons_append, cleanTargets]
      refine .bind evaluateIdleState_advances.triple fun idle => .ite (fun hidle => ?_) fun _ => ?_
      · exact .pure fun w hw => hw.mono fun hfs => absurd hidle hfs.2
      refine .bind (cleanDirectorySafely_worked hquiet fun fs hfs => hready fs hfs.1).triple
        fun completed => .ite (fun hstop => ?_) fun hgo => ?_
      · refine .pure fun w hw => hw.mono ?_
        rintro ⟨fs, hfs, hworked, gone, hgone, hpruned⟩
        exact ⟨fs, hfs.1, .stopped hpruned hgone hdir (hworked.part (by simpa using hstop))⟩
      · have hdone : completed = true := by simpa using hgo
        have hend (fs'' : FileSystem) (h : ∃ fs', (∃ fs, (tree fs ∧ idle ≠ .notIdle) ∧
            Worked config.maxFilesPerBatch.toInt
              (fun place => ∃ name ∈ fs.children dir, dir ++ [name] <+: place) completed fs fs' ∧
            ∃ gone, (∀ place, gone place → Below dir place) ∧ Pruned gone fs fs') ∧
            GetsOn dirs (rest.map Prod.snd) config.maxFilesPerBatch.toInt fs' fs'') :
            ∃ fs, tree fs ∧
              GetsOn dirs (dir :: rest.map Prod.snd) config.maxFilesPerBatch.toInt fs fs'' := by
          obtain ⟨fs', ⟨fs, hfs, hworked, gone, hgone, hpruned⟩, hrest⟩ := h
          have hempty := ((hready fs hfs.1).1.emptied (hworked.all hdone)).2
          exact ⟨fs, hfs.1, .cons hempty hpruned hgone hdir hrest⟩
        refine Program.Triple.mono (ih hothers fun fs' hfs' => ?_) (fun _ h => h)
          (fun _ w hw => hw.mono (hend w.fs)) fun w hw => hw.mono (hend w.fs)
        obtain ⟨fs, hfs, _, gone, hgone, hpruned⟩ := hfs'
        obtain ⟨hdirs, hlaid⟩ := htree fs hfs.1
        refine ⟨fun other hother => ?_, fun other hother => ?_⟩
        · exact ⟨hpruned.shallow (hdirs other hother).1,
            (hdirs other hother).2.subtree hpruned.subtree⟩
        · exact (hlaid other (.tail _ hother)).pruned hpruned hgone hdir

/-- What one loop comes to that nothing hinders, wherever it is ended. -/
theorem cleanTargets_progress (hquiet : env.Quiet) {w : World}
    (hdepth : ∀ loc ∈ w.fs.locs, loc.length < depth) (hdirs : ∀ dir ∈ dirs, DirsOnly w.fs dir)
    {before : List (MaintenanceTarget × Loc)} {after : List MaintenanceTarget}
    (hlaid : ∀ place ∈ before, place.2 ∈ dirs ∧
      Laid env.cwd dirs place.1.cacheDir.path place.2 w.fs)
    (hcalm : Unhindered (eventsOf (cleanTargets env depth (before.map Prod.fst ++ after)) w)) :
    GetsOn dirs (before.map Prod.snd) w.process.config.maxFilesPerBatch.toInt w.fs
      ((cleanTargets env depth (before.map Prod.fst ++ after)).run w).2.fs := by
  have hshallow (dir : Loc) : w.fs.Shallow dir (depth + 1) := fun rest hrest =>
    Nat.lt_succ_of_lt (FileSystem.shallow_of_locs hdepth dir rest hrest)
  have hloop := @cleanTargets_getsOn env w.log.length depth w.process.config dirs hquiet before
    after (fun fs => fs = w.fs) (fun place hplace => (hlaid place hplace).1) (by
      rintro fs rfl
      exact ⟨fun dir hdir => ⟨hshallow dir, hdirs dir hdir⟩,
        fun place hplace => (hlaid place hplace).2⟩)
  have hend := Unless.of_not_occurs (hloop w (Unless.start _ ⟨rfl, rfl⟩)).state hcalm
  obtain ⟨_, fs, rfl, hgetsOn⟩ := hend
  exact hgetsOn

/-! ## Loop after loop -/

/-- Loops over targets, each on the tree that the one before has left, and anything in between
that does not touch the tree. So many of them were hindered by nothing: the checks found the
device idle and no call failed, while batches may have been told to stop. Each of these was to
clean every directory in `dirs` that was not empty before any other target, and its batches were
of at least `batch` files or of the least size. -/
inductive Passes (env : Env) (depth : Nat) (dirs : List Loc) (batch : Nat) (fs : FileSystem) :
    Nat → FileSystem → Prop
  | start : Passes env depth dirs batch fs 0 fs
  | other {w : World} {targets : List MaintenanceTarget} {rounds : Nat} :
      Passes env depth dirs batch fs rounds w.fs →
      Passes env depth dirs batch fs rounds ((cleanTargets env depth targets).run w).2.fs
  | unhindered {w : World} {before : List (MaintenanceTarget × Loc)}
      {after : List MaintenanceTarget} {rounds : Nat} :
      Passes env depth dirs batch fs rounds w.fs →
      (∀ dir ∈ dirs, w.fs.children dir ≠ [] → dir ∈ before.map Prod.snd) →
      (∀ place ∈ before, place.2 ∈ dirs ∧
        Laid env.cwd dirs place.1.cacheDir.path place.2 w.fs) →
      (batch : Int) ≤ max 1 w.process.config.maxFilesPerBatch.toInt →
      Unhindered (eventsOf (cleanTargets env depth (before.map Prod.fst ++ after)) w) →
      Passes env depth dirs batch fs (rounds + 1)
        ((cleanTargets env depth (before.map Prod.fst ++ after)).run w).2.fs

/-- Each of the loops that nothing hindered has taken a batch's worth, or all are empty. -/
theorem Passes.progress (hquiet : env.Quiet)
    (hdepth : ∀ loc ∈ fs.locs, loc.length < depth) (hdirs : ∀ dir ∈ dirs, DirsOnly fs dir)
    (h : Passes env depth dirs batch fs rounds fs') :
    fs'.Subtree fs ∧ ((∀ dir ∈ dirs, fs'.children dir = []) ∨
      entriesInside dirs fs' + rounds * batch ≤ entriesInside dirs fs) := by
  induction h with
  | start => exact ⟨.refl fs, Or.inr (by simp)⟩
  | @other w targets rounds _ ih =>
      have hsub := @cleanTargets_subtree env depth hquiet targets w
      refine ⟨hsub.trans ih.1, ih.2.imp (fun hempty dir hdir => ?_) fun hcount => ?_⟩
      · exact CleansInTurn.children_eq_nil hsub (hempty dir hdir)
      · have hle := @entriesInside_le _ _ dirs hsub
        omega
  | @unhindered w before after rounds _ hall hlaid hbatch hcalm ih =>
      have hgetsOn := cleanTargets_progress hquiet (ih.1.depth_lt hdepth)
        (fun dir hdir => (hdirs dir hdir).subtree ih.1) hlaid hcalm
      refine ⟨hgetsOn.subtree.trans ih.1, ?_⟩
      rcases ih.2 with hempty | hcount
      · exact Or.inl fun dir hdir => CleansInTurn.children_eq_nil hgetsOn.subtree (hempty dir hdir)
      · refine (hgetsOn.entriesInside_le hall hbatch).imp_right fun hstep => ?_
        rw [Nat.add_mul, Nat.one_mul]
        omega

/-- Directories that hold directories only lose a batch's worth of entries with each loop that goes
unhindered, however often the batches were told to stop, until they are empty; so they are once
there were as many such loops as there are batches in what lay below them. -/
theorem passes_empty (hquiet : env.Quiet) (hdepth : ∀ loc ∈ fs.locs, loc.length < depth)
    (hdirs : ∀ dir ∈ dirs, DirsOnly fs dir) (h : Passes env depth dirs batch fs rounds fs') :
    ((∀ dir ∈ dirs, fs'.children dir = []) ∨
      entriesInside dirs fs' + rounds * batch ≤ entriesInside dirs fs) ∧
    (entriesInside dirs fs ≤ rounds * batch → ∀ dir ∈ dirs, fs'.children dir = []) := by
  have hprogress := (h.progress hquiet hdepth hdirs).2
  refine ⟨hprogress, fun henough => ?_⟩
  rcases hprogress with hempty | hcount
  · exact hempty
  · exact fun dir hdir => children_eq_nil_of_entriesInside (by omega) hdir

/-- The process takes up too much memory, so that no batch may go on. -/
def hungryDevice : Env := { restingDevice with rssKb := fun _ => 60 * 1024 }

/-- Batches are of one file. -/
def hungryWorld : World :=
  { blockedCacheWorld with process := { config := { maxFilesPerBatch := 1 } } }

/-- What a loop over both targets leaves behind. -/
def afterPass (w : World) : World := ((cleanTargets hungryDevice 6 [targetB, targetA]).run w).2

/-- The first loop is told to stop in the cache of `com.b`, the second one empties it. -/
theorem passes_empty_hungryDevice :
    (afterPass hungryWorld).fs.children cacheOfBLoc ≠ [] ∧
      (afterPass (afterPass hungryWorld)).fs.children cacheOfBLoc = [] := by
  have hpass {w : World} {rounds : Nat}
      (h : Passes hungryDevice 6 [cacheOfBLoc] 1 hungryWorld.fs rounds w.fs)
      (hdir : w.fs.node cacheOfBLoc = some .dir) (hbatch : w.process.config.maxFilesPerBatch = 1)
      (hcalm : Unhindered (eventsOf (cleanTargets hungryDevice 6 [targetB, targetA]) w)) :
      Passes hungryDevice 6 [cacheOfBLoc] 1 hungryWorld.fs (rounds + 1) (afterPass w).fs := by
    have hlaid : ∀ place ∈ [(targetB, cacheOfBLoc)], place.2 ∈ [cacheOfBLoc] ∧
        Laid hungryDevice.cwd [cacheOfBLoc] place.1.cacheDir.path place.2 w.fs := by
      simp only [List.mem_singleton, forall_eq, true_and]
      exact .of_render (by decide +kernel) hdir (by decide +kernel)
    exact .unhindered h (by simp) hlaid (by rw [hbatch]; decide) hcalm
  have hfirst := hpass .start (by decide +kernel) (by decide +kernel) (by decide +kernel)
  have hsecond := hpass hfirst (by decide +kernel) (by decide +kernel) (by decide +kernel)
  obtain ⟨_, hempty⟩ :=
    passes_empty (fun _ => rfl) (by decide +kernel) (by decide +kernel) hsecond
  exact ⟨by decide +kernel, hempty (by decide +kernel) cacheOfBLoc (.head _)⟩

end FreshCore
