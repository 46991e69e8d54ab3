import FreshCore.Cache.CleanerComplete

/-!
# What undisturbed sweeps leave

The loop that calls the remover for the entries of a swept directory leaves behind what is not a
directory, as the one over a cache directory does. With it, it is said when all of the cleaner's
work is complete.
-/

namespace FreshCore

open Posix Imperative Config Device Cache

variable {env : Env} {mark : Nat} {tree : FileSystem → Prop}

/-! ## System sweeps -/

/-- A sweep takes the entry: it is a directory, and not one that holds the daemon's log. -/
def Swept (fs : FileSystem) (dir : Loc) (name : Name) : Prop :=
  contains (lit "freshcore.log") name = false ∧ fs.node (dir ++ [name]) = some .dir

section Sweeps

variable {depth : Nat}

theorem sweepChildren_yields (hquiet : env.Quiet) (hdepth : 0 < depth) {path : Bytes}
    {dir : Loc} {names : List Name}
    (htree : ∀ fs, tree fs → HasEntries env.cwd path dir depth names fs) :
    Yields mark tree (sweepChildren env depth path names) fun _ fs' => ∃ fs, tree fs ∧
      Pruned (fun place => ∃ name ∈ names, Swept fs dir name ∧ dir ++ [name] <+: place) fs fs' := by
  induction names generalizing tree with
  | nil => exact .pure fun fs hfs => ⟨fs, hfs, .refl (by simp)⟩
  | cons name rest ih =>
      -- an entry that is passed over leaves the tree to the rest of the loop
      have hskip {tree' : FileSystem → Prop}
          (htree' : ∀ fs, tree' fs → tree fs ∧ ¬ Swept fs dir name) :
          Yields mark tree' (sweepChildren env depth path rest) fun _ fs' => ∃ fs, tree fs ∧
            Pruned (fun place => ∃ other ∈ name :: rest, Swept fs dir other ∧
              dir ++ [other] <+: place) fs fs' := by
        refine (ih fun fs hfs => (htree fs (htree' fs hfs).1).tail).weaken ?_
        rintro _ fs' ⟨fs, hfs, hpruned⟩
        refine ⟨fs, (htree' fs hfs).1, hpruned.congr fun place _ => ?_⟩
        simp [(htree' fs hfs).2]
      unfold sweepChildren
      refine .ite (fun hlog => hskip fun fs hfs => ⟨hfs, fun hswept => ?_⟩) fun hlog => ?_
      · rw [hswept.1] at hlog
        cases hlog
      rw [Bool.not_eq_true] at hlog
      refine .by_cases (fun fs => fs.node (dir ++ [name]) = some .dir) ?_ ?_
      · have hremoves : Removes env mark (removeRecursiveBatched env depth (child path name))
            (child path name) (dir ++ [name]) depth :=
          removeRecursiveBatched_removes hquiet (by simp)
        refine .bind (hremoves _ fun fs hfs => ?_) fun _ => ?_
        · exact ⟨(htree fs hfs.1).dirAt.entry hfs.2, (htree fs hfs.1).shallow.entry name⟩
        refine (ih ?_).weaken ?_
        · rintro fs' ⟨_, fs, hfs, hhead⟩
          exact (htree fs hfs.1).pruned hhead
        · rintro _ fs'' ⟨fs', ⟨_, fs, hfs, hhead⟩, hrest⟩
          refine ⟨fs, hfs.1, (hhead.trans hrest).congr fun place _ => ?_⟩
          have hswept : Swept fs dir name := ⟨hlog, hfs.2⟩
          have hsame (other : Name) (hother : other ∈ rest) :
              Swept fs' dir other ↔ Swept fs dir other := by
            rw [Swept, hhead.kept _ (HasEntries.not_under ((htree fs hfs.1).ne_head hother)), Swept]
          rw [List.exists_mem_cons_iff, and_iff_right hswept]
          refine or_congr_right (exists_congr fun other => and_congr_right fun hother => ?_)
          rw [hsame other hother]
      · refine .bind (removeRecursiveBatched_refuses hquiet hdepth fun fs hfs => ?_) fun _ => ?_
        · rw [(htree fs hfs.1).dirAt.lstat_entry (htree fs hfs.1).head]
          exact hfs.2
        · exact hskip fun fs hfs => ⟨hfs.2.1, fun hswept => hfs.2.2 hswept.2⟩

theorem nativeFstrim_yields (path : Bytes) :
    Yields mark tree (nativeFstrim env path) fun _ => tree := by
  refine .bind evaluateIdleState_yields fun idle => .ite (fun hidle => ?_) fun _ => ?_
  · exact .pure fun fs hfs => absurd hidle hfs.2
  · refine .bind (sense_yields _) fun trims => .ite (fun _ => ?_) fun _ => .pure fun fs hfs => hfs.1
    exact (note_yields _).strengthen fun fs hfs => hfs.1

/-- No directory of the list stands below one that comes before it. -/
def Apart (dirs : List Loc) : Prop :=
  dirs.Pairwise fun dir other => ¬ dir <+: other

/-- No link leads to one of the directories, and none of them is too deep. -/
structure SweepReady (dirs : List Loc) (depth : Nat) (fs : FileSystem) : Prop where
  noLink : ∀ dir ∈ dirs, fs.NoLinkOn [] dir.dropLast
  shallow : ∀ dir ∈ dirs, fs.Shallow dir (depth + 1)

namespace SweepReady

variable {dir : Loc} {rest : List Loc} {fs fs' : FileSystem}

theorem tail (h : SweepReady (dir :: rest) depth fs) : SweepReady rest depth fs :=
  ⟨fun other hother => h.noLink other (.tail _ hother),
    fun other hother => h.shallow other (.tail _ hother)⟩

theorem pruned {dirs : List Loc} {gone : Loc → Prop} (h : SweepReady dirs depth fs)
    (hpruned : Pruned gone fs fs') : SweepReady dirs depth fs' :=
  ⟨fun dir hdir front back hsplit hfront target hlink =>
      h.noLink dir hdir front back hsplit hfront target (hpruned.node_of_eq_some hlink),
    fun dir hdir => hpruned.shallow (h.shallow dir hdir)⟩

end SweepReady

theorem dirAt_render {cwd dir : Loc} {fs : FileSystem} (hdir : fs.node dir = some .dir) :
    DirAt cwd (render dir) dir fs :=
  ⟨FileSystem.leads_render hdir false, hdir⟩

/-- A listing under a canonical name tells whether the directory is there. -/
theorem listing_render {cwd dir : Loc} {fs : FileSystem} (hroot : dir ≠ [])
    (hnames : ∀ name ∈ dir, ValidName name) (hlinks : fs.NoLinkOn [] dir.dropLast) :
    listing fs cwd (render dir) =
      if fs.node dir = some .dir then some (fs.children dir) else none := by
  by_cases hdir : fs.node dir = some .dir
  · rw [if_pos hdir, (dirAt_render hdir).listing]
  · rw [if_neg hdir, listing]
    cases hresolve : fs.resolve cwd false (render dir) with
    | none => rfl
    | some place =>
        obtain rfl := FileSystem.eq_of_resolve_render hroot hnames hlinks hresolve
        rw [Option.bind_some, if_neg hdir]

/-- Sweeping one directory does not change what is to be swept in another. -/
theorem swept_apart {dir other : Loc} {fs fs' : FileSystem} {gone : Loc → Prop}
    (hapart : ¬ dir <+: other) (hpruned : Pruned gone fs fs')
    (hgone : ∀ place, gone place → Below dir place) (name : Name) :
    Swept fs' other name ↔ Swept fs other name := by
  have hkept : ¬ gone (other ++ [name]) := by
    intro hplace
    exact hapart (below_snoc.mp (hgone _ hplace))
  rw [Swept, Swept, hpruned.kept _ hkept]

theorem sweepPaths_yields (hquiet : env.Quiet) (hdepth : 0 < depth) {dirs : List Loc}
    (hapart : Apart dirs) (hnames : ∀ dir ∈ dirs, dir ≠ [] ∧ ∀ name ∈ dir, ValidName name)
    (htree : ∀ fs, tree fs → SweepReady dirs depth fs) :
    Yields mark tree (sweepPaths env depth (dirs.map render)) fun _ fs' => ∃ fs, tree fs ∧
      Pruned (fun place => ∃ dir ∈ dirs, ∃ name, Swept fs dir name ∧ dir ++ [name] <+: place)
        fs fs' := by
  induction dirs generalizing tree with
  | nil => exact .pure fun fs hfs => ⟨fs, hfs, .refl (by simp)⟩
  | cons dir rest ih =>
      obtain ⟨hheadApart, hrestApart⟩ := List.pairwise_cons.mp hapart
      obtain ⟨hroot, hvalid⟩ := hnames dir (.head _)
      have hvalidRest (other : Loc) (hother : other ∈ rest) :=
        hnames other (List.mem_cons_of_mem dir hother)
      rw [List.map_cons]
      unfold sweepPaths
      refine .bind evaluateIdleState_yields fun idle => .ite (fun hidle => ?_) fun _ => ?_
      · exact .pure fun fs hfs => absurd hidle hfs.2
      refine .bind (getDirectoryChildren_yields hquiet _) fun children => ?_
      have hlisting (fs : FileSystem)
          (hfs : (tree fs ∧ idle ≠ .notIdle) ∧ children = listing fs env.cwd (render dir)) :
          children = if fs.node dir = some .dir then some (fs.children dir) else none := by
        rw [hfs.2, listing_render hroot hvalid ((htree fs hfs.1.1).noLink dir (.head _))]
      cases children with
      | none =>
          refine (ih hrestApart hvalidRest fun fs hfs => (htree fs hfs.1.1).tail).weaken ?_
          rintro _ fs' ⟨fs, hfs, hpruned⟩
          have hnone (name : Name) : ¬ Swept fs dir name := by
            intro hswept
            have hnothing := hlisting fs hfs
            rw [if_pos (fs.parent_dir dir name (by rw [hswept.2]; rfl))] at hnothing
            cases hnothing
          refine ⟨fs, hfs.1.1, hpruned.congr fun place _ => ?_⟩
          simp [hnone]
      | some children =>
          have hdir (fs : FileSystem)
              (hfs : (tree fs ∧ idle ≠ .notIdle) ∧
                some children = listing fs env.cwd (render dir)) :
              fs.node dir = some .dir ∧ children = fs.children dir := by
            have hfound := hlisting fs hfs
            split at hfound
            next hnode => exact ⟨hnode, Option.some.inj hfound⟩
            next => cases hfound
          have hentries (fs : FileSystem)
              (hfs : (tree fs ∧ idle ≠ .notIdle) ∧
                some children = listing fs env.cwd (render dir)) :
              HasEntries env.cwd (render dir) dir depth children fs := by
            obtain ⟨hnode, hchildren⟩ := hdir fs hfs
            rw [hchildren]
            exact (dirAt_render hnode).hasEntries ((htree fs hfs.1.1).shallow dir (.head _))
          refine .bind (enter_yields _) fun _ => ?_
          refine .bind (sweepChildren_yields hquiet hdepth hentries) fun _ => ?_
          refine .bind (leave_yields _ _) fun _ => ?_
          refine (ih hrestApart hvalidRest ?_).weaken ?_
          · rintro fs' ⟨fs, hfs, hhead⟩
            exact ((htree fs hfs.1.1).pruned hhead).tail
          · rintro _ fs'' ⟨fs', ⟨fs, hfs, hhead⟩, hrest⟩
            have hgone (place : Loc) (hplace : ∃ name ∈ children, Swept fs dir name ∧
                dir ++ [name] <+: place) : Below dir place := by
              obtain ⟨name, _, _, hpre⟩ := hplace
              exact (below_child dir name).trans hpre
            refine ⟨fs, hfs.1.1, (hhead.trans hrest).congr fun place _ => ?_⟩
            rw [List.exists_mem_cons_iff]
            refine or_congr ?_ (exists_congr fun other => and_congr_right fun hother => ?_)
            · refine exists_congr fun name => and_iff_right_of_imp fun hswept => ?_
              rw [(hdir fs hfs).2, FileSystem.mem_children, hswept.1.2]
              rfl
            · apply exists_congr
              intro name
              rw [swept_apart (hheadApart other hother) hhead hgone name]

/-- The directories that are swept. -/
def sweptDirs : List Loc :=
  [[lit "data", lit "tombstones"], [lit "data", lit "system", lit "dropbox"],
    [lit "data", lit "local", lit "tmp"]]

theorem pathsToSweep_eq : pathsToSweep = sweptDirs.map render := by decide +kernel

theorem sweptDirs_apart : Apart sweptDirs := by
  unfold Apart
  decide +kernel

theorem sweptDirs_valid : ∀ dir ∈ sweptDirs, dir ≠ [] ∧ ∀ name ∈ dir, ValidName name := by
  decide +kernel

/-- What a sweep takes of one of the directories are its own swept entries. -/
theorem gone_iff_swept {fs : FileSystem} {dir : Loc} (hdir : dir ∈ sweptDirs) (name : Name) :
    (∃ other ∈ sweptDirs, ∃ entry, Swept fs other entry ∧
      other ++ [entry] <+: dir ++ [name]) ↔ Swept fs dir name := by
  -- an entry of one swept directory is not at or below an entry of another one
  have hsame : ∀ dir ∈ sweptDirs, ∀ other ∈ sweptDirs, other <+: dir → other = dir := by
    decide +kernel
  constructor
  · rintro ⟨other, hother, entry, hswept, hpre⟩
    have habove : other <+: dir := below_snoc.mp ((below_child other entry).trans hpre)
    obtain rfl := hsame dir hdir other hother habove
    rw [List.prefix_append_right_inj] at hpre
    have hentry : entry = name := by simpa using hpre
    rwa [← hentry]
  · intro hswept
    exact ⟨dir, hdir, name, hswept, List.prefix_refl _⟩

theorem runSystemMaintenanceSweeps_yields (hquiet : env.Quiet) (hdepth : 0 < depth)
    (htree : ∀ fs, tree fs → SweepReady sweptDirs depth fs) :
    Yields mark tree (runSystemMaintenanceSweeps env depth) fun _ fs' => ∃ fs, tree fs ∧
      Pruned (fun place => ∃ dir ∈ sweptDirs, ∃ name, Swept fs dir name ∧
        dir ++ [name] <+: place) fs fs' := by
  unfold runSystemMaintenanceSweeps
  rw [pathsToSweep_eq]
  refine .bind (nativeFstrim_yields _) fun _ => .bind (nativeFstrim_yields _) fun _ => ?_
  refine .bind (sweepPaths_yields hquiet hdepth sweptDirs_apart sweptDirs_valid htree) fun _ => ?_
  exact note_yields _

end Sweeps

/-! ## What a sweep takes

Whatever fails on the way, a sweep stays at and below the entries it may take. -/

section Traces

variable (depth : Nat)

theorem nativeFstrim_traced (env : Env) (path : Bytes) (w : World) :
    ∃ w' looks, (nativeFstrim env path).run w = (some (), w') ∧ w'.fs = w.fs ∧
      Traced env w w' looks ∧ Glances w.fs looks w.fs := by
  obtain ⟨idle, w₁, checks, hidle, hfs, htraced, hglances, _⟩ := evaluateIdleState_traced env w
  rw [nativeFstrim, Program.run_bind_of_some hidle]
  split
  · exact ⟨w₁, checks, rfl, hfs, htraced, hglances⟩
  · have hsense : (sense env.trims).run w₁ = (some (env.trims w₁.tick), w₁.next) := rfl
    rw [Program.run_bind_of_some hsense]
    split
    · have htrimmed : Traced env w₁ (w₁.next.record (.trimmed path)) [.trimmed path] :=
        .single rfl rfl rfl rfl
      exact ⟨_, _, rfl, hfs, htraced.trans htrimmed, hglances.trans (.single rfl w.fs)⟩
    · exact ⟨_, checks, rfl, hfs, htraced.next, hglances⟩

/-- By induction on the names, each of which has its own places. -/
theorem sweepChildren_takes (hquiet : env.Quiet) {path : Bytes} {dir : Loc} {names : List Name}
    {w : World} (hat : EntriesAt env.cwd w.fs path dir names) :
    ∃ events, Traced env w ((sweepChildren env depth path names).run w).2 events ∧
      Takes env.cwd (fun place => ∃ name ∈ names, contains (lit "freshcore.log") name = false ∧
        dir ++ [name] <+: place) w.fs events ((sweepChildren env depth path names).run w).2.fs := by
  induction names generalizing w with
  | nil => exact ⟨[], .silent rfl rfl, .of_placeless (by simp)⟩
  | cons name rest ih =>
      have hlater (place : Loc) (h : ∃ other ∈ rest, contains (lit "freshcore.log") other = false ∧
          dir ++ [other] <+: place) : ∃ other ∈ name :: rest,
            contains (lit "freshcore.log") other = false ∧ dir ++ [other] <+: place := by
        obtain ⟨other, hother, hsweeps⟩ := h
        exact ⟨other, .tail _ hother, hsweeps⟩
      unfold sweepChildren
      split
      next =>
        obtain ⟨events, htraced, htakes⟩ := ih hat.tail
        exact ⟨events, htraced, htakes.mono hlater⟩
      next hlog =>
        rw [Bool.not_eq_true] at hlog
        have hhead (place : Loc) (hpart : dir ++ [name] <+: place) : ∃ other ∈ name :: rest,
            contains (lit "freshcore.log") other = false ∧ dir ++ [other] <+: place :=
          ⟨name, .head _, hlog, hpart⟩
        obtain ⟨inner, htraced, hrun⟩ := removeRecursiveBatched_does env depth (child path name) w
        have hinner := hrun.takes (htraced.alone hquiet) (hat.leads name (.head _))
        rw [Program.run_bind]
        rcases hresult : (removeRecursiveBatched env depth (child path name)).run w with
          ⟨_ | completed, w₁⟩ <;> rw [hresult] at htraced hinner
        · exact ⟨inner, htraced, hinner.mono hhead⟩
        · obtain ⟨events, htraced', hrest⟩ := ih (hat.tail.subtree hinner.pruned.subtree)
          refine ⟨_, htraced.trans htraced', (hinner.trans hrest ?_).mono ?_⟩
          · rintro place hpart later ⟨other, hother, _, hpart'⟩ hbelow
            exact hat.apart (hpart.trans hbelow) ⟨other, hother, hpart'⟩
          · rintro place (hpart | hrest)
            · exact hhead place hpart
            · exact hlater place hrest

/-- By induction on the directories, which lie apart. -/
theorem sweepPaths_takes (hquiet : env.Quiet) {dirs : List Loc}
    (hapart : dirs.Pairwise fun dir other => ¬ dir <+: other ∧ ¬ other <+: dir)
    (hnames : ∀ dir ∈ dirs, dir ≠ [] ∧ ∀ name ∈ dir, ValidName name) {w : World}
    (hlinks : ∀ dir ∈ dirs, w.fs.NoLinkOn [] dir.dropLast) :
    ∃ events, Traced env w ((sweepPaths env depth (dirs.map render)).run w).2 events ∧
      Takes env.cwd (fun place => ∃ dir ∈ dirs, ∃ name,
          contains (lit "freshcore.log") name = false ∧ dir ++ [name] <+: place)
        w.fs events ((sweepPaths env depth (dirs.map render)).run w).2.fs := by
  induction dirs generalizing w with
  | nil => exact ⟨[], .silent rfl rfl, .of_placeless (by simp)⟩
  | cons dir rest ih =>
      obtain ⟨hheadApart, hrestApart⟩ := List.pairwise_cons.mp hapart
      obtain ⟨hroot, hvalid⟩ := hnames dir (.head _)
      have hnamesRest (other : Loc) (hother : other ∈ rest) := hnames other (.tail _ hother)
      have hlinksRest (fs : FileSystem) (hsub : fs.Subtree w.fs) (other : Loc)
          (hother : other ∈ rest) : fs.NoLinkOn [] other.dropLast :=
        fun front back hsplit hfront target hlink =>
          hlinks other (.tail _ hother) front back hsplit hfront target (hsub _ _ hlink)
      obtain ⟨idle, w₁, checks, hidle, hfs₁, htraced₁, hglances₁, _⟩ :=
        evaluateIdleState_traced env w
      rw [List.map_cons, sweepPaths, Program.run_bind_of_some hidle]
      split
      next =>
        refine ⟨checks, htraced₁, ?_⟩
        rw [Program.run_pure, hfs₁]
        exact .of_placeless (hglances₁.all fun _ => Event.isPlaceless_of_isPlain)
      next =>
        obtain ⟨children, w₂, looks, hlist, htraced₂, hglances₂, hfound⟩ :=
          getDirectoryChildren_traced env (render dir) w₁
        have hfs₂ : w₂.fs = w.fs := (hglances₂.still (alone_append.mp
          ((htraced₁.trans htraced₂).alone hquiet)).2).trans hfs₁
        have hbefore : ∀ event ∈ checks ++ looks, event.isPlaceless = true :=
          List.forall_mem_append.mpr ⟨hglances₁.all fun _ => Event.isPlaceless_of_isPlain,
            hglances₂.all fun _ => Event.isPlaceless_of_isPlain⟩
        rw [Program.run_bind_of_some hlist]
        cases children with
        | none =>
            obtain ⟨events, htraced, htakes⟩ :=
              ih hrestApart hnamesRest (hlinksRest w₂.fs (hfs₂ ▸ .refl w.fs))
            rw [hfs₂] at htakes
            refine ⟨_, (htraced₁.trans htraced₂).trans htraced, (htakes.after hbefore).mono ?_⟩
            rintro place ⟨other, hother, hsweeps⟩
            exact ⟨other, .tail _ hother, hsweeps⟩
        | some names =>
            have hlists : Lists env.cwd (render dir) w₁.fs looks w₂.fs names :=
              ⟨hglances₂, (hfound.resolve_left (by simp)).symm⟩
            have hentries : EntriesAt env.cwd w₂.fs (render dir) dir names :=
              hlists.entriesAt fun place hplace => by
                rw [hfs₂] at hplace
                exact FileSystem.eq_of_resolve_render hroot hvalid (hlinks dir (.head _)) hplace
            obtain ⟨w₃, henter, hfs₃, htraced₃⟩ := enter_traced (render dir) w₂
            rw [← hfs₃] at hentries
            obtain ⟨inner, htraced₄, hinner⟩ := sweepChildren_takes depth hquiet hentries
            have htraced := ((htraced₁.trans htraced₂).trans htraced₃).trans htraced₄
            have hbefore' : ∀ event ∈ checks ++ looks ++ [.entered (render dir)],
                event.isPlaceless = true :=
              List.forall_mem_append.mpr ⟨hbefore, by simp [Event.isPlaceless]⟩
            rw [hfs₃, hfs₂] at hinner
            have hhead := hinner.after hbefore'
            simp only [Program.run_bind_of_some henter]
            rw [Program.run_bind]
            rcases hresult : (sweepChildren env depth (render dir) names).run w₃ with
              ⟨_ | _, w₄⟩ <;> rw [hresult] at htraced hhead
            · refine ⟨_, htraced, hhead.mono ?_⟩
              rintro place ⟨name, _, hsweeps⟩
              exact ⟨dir, .head _, name, hsweeps⟩
            · obtain ⟨w₅, hleave, hfs₅, htraced₅⟩ := leave_traced (render dir) true w₄
              obtain ⟨events, htraced₆, htakes⟩ := ih (w := w₅) hrestApart hnamesRest
                (hlinksRest w₅.fs (hfs₅ ▸ hhead.pruned.subtree))
              rw [hfs₅] at htakes
              have hrest : Takes env.cwd _ w₄.fs (.left (render dir) true :: events) _ :=
                htakes.cons rfl
              simp only [Program.run_bind_of_some hleave]
              refine ⟨_, ?_, (hhead.trans hrest ?_).mono ?_⟩
              · simpa using (htraced.trans htraced₅).trans htraced₆
              · rintro place ⟨name, _, _, hpart⟩ later ⟨other, hother, name', _, hpart'⟩ hbelow
                obtain ⟨hnot, hnot'⟩ := hheadApart other hother
                have hdir : dir <+: later := (List.prefix_append _ _).trans (hpart.trans hbelow)
                have hother : other <+: later := (List.prefix_append _ _).trans hpart'
                exact (List.prefix_or_prefix_of_prefix hdir hother).elim hnot hnot'
              · rintro place (⟨name, _, hsweeps⟩ | ⟨other, hother, hsweeps⟩)
                · exact ⟨dir, .head _, name, hsweeps⟩
                · exact ⟨other, .tail _ hother, hsweeps⟩

theorem sweptDirs_disjoint :
    sweptDirs.Pairwise fun dir other => ¬ dir <+: other ∧ ¬ other <+: dir := by
  decide +kernel

theorem runSystemMaintenanceSweeps_takes (hquiet : env.Quiet) {w : World}
    (hlinks : ∀ dir ∈ sweptDirs, w.fs.NoLinkOn [] dir.dropLast) :
    ∃ events, Traced env w ((runSystemMaintenanceSweeps env depth).run w).2 events ∧
      Takes env.cwd (fun place => ∃ dir ∈ sweptDirs, ∃ name,
          contains (lit "freshcore.log") name = false ∧ dir ++ [name] <+: place)
        w.fs events ((runSystemMaintenanceSweeps env depth).run w).2.fs := by
  obtain ⟨w₁, trims₁, htrim₁, hfs₁, htraced₁, hglances₁⟩ := nativeFstrim_traced env (lit "/data") w
  obtain ⟨w₂, trims₂, htrim₂, hfs₂, htraced₂, hglances₂⟩ :=
    nativeFstrim_traced env (lit "/cache") w₁
  have hfs := hfs₂.trans hfs₁
  rw [← hfs] at hlinks
  obtain ⟨events, htraced₃, htakes⟩ :=
    sweepPaths_takes depth hquiet sweptDirs_disjoint sweptDirs_valid hlinks
  have hbefore : ∀ event ∈ trims₁ ++ trims₂, event.isPlaceless = true :=
    List.forall_mem_append.mpr ⟨hglances₁.all fun _ => Event.isPlaceless_of_isPlain,
      hglances₂.all fun _ => Event.isPlaceless_of_isPlain⟩
  have htraced := (htraced₁.trans htraced₂).trans htraced₃
  rw [hfs] at htakes
  have hall := htakes.after hbefore
  unfold runSystemMaintenanceSweeps
  rw [pathsToSweep_eq, Program.run_bind_of_some htrim₁, Program.run_bind_of_some htrim₂,
    Program.run_bind]
  rcases hresult : (sweepPaths env depth (sweptDirs.map render)).run w₂ with ⟨_ | _, w₃⟩ <;>
    rw [hresult] at htraced hall
  · exact ⟨_, htraced, hall⟩
  · have hdone : Traced env w₃ (w₃.record .sweepsDone) [.sweepsDone] := .single rfl rfl rfl rfl
    exact ⟨_, htraced.trans hdone, hall.before (by simp [Event.isPlaceless])⟩

end Traces

/-! ## Completeness -/

/-- The swept directories hold only entries of the log's name. -/
def SweepsAll (fs : FileSystem) : Prop :=
  ∀ dir ∈ sweptDirs, ∀ name ∈ fs.children dir, contains (lit "freshcore.log") name = true

instance (fs : FileSystem) : Decidable (SweepsAll fs) := by
  unfold SweepsAll
  infer_instance

theorem runSystemMaintenanceSweeps_allSeen (hquiet : env.Quiet) {depth : Nat} {w : World}
    (hlinks : ∀ dir ∈ sweptDirs, w.fs.NoLinkOn [] dir.dropLast)
    (hsweeps : SweepsAll ((runSystemMaintenanceSweeps env depth).run w).2.fs) :
    AllSeen (eventsOf (runSystemMaintenanceSweeps env depth) w) := by
  intro path hfailed
  obtain ⟨events, htraced, htakes⟩ := runSystemMaintenanceSweeps_takes depth hquiet hlinks
  rw [htraced.eventsOf_eq] at hfailed
  obtain ⟨place, _, ⟨dir, hdir, name, hlog, hpart⟩, hthere⟩ := htakes.resists hfailed rfl
  have hentry : name ∈ (((runSystemMaintenanceSweeps env depth).run w).2.fs).children dir :=
    FileSystem.mem_children.mpr (FileSystem.isSome_above hpart hthere)
  rw [hsweeps dir hdir name hentry] at hlog
  cases hlog

theorem runSystemMaintenanceSweeps_sweepsAll_iff (hquiet : env.Quiet) {depth : Nat} {w : World}
    (hdepth : ∀ loc ∈ w.fs.locs, loc.length < depth)
    (hlinks : ∀ dir ∈ sweptDirs, w.fs.NoLinkOn [] dir.dropLast)
    (hcalm : Undisturbed (eventsOf (runSystemMaintenanceSweeps env depth) w)) :
    SweepsAll ((runSystemMaintenanceSweeps env depth).run w).2.fs ↔
      ∀ dir ∈ sweptDirs, ∀ name ∈ w.fs.children dir,
        contains (lit "freshcore.log") name = true ∨ w.fs.node (dir ++ [name]) = some .dir := by
  have hpos := FileSystem.depth_pos hdepth
  have hready : SweepReady sweptDirs depth w.fs := ⟨hlinks, fun dir _ rest hrest =>
    Nat.lt_succ_of_lt (FileSystem.shallow_of_locs hdepth dir rest hrest)⟩
  obtain ⟨_, _, fs, rfl, hpruned⟩ :=
    (runSystemMaintenanceSweeps_yields hquiet hpos fun fs hfs => by rwa [hfs]).run hcalm
  refine forall₂_congr fun dir hdir => forall_congr' fun name => ?_
  rw [hpruned.mem_children, gone_iff_swept hdir, Swept]
  cases contains (lit "freshcore.log") name <;> simp

/-- On a tree that nobody else changes, an uninterrupted cleaning of a directory is complete
exactly when it held directories only and every entry that it came to could be looked at, and
uninterrupted sweeps are complete exactly when everything but entries of the log's name was a
directory and every entry that they came to could be looked at. -/
theorem cleaning_complete_iff (hquiet : env.Quiet) (depth : Nat) (w : World)
    (hdepth : ∀ loc ∈ w.fs.locs, loc.length < depth) :
    (∀ targetDir loc, w.fs.Leads env.cwd false targetDir.path loc →
      w.fs.node loc = some .dir →
      Uninterrupted (eventsOf (cleanDirectorySafely env depth targetDir) w) →
      (CleansAll loc ((cleanDirectorySafely env depth targetDir).run w) ↔
        (∀ name ∈ w.fs.children loc, w.fs.node (loc ++ [name]) = some .dir) ∧
          AllSeen (eventsOf (cleanDirectorySafely env depth targetDir) w))) ∧
    ((∀ dir ∈ sweptDirs, w.fs.NoLinkOn [] dir.dropLast) →
      Uninterrupted (eventsOf (runSystemMaintenanceSweeps env depth) w) →
      (SweepsAll ((runSystemMaintenanceSweeps env depth).run w).2.fs ↔
        (∀ dir ∈ sweptDirs, ∀ name ∈ w.fs.children dir,
          contains (lit "freshcore.log") name = true ∨
            w.fs.node (dir ++ [name]) = some .dir) ∧
          AllSeen (eventsOf (runSystemMaintenanceSweeps env depth) w))) := by
  constructor
  · intro targetDir loc hleads hdir hcalm
    have hiff (hseen : AllSeen (eventsOf _ w)) :=
      cleanDirectorySafely_cleansAll_iff hquiet hdepth hleads hdir (hcalm.undisturbed hseen)
    constructor
    · intro hcleans
      have hseen := cleanDirectorySafely_allSeen hquiet hleads.resolve hcleans
      exact ⟨(hiff hseen).mp hcleans, hseen⟩
    · rintro ⟨hdirs, hseen⟩
      exact (hiff hseen).mpr hdirs
  · intro hlinks hcalm
    have hiff (hseen : AllSeen (eventsOf _ w)) :=
      runSystemMaintenanceSweeps_sweepsAll_iff hquiet hdepth hlinks (hcalm.undisturbed hseen)
    constructor
    · intro hsweeps
      have hseen := runSystemMaintenanceSweeps_allSeen hquiet hlinks hsweeps
      exact ⟨(hiff hseen).mp hsweeps, hseen⟩
    · rintro ⟨hdirs, hseen⟩
      exact (hiff hseen).mpr hdirs

/-! ## Two devices -/

def cacheOfA : CacheDirInfo where
  path := lit "/data/com.a/cache"
  pkgName := lit "com.a"

/-- The directories that every device has. -/
def emptyDevice : FileSystem :=
  FsStep.applyAll .bare [
    .mkdir [] (lit "data"),
    .mkdir [lit "data"] (lit "tombstones"),
    .mkdir [lit "data"] (lit "system"),
    .mkdir [lit "data", lit "system"] (lit "dropbox"),
    .mkdir [lit "data"] (lit "local"),
    .mkdir [lit "data", lit "local"] (lit "tmp"),
    .mkdir [lit "data"] (lit "com.a"),
    .mkdir [lit "data", lit "com.a"] (lit "cache")]

/-- Files and links only in directories of their own. -/
def nestedWorld : World where
  fs := FsStep.applyAll emptyDevice [
    .mkdir [lit "data", lit "com.a", lit "cache"] (lit "d"),
    .create [lit "data", lit "com.a", lit "cache", lit "d"] (lit "f") 10,
    .symlink [lit "data", lit "com.a", lit "cache", lit "d"] (lit "l") (lit "/data/system"),
    .mkdir [lit "data", lit "com.a", lit "cache", lit "d"] (lit "e"),
    .create [lit "data", lit "local", lit "tmp"] (lit "freshcore.log") 20,
    .mkdir [lit "data", lit "tombstones"] (lit "t"),
    .create [lit "data", lit "tombstones", lit "t"] (lit "f") 30]

/-- A file in the cache directory itself, and one in a swept directory. -/
def flatWorld : World where
  fs := FsStep.applyAll emptyDevice [
    .create [lit "data", lit "com.a", lit "cache"] (lit "f") 10,
    .create [lit "data", lit "tombstones"] (lit "tombstone_00") 30]

theorem leads_cacheOfA {fs : FileSystem}
    (hdir : fs.node [lit "data", lit "com.a", lit "cache"] = some .dir) :
    fs.Leads [] false cacheOfA.path [lit "data", lit "com.a", lit "cache"] := by
  have hpath : cacheOfA.path = render [lit "data", lit "com.a", lit "cache"] := by
    decide +kernel
  rw [hpath]
  exact FileSystem.leads_render hdir false

theorem cleaning_complete_nested :
    CleansAll [lit "data", lit "com.a", lit "cache"]
        ((cleanDirectorySafely restingDevice 6 cacheOfA).run nestedWorld) ∧
      SweepsAll ((runSystemMaintenanceSweeps restingDevice 6).run nestedWorld).2.fs := by
  obtain ⟨hclean, hsweep⟩ :=
    cleaning_complete_iff restingDevice_quiet 6 nestedWorld (by decide +kernel)
  have hparents : ∀ dir ∈ sweptDirs, nestedWorld.fs.node dir.dropLast = some .dir := by
    decide +kernel
  constructor
  · refine (hclean cacheOfA _ (leads_cacheOfA ?_) ?_ ?_).mpr ?_ <;> decide +kernel
  · refine (hsweep (fun dir hdir => .of_dir (hparents dir hdir)) ?_).mpr ?_ <;> decide +kernel

/-- The file in the cache directory makes the cleaning give up, and the one in the swept
directory stays. -/
theorem cleaning_incomplete_flat :
    flatWorld.fs.Leads restingDevice.cwd false cacheOfA.path
        [lit "data", lit "com.a", lit "cache"] ∧
      Undisturbed (eventsOf (cleanDirectorySafely restingDevice 6 cacheOfA) flatWorld) ∧
      Undisturbed (eventsOf (runSystemMaintenanceSweeps restingDevice 6) flatWorld) ∧
      ((cleanDirectorySafely restingDevice 6 cacheOfA).run flatWorld).1 = some false ∧
      ¬ CleansAll [lit "data", lit "com.a", lit "cache"]
        ((cleanDirectorySafely restingDevice 6 cacheOfA).run flatWorld) ∧
      ¬ SweepsAll ((runSystemMaintenanceSweeps restingDevice 6).run flatWorld).2.fs := by
  refine ⟨leads_cacheOfA ?_, ?_, ?_, ?_, ?_, ?_⟩ <;> decide +kernel

end FreshCore
