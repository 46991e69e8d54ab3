import FreshCore.Cache.AnalysisTurns
import FreshCore.Cache.ScannerConfinement
import FreshCore.Core.Restart
import FreshCore.Device.PackagesList
import FreshCore.Posix.OwnFiles

/-!
# What the daemon may remove

The cleaner and the sweeps remove whatever they are pointed at. That they are pointed at
nothing but the entries of three directories and the caches of installed packages is a
property of the whole daemon: the places are those to which names led when it was started,
however many rounds of maintenance have gone by since. Its log, its state file and the settings
it makes at boot go their own ways meanwhile, and make no difference to where names lead.
-/

namespace FreshCore

open Posix Imperative Config Device Cache

/-- The place is at or below an entry of a swept directory that is not taken for a log. -/
def IsSwept (fs : FileSystem) (cwd place : Loc) : Prop :=
  ∃ path ∈ pathsToSweep, ∃ dir name, fs.resolve cwd false path = some dir ∧
    fs.node dir = some .dir ∧ contains (lit "freshcore.log") name = false ∧
    dir ++ [name] <+: place

/-- Where the caches of a package are that the configuration lets the scanner look for. -/
inductive IsCacheOf (fs : FileSystem) (cwd : Loc) (config : Configuration) (pkg : PackageInfo) :
    Loc → Prop
  | internal {home : Loc} {name : Name} : isIncluded config pkg = true →
      fs.resolve cwd true pkg.dataDir = some home →
      (name = lit "cache" ∨ name = lit "code_cache") →
      IsCacheOf fs cwd config pkg (home ++ [name])
  | external {home : Loc} : isIncluded config pkg = true →
      config.includeExternalCache = true →
      fs.resolve cwd true (externalDir pkg) = some home →
      IsCacheOf fs cwd config pkg (home ++ [lit "cache"])

/-- The package is listed in `packages.list` at some time. -/
def Env.Installs (env : Env) (pkg : PackageInfo) : Prop :=
  ∃ tick, pkg ∈ getInstalledPackages (env.packagesList tick)

/-- The files that the daemon writes, each with its directory: the report and the one before
it, the state file and the one that is renamed to it, and the settings of `ApplyBootTweaks`. -/
def ownFiles : List (Bytes × Name) := [
  (lit "/data/media/0/Download", lit "FreshCore_Report.txt"),
  (lit "/data/media/0/Download", lit "FreshCore_Report.txt.old"),
  (lit "/data/adb/freshcore", lit "state.bin"),
  (lit "/data/adb/freshcore", lit "state.tmp"),
  (lit "/proc/sys/net/ipv4", lit "tcp_window_scaling"),
  (lit "/proc/sys/net/ipv4", lit "tcp_rmem"),
  (lit "/proc/sys/net/ipv4", lit "tcp_wmem")]

/-- Where these files are, and the read-ahead settings of the block devices. -/
inductive IsOwnFile (fs : FileSystem) (cwd : Loc) : Loc → Prop
  | listed {path : Bytes} {name : Name} {dir : Loc} : (path, name) ∈ ownFiles →
      fs.resolve cwd true path = some dir → IsOwnFile fs cwd (dir ++ [name])
  | readAhead {block : Name} {dir : Loc} :
      fs.resolve cwd true (child (lit "/sys/block") (child block (lit "queue"))) = some dir →
      IsOwnFile fs cwd (dir ++ [lit "read_ahead_kb"])

/-- What may be removed where names lead on the tree `fs`. -/
def MayRemove (env : Env) (config : Configuration) (fs : FileSystem) (place : Loc) : Prop :=
  IsSwept fs env.cwd place ∨
    ∃ pkg, env.Installs pkg ∧ ∃ dir, IsCacheOf fs env.cwd config pkg dir ∧ Below dir place

/-- The tree `fs'` is `fs` without some of what may be removed, but for the daemon's own files. -/
structure Spared (own may : Loc → Prop) (fs fs' : FileSystem) : Prop where
  subtree : fs'.SubtreeBut own fs
  kept : ∀ place, ¬ own place → ¬ may place → fs'.node place = fs.node place

/-- Nothing else has gone so far, under this configuration. -/
structure Sparing (own may : Loc → Prop) (config : Configuration) (fs : FileSystem) (w : World) :
    Prop where
  config_eq : w.process.config = config
  spared : Spared own may fs w.fs

/-- Nobody changes the tree but the daemon itself, and that only at its own files. -/
def Env.Housekeeps (env : Env) (own : Loc → Prop) : Prop :=
  ∀ tick, ∀ step ∈ env.others tick, step.Tends own

/-- Everything at and below the place to which the name led may be removed. -/
def Ceded (fs : FileSystem) (cwd : Loc) (may : Loc → Prop) (path : Bytes) : Prop :=
  ∀ loc, fs.resolve cwd false path = some loc → ∀ place, loc <+: place → may place

variable {env : Env} {depth : Nat} {own may : Loc → Prop} {config : Configuration}
  {fs : FileSystem} {cwd : Loc} {path : Bytes}

/-- The entries of a directory are found through it. -/
theorem ceded_child {dir : Loc} {name : Name} (hdir : fs.resolve cwd false path = some dir)
    (hnode : fs.node dir = some .dir) (hname : ValidName name)
    (hmay : ∀ place, dir ++ [name] <+: place → may place) :
    Ceded fs cwd may (child path name) := by
  intro loc hloc place hpart
  have hpath := (FileSystem.resolve_eq_some.mp hdir).1
  obtain ⟨dir', hdir', _, rfl, _⟩ := FileSystem.resolve_child_inv hpath hname hloc
  obtain rfl : dir = dir' :=
    Option.some.inj ((FileSystem.resolve_follow hdir hnode).symm.trans hdir')
  exact hmay place hpart

theorem Ceded.child {dir : Loc} {name : Name} (h : Ceded fs cwd may path)
    (hdir : fs.resolve cwd false path = some dir) (hnode : fs.node dir = some .dir)
    (hname : ValidName name) : Ceded fs cwd may (child path name) :=
  ceded_child hdir hnode hname fun place hpart =>
    h dir hdir place ((List.prefix_append dir [name]).trans hpart)

/-- A removal takes a place that may go, if it takes any. -/
theorem Spared.erase {fs' fs'' : FileSystem} {loc : Loc} (h : Spared own may fs fs')
    (hloc : ¬ own loc → may loc) (herase : fs'.erase loc = some fs'') :
    Spared own may fs fs'' := by
  refine ⟨h.subtree.erase herase, fun place hplace hnot => ?_⟩
  rw [FileSystem.erase_node herase, if_neg]
  · exact h.kept place hplace hnot
  · rintro rfl
    exact hnot (hloc hplace)

theorem Spared.tended {fs' fs'' : FileSystem} (h : Spared own may fs fs')
    (htended : Tended own fs' fs'') : Spared own may fs fs'' where
  subtree := h.subtree.tended htended
  kept place hplace hnot := (htended.elsewhere place hplace).trans (h.kept place hplace hnot)

namespace Sparing

theorem still {w w' : World} (h : Sparing own may config fs w)
    (hconfig : w'.process.config = w.process.config) (hfs : w'.fs = w.fs) :
    Sparing own may config fs w' := by
  refine ⟨hconfig.trans h.config_eq, ?_⟩
  rw [hfs]
  exact h.spared

theorem interfere (hown : env.Housekeeps own) {w : World} (h : Sparing own may config fs w) :
    Sparing own may config fs (w.interfere env) := by
  refine ⟨(congrArg Process.config (interfere_process env w)).trans h.config_eq, ?_⟩
  unfold World.interfere
  split
  · exact h.spared
  next steps _ =>
    exact h.spared.tended (FsStep.applyAll_tended (hown w.tick) h.spared.subtree.files)

end Sparing

/-- Everything but a removal, as long as it leaves the configuration alone. -/
def sparingScope : Scope where
  event
    | .removed _ _ => False
    | _ => True
  change f := ∀ p, (f p).config = p.config

theorem engineScope_sub_sparingScope : engineScope.Sub sparingScope where
  event event hevent := by cases event <;> first | exact hevent | exact trivial
  change f hf p := by
    obtain ⟨engine, time, hengine⟩ := hf p
    rw [hengine]

theorem analysisScope_sub_sparingScope : analysisScope.Sub sparingScope where
  event event hevent := by cases event <;> first | exact hevent | exact trivial
  change f hf p := by
    obtain ⟨states, hstates⟩ := hf p
    rw [hstates]

theorem trimScope_sub_sparingScope : trimScope.Sub sparingScope where
  event event hevent := by cases event <;> first | exact hevent | exact trivial
  change f hf p := by
    obtain ⟨time, htime⟩ := hf p
    rw [htime]

theorem batchScope_sub_sparingScope : batchScope.Sub sparingScope where
  event event hevent := by cases event <;> first | exact hevent | exact trivial
  change f hf p := by
    obtain ⟨start, files, bytes, hbatch⟩ := hf p
    rw [hbatch]

theorem idleScope_sub_sparingScope : idleScope.Sub sparingScope :=
  idleScope_sub_engineScope.trans engineScope_sub_sparingScope

section Housekeeping

variable (hown : env.Housekeeps own)

include hown

theorem keeps_sparing {scope : Scope} (hsub : scope.Sub sparingScope) :
    scope.Keeps env (Sparing own may config fs) := by
  intro α x hwithin
  refine Program.Built.triple (fun _ haction w hw => ?_) hwithin
  have hcalled := hw.interfere hown
  have hconfig := congrArg Process.config (interfere_process env w)
  cases haction with
  | sense read => exact hw.still rfl rfl
  | note hevent => exact hw.still rfl rfl
  | moment => exact hw
  | report hevent => exact hw.still rfl rfl
  | getProcess => exact hw
  | setProcess hchange => exact hw.still (hsub.change _ hchange w.process) rfl
  | lstat path =>
      obtain ⟨node, w', new, hrun, hfs, hprocess, _⟩ := lstat_run env path w
      rw [hrun]
      exact hcalled.still ((congrArg Process.config hprocess).trans hconfig.symm) hfs
  | realpath path => exact hcalled.still rfl rfl
  | listDirectory path =>
      obtain ⟨entries, w', new, hrun, hfs, hprocess, _⟩ := listDirectory_run env path w
      rw [hrun]
      exact hcalled.still ((congrArg Process.config hprocess).trans hconfig.symm) hfs
  | removeEntry remove path hevent => exact (hsub.event _ (hevent [] .dir)).elim
  | enter hevent => exact hw.still rfl rfl
  | leave hevent => exact hw.still rfl rfl
  | save hevent =>
      unfold saveStateAtomic
      dsimp only
      split <;> exact hw.still rfl rfl

theorem evaluateIdleState_spares :
    Program.Triple (Sparing own may config fs) (evaluateIdleState env)
      (fun _ => Sparing own may config fs) (Sparing own may config fs) :=
  keeps_sparing hown idleScope_sub_sparingScope (evaluateIdleState_within env (Scope.Sub.refl _))

/-! ## Removals -/

theorem removeEntry_spares {remove : FileSystem → Loc → Option FileSystem}
    (hremove : ∀ fs loc fs', remove fs loc = some fs' → fs.erase loc = some fs')
    (hpath : Ceded fs env.cwd may path) :
    Program.Triple (Sparing own may config fs) (removeEntry env remove path)
      (fun _ => Sparing own may config fs) (Sparing own may config fs) := by
  intro w hw
  have hcalled := hw.interfere hown
  unfold removeEntry
  dsimp only
  split
  · exact hcalled.still rfl rfl
  next loc hloc =>
    split
    next node fs' _ hremoved =>
      split
      · exact hcalled.still rfl rfl
      · refine ⟨hcalled.config_eq, hcalled.spared.erase (fun hnot => ?_) (hremove _ _ _ hremoved)⟩
        exact hpath loc (hcalled.spared.subtree.resolve hnot hloc) loc List.prefix_rfl
    · exact hcalled.still rfl rfl

theorem lstat_spares :
    Program.Triple (Sparing own may config fs) (lstat env path)
      (fun _ => Sparing own may config fs) (Sparing own may config fs) :=
  keeps_sparing hown (Scope.Sub.refl sparingScope) (.prim (.lstat path))

theorem safeRemove_spares (hpath : Ceded fs env.cwd may path) :
    Program.Triple (Sparing own may config fs) (safeRemove env path)
      (fun _ => Sparing own may config fs) (Sparing own may config fs) := by
  unfold safeRemove
  refine .bind (lstat_spares hown) fun node => ?_
  cases node with
  | none => exact .pure fun _ hw => hw
  | some node =>
      exact .ite
        (fun _ => removeEntry_spares hown (fun _ _ _ h => (FileSystem.rmdir_eq_some h).2) hpath)
        fun _ => removeEntry_spares hown (fun _ _ _ h => (FileSystem.unlink_eq_some h).2) hpath

/-- What a listing finds stands in a directory that was there at first. -/
theorem getDirectoryChildren_spares (path : Bytes) :
    Program.Triple (Sparing own may config fs) (getDirectoryChildren env path)
      (fun children w => Sparing own may config fs w ∧ ∀ names, children = some names →
        ∃ dir, fs.resolve env.cwd false path = some dir ∧ fs.node dir = some .dir ∧
          ∀ name ∈ names, ValidName name)
      (Sparing own may config fs) := by
  intro w hw
  have hcalled := hw.interfere hown
  have hconfig := congrArg Process.config (interfere_process env w)
  obtain ⟨entries, w', new, hrun, hfs, hprocess, _, hfound⟩ := listDirectory_run env path w
  rw [getDirectoryChildren, Program.run_bind_of_some hrun]
  refine ⟨hcalled.still ((congrArg Process.config hprocess).trans hconfig.symm) hfs, ?_⟩
  intro names hnames
  rcases hfound with ⟨hlisting, _⟩ | ⟨rfl, _⟩
  · rw [hnames] at hlisting
    obtain ⟨dir, hdir, hentries⟩ := Option.bind_eq_some_iff.mp hlisting.symm
    split at hentries
    next hnode =>
      cases hentries
      have hnot := hcalled.spared.subtree.not_own hnode rfl
      exact ⟨dir, hcalled.spared.subtree.resolve hnot hdir, hcalled.spared.subtree.there hnode rfl,
        fun name => FileSystem.children_valid⟩
    next => cases hentries
  · cases hnames

section Loop

variable {recurse : Bytes → Daemon Bool}
variable (hrecurse : ∀ path, Ceded fs env.cwd may path →
  Program.Triple (Sparing own may config fs) (recurse path)
    (fun _ => Sparing own may config fs) (Sparing own may config fs))

include hrecurse

theorem removeChild_spares (hpath : Ceded fs env.cwd may path) (filesRemoved : Int)
    (bytesFreed : UInt64) :
    Program.Triple (Sparing own may config fs)
      (removeChild env recurse path filesRemoved bytesFreed)
      (fun _ => Sparing own may config fs) (Sparing own may config fs) := by
  unfold removeChild
  refine .bind (lstat_spares hown) fun node => ?_
  cases node with
  | none => exact .pure fun _ hw => hw
  | some node =>
      refine .ite (fun _ => ?_) fun _ => ?_
      · refine .bind (hrecurse path hpath) fun completed => ?_
        exact .ite (fun _ => .pure fun _ hw => hw) fun _ => .pure fun _ hw => hw
      · refine .bind (safeRemove_spares hown hpath) fun removed => ?_
        exact .ite (fun _ => .pure fun _ hw => hw) fun _ => .pure fun _ hw => hw

theorem removeChildren_spares {names : List Name}
    (hnames : ∀ name ∈ names, Ceded fs env.cwd may (child path name)) (filesRemoved : Int)
    (bytesFreed : UInt64) :
    Program.Triple (Sparing own may config fs)
      (removeChildren env recurse path names filesRemoved bytesFreed)
      (fun _ => Sparing own may config fs) (Sparing own may config fs) := by
  have hbatch : batchScope.Keeps env (Sparing own may config fs) :=
    keeps_sparing hown batchScope_sub_sparingScope
  induction names generalizing filesRemoved bytesFreed with
  | nil => exact .pure fun _ hw => hw
  | cons name rest ih =>
      have hrest := ih fun other hother => hnames other (.tail _ hother)
      unfold removeChildren
      refine .bind (evaluateIdleState_spares hown) fun idle =>
        .ite (fun _ => .pure fun _ hw => hw) fun _ => ?_
      refine .bind (removeChild_spares hown hrecurse (hnames name (.head _)) _ _) fun counts => ?_
      cases counts with
      | none => exact .pure fun _ hw => hw
      | some counts =>
          refine .bind (M := fun _ => Sparing own may config fs) (.inspect fun _ hw => hw)
            fun process => .ite (fun _ => ?_) fun _ => hrest _ _
          refine .bind (hbatch (endBatch_within env (Scope.Sub.refl _) _ _)) fun proceed =>
            .ite (fun _ => .pure fun _ hw => hw) fun _ => ?_
          exact .bind (hbatch (startBatch_within env (Scope.Sub.refl _))) fun _ => hrest 0 0

end Loop

/-- By induction on the depth: what is listed lies in the directory to which the name led. -/
theorem removeRecursiveBatched_spares (hpath : Ceded fs env.cwd may path) :
    Program.Triple (Sparing own may config fs) (removeRecursiveBatched env depth path)
      (fun _ => Sparing own may config fs) (Sparing own may config fs) := by
  have hbatch : batchScope.Keeps env (Sparing own may config fs) :=
    keeps_sparing hown batchScope_sub_sparingScope
  induction depth generalizing path with
  | zero => exact .cut fun _ hw => hw
  | succ depth ih =>
      unfold removeRecursiveBatched
      refine .bind (getDirectoryChildren_spares hown path) fun children => ?_
      cases children with
      | none => exact .pure fun _ hw => hw.1
      | some names =>
          rintro w ⟨hw, hlisted⟩
          obtain ⟨dir, hdir, hnode, hnames⟩ := hlisted names rfl
          refine Program.Triple.bind (M := fun _ => Sparing own may config fs)
            (.update fun w hw => hw.still rfl rfl) (fun _ => ?_) w hw
          refine .bind (hbatch (startBatch_within env (Scope.Sub.refl _))) fun _ => ?_
          have hloop := @removeChildren_spares env own may config fs path hown
            (removeRecursiveBatched env depth) (fun path hpath => ih hpath) names
            fun name hname => hpath.child hdir hnode (hnames name hname)
          refine .bind (hloop 0 0) fun counts => ?_
          cases counts with
          | none =>
              exact .bind (M := fun _ => Sparing own may config fs)
                (.update fun w hw => hw.still rfl rfl) fun _ => .pure fun _ hw => hw
          | some counts =>
              refine .bind (hbatch (endBatch_within env (Scope.Sub.refl _) _ _)) fun _ => ?_
              refine .bind (M := fun _ => Sparing own may config fs)
                (.update fun w hw => hw.still rfl rfl) fun _ => ?_
              exact .bind (safeRemove_spares hown hpath) fun _ => .pure fun _ hw => hw

/-! ## Sweeps -/

section Config

variable (hmay : ∀ place, MayRemove env config fs place → may place)

include hmay

theorem sweepChildren_spares (hpath : path ∈ pathsToSweep) {dir : Loc}
    (hdir : fs.resolve env.cwd false path = some dir) (hnode : fs.node dir = some .dir)
    {names : List Name} (hnames : ∀ name ∈ names, ValidName name) :
    Program.Triple (Sparing own may config fs) (sweepChildren env depth path names)
      (fun _ => Sparing own may config fs) (Sparing own may config fs) := by
  induction names with
  | nil => exact .pure fun _ hw => hw
  | cons name rest ih =>
      have hrest := ih fun other hother => hnames other (.tail _ hother)
      unfold sweepChildren
      refine .ite (fun _ => hrest) fun hlog => ?_
      refine .bind (removeRecursiveBatched_spares hown ?_) fun _ => hrest
      refine ceded_child hdir hnode (hnames name (.head _)) fun place hpart => hmay place ?_
      exact Or.inl ⟨path, hpath, dir, name, hdir, hnode, by simpa using hlog, hpart⟩

theorem sweepPaths_spares {paths : List Bytes} (hpaths : ∀ path ∈ paths, path ∈ pathsToSweep) :
    Program.Triple (Sparing own may config fs) (sweepPaths env depth paths)
      (fun _ => Sparing own may config fs) (Sparing own may config fs) := by
  induction paths with
  | nil => exact .pure fun _ hw => hw
  | cons path rest ih =>
      have hrest := ih fun other hother => hpaths other (.tail _ hother)
      unfold sweepPaths
      refine .bind (evaluateIdleState_spares hown) fun idle =>
        .ite (fun _ => .pure fun _ hw => hw) fun _ => ?_
      refine .bind (getDirectoryChildren_spares hown path) fun children => ?_
      cases children with
      | none => exact hrest.strengthen fun w hw => hw.1
      | some names =>
          rintro w ⟨hw, hlisted⟩
          obtain ⟨dir, hdir, hnode, hnames⟩ := hlisted names rfl
          refine Program.Triple.bind (M := fun _ => Sparing own may config fs)
            (.update fun w hw => hw.still rfl rfl) (fun _ => ?_) w hw
          refine .bind (sweepChildren_spares hown hmay (hpaths path (.head _)) hdir hnode hnames)
            fun _ => ?_
          exact .bind (M := fun _ => Sparing own may config fs)
            (.update fun w hw => hw.still rfl rfl) fun _ => hrest

theorem runSystemMaintenanceSweeps_spares :
    Program.Triple (Sparing own may config fs) (runSystemMaintenanceSweeps env depth)
      (fun _ => Sparing own may config fs) (Sparing own may config fs) := by
  have hkeeps : trimScope.Keeps env (Sparing own may config fs) :=
    keeps_sparing hown trimScope_sub_sparingScope
  have htrim (path : Bytes) := hkeeps (nativeFstrim_within env (Scope.Sub.refl trimScope) path)
  have hdone : Within env trimScope (note .sweepsDone) := .prim (.note trivial)
  unfold runSystemMaintenanceSweeps
  refine .bind (htrim _) fun _ => .bind (htrim _) fun _ => ?_
  exact .bind (sweepPaths_spares hown hmay fun path hpath => hpath) fun _ => hkeeps hdone

end Config

/-! ## Caches -/

/-- Wherever the name leads, it is to a cache of an installed package. -/
def LeadsToCache (env : Env) (config : Configuration) (fs : FileSystem) (path : Bytes) : Prop :=
  ∀ loc, fs.resolve env.cwd false path = some loc →
    ∃ pkg, env.Installs pkg ∧ IsCacheOf fs env.cwd config pkg loc

omit hown in
/-- The data directory of an installed package has a name. -/
theorem dataDir_ne_nil {pkg : PackageInfo} (hpkg : env.Installs pkg) : pkg.dataDir ≠ [] := by
  obtain ⟨tick, hmem⟩ := hpkg
  cases htext : env.packagesList tick with
  | none =>
      rw [htext] at hmem
      cases hmem
  | some text =>
      rw [htext, getInstalledPackages_some] at hmem
      exact ((filterMap_parsePackage_iff.mp rfl).wellFormed pkg hmem).dataDir.ne_nil

omit hown in
/-- A candidate is found through the package's directory. -/
theorem leadsToCache_of_candidate {pkg : PackageInfo} (hpkg : env.Installs pkg)
    (hincluded : isIncluded config pkg = true) {cand : Bytes}
    (hcand : cand ∈ candidates config pkg) : LeadsToCache env config fs cand := by
  have hinternal {name : Name} (hname : name = lit "cache" ∨ name = lit "code_cache") :
      LeadsToCache env config fs (child pkg.dataDir name) := by
    have hvalid : ValidName name := by rcases hname with rfl | rfl <;> decide +kernel
    intro loc hloc
    obtain ⟨home, hhome, _, rfl, _⟩ :=
      FileSystem.resolve_child_inv (dataDir_ne_nil hpkg) hvalid hloc
    exact ⟨pkg, hpkg, .internal hincluded hhome hname⟩
  rw [candidates_eq, List.mem_append, List.mem_cons, List.mem_singleton] at hcand
  rcases hcand with (rfl | rfl) | hcand
  · exact hinternal (Or.inl rfl)
  · exact hinternal (Or.inr rfl)
  · split at hcand
    next hexternal =>
      obtain rfl := List.mem_singleton.mp hcand
      have hne : externalDir pkg ≠ [] := by
        rw [externalDir]
        exact List.append_ne_nil_of_left_ne_nil (by decide +kernel) _
      intro loc hloc
      obtain ⟨home, hhome, _, rfl, _⟩ :=
        FileSystem.resolve_child_inv hne (by decide +kernel) hloc
      exact ⟨pkg, hpkg, .external hincluded hexternal hhome⟩
    next => cases hcand

theorem scanCandidates_spares (pkg : PackageInfo) (cands : List Bytes) :
    Program.Triple (Sparing own may config fs) (scanCandidates env pkg cands)
      (fun dirs w => Sparing own may config fs w ∧ ∀ dir ∈ dirs, dir.path ∈ cands)
      (Sparing own may config fs) := by
  have hkeeps : sparingScope.Keeps env (Sparing own may config fs) :=
    keeps_sparing hown (Scope.Sub.refl sparingScope)
  induction cands with
  | nil => exact .pure fun w hw => ⟨hw, by simp⟩
  | cons cand rest ih =>
      have hone : Program.Triple (Sparing own may config fs) (scanCandidate env pkg cand)
          (fun dirs w => Sparing own may config fs w ∧ ∀ dir ∈ dirs, dir.path = cand)
          (Sparing own may config fs) := by
        unfold scanCandidate
        refine .bind (hkeeps (isAcceptedPath_within env pkg.dataDir cand)) fun accepted => ?_
        refine .ite (fun _ => .pure fun w hw => ⟨hw, by simp⟩) fun _ => ?_
        refine .bind (lstat_spares hown) fun node => ?_
        exact .ite (fun _ => .pure fun w hw => ⟨hw, by simp⟩)
          fun _ => .pure fun w hw => ⟨hw, by simp⟩
      unfold scanCandidates
      refine .bind hone fun found => ?_
      rintro w ⟨hw, hfound⟩
      refine Program.Triple.bind ih (fun others => .pure ?_) w hw
      rintro w' ⟨hw', hothers⟩
      refine ⟨hw', fun dir hdir => ?_⟩
      rcases List.mem_append.mp hdir with hmem | hmem
      · rw [hfound dir hmem]
        exact .head _
      · exact .tail _ (hothers dir hmem)

theorem scanPackageCache_spares {pkg : PackageInfo} (hpkg : env.Installs pkg) :
    Program.Triple (Sparing own may config fs) (scanPackageCache env pkg)
      (fun dirs w => Sparing own may config fs w ∧
        ∀ dir ∈ dirs, LeadsToCache env config fs dir.path)
      (Sparing own may config fs) := by
  unfold scanPackageCache
  refine .bind (M := fun process w => process.config = config ∧ Sparing own may config fs w)
    (.inspect fun w hw => ⟨hw.config_eq, hw⟩) fun process => .of_and ?_
  rintro rfl
  refine .ite (fun _ => .pure fun w hw => ⟨hw, by simp⟩) fun hincluded => ?_
  refine (scanCandidates_spares hown pkg _).weaken fun dirs w hw => ⟨hw.1, fun dir hdir => ?_⟩
  exact leadsToCache_of_candidate hpkg (by simpa using hincluded) (hw.2 dir hdir)

theorem scanPackages_spares {packages : List PackageInfo}
    (hpackages : ∀ pkg ∈ packages, env.Installs pkg) :
    Program.Triple (Sparing own may config fs) (scanPackages env packages)
      (fun dirs w => Sparing own may config fs w ∧ ∀ found, dirs = some found →
        ∀ dir ∈ found, LeadsToCache env config fs dir.path)
      (Sparing own may config fs) := by
  have hkeeps : idleScope.Keeps env (Sparing own may config fs) :=
    keeps_sparing hown idleScope_sub_sparingScope
  induction packages with
  | nil =>
      refine .pure fun w hw => ⟨hw, ?_⟩
      rintro found heq dir hdir
      cases heq
      cases hdir
  | cons pkg rest ih =>
      unfold scanPackages
      refine .bind (hkeeps (isScreenOn_within env (Scope.Sub.refl _)))
        fun on => .ite (fun _ => .pure fun w hw => ⟨hw, nofun⟩) fun _ => ?_
      refine .bind (scanPackageCache_spares hown (hpackages pkg (.head _))) fun dirs => ?_
      rintro w ⟨hw, hdirs⟩
      refine Program.Triple.bind (ih fun other hother => hpackages other (.tail _ hother))
        (fun others => .pure ?_) w hw
      rintro w' ⟨hw', hothers⟩
      refine ⟨hw', fun found heq dir hdir => ?_⟩
      obtain ⟨found', hfound', rfl⟩ := Option.map_eq_some_iff.mp heq
      rcases List.mem_append.mp hdir with hmem | hmem
      · exact hdirs dir hmem
      · exact hothers found' hfound' dir hmem

theorem analyzeCaches_spares {dirs : List CacheDirInfo}
    (hdirs : ∀ dir ∈ dirs, LeadsToCache env config fs dir.path) :
    Program.Triple (Sparing own may config fs) (analyzeCaches env depth dirs)
      (fun analysis w => Sparing own may config fs w ∧
        ∀ target ∈ analysis.2, LeadsToCache env config fs target.cacheDir.path)
      (Sparing own may config fs) := by
  have hkeeps : analysisScope.Keeps env (Sparing own may config fs) :=
    keeps_sparing hown analysisScope_sub_sparingScope
  intro w hw
  have hend := hkeeps (analyzeCaches_within env depth (Scope.Sub.refl analysisScope) dirs) w hw
  rcases hrun : (analyzeCaches env depth dirs).run w with ⟨_ | ⟨measured, targets⟩, w'⟩
  · rw [hrun] at hend
    exact hend
  · rw [hrun] at hend
    refine ⟨hend, fun target htarget => ?_⟩
    obtain ⟨hscanned, hmap, _, hperm⟩ := analyzeCaches_returns hrun
    obtain ⟨turn, hturn, hresult⟩ := List.mem_filterMap.mp (hperm.mem_iff.mp htarget)
    rw [(hscanned.isDone turn hturn).target_path hresult]
    apply hdirs
    rw [← hmap]
    exact List.mem_map_of_mem hturn

theorem cleanChildren_spares {names : List Name}
    (hnames : ∀ name ∈ names, Ceded fs env.cwd may (child path name)) :
    Program.Triple (Sparing own may config fs) (cleanChildren env depth path names)
      (fun _ => Sparing own may config fs) (Sparing own may config fs) := by
  induction names with
  | nil => exact .pure fun _ hw => hw
  | cons name rest ih =>
      unfold cleanChildren
      refine .bind (removeRecursiveBatched_spares hown (hnames name (.head _))) fun completed =>
        .ite (fun _ => .pure fun _ hw => hw) fun _ => ?_
      exact ih fun other hother => hnames other (.tail _ hother)

variable (hmay : ∀ place, MayRemove env config fs place → may place)

include hmay

theorem cleanDirectorySafely_spares {targetDir : CacheDirInfo}
    (hcache : LeadsToCache env config fs targetDir.path) :
    Program.Triple (Sparing own may config fs) (cleanDirectorySafely env depth targetDir)
      (fun _ => Sparing own may config fs) (Sparing own may config fs) := by
  have hkeeps : sparingScope.Keeps env (Sparing own may config fs) :=
    keeps_sparing hown (Scope.Sub.refl sparingScope)
  unfold cleanDirectorySafely
  refine .bind (getDirectoryChildren_spares hown targetDir.path) fun children => ?_
  cases children with
  | none => exact .pure fun w hw => hw.1
  | some names =>
      rintro w ⟨hw, hlisted⟩
      obtain ⟨dir, hdir, hnode, hnames⟩ := hlisted names rfl
      obtain ⟨pkg, hpkg, hdirs⟩ := hcache dir hdir
      refine Program.Triple.bind (M := fun _ => Sparing own may config fs)
        (.update fun w hw => hw.still rfl rfl) (fun _ => ?_) w hw
      refine .bind (cleanChildren_spares hown fun name hname => ?_) fun completed => ?_
      · refine ceded_child hdir hnode (hnames name hname) fun place hpart => hmay place ?_
        exact Or.inr ⟨pkg, hpkg, dir, hdirs, (below_child dir name).trans hpart⟩
      refine .bind (M := fun _ => Sparing own may config fs)
        (.update fun w hw => hw.still rfl rfl) fun _ =>
          .ite (fun _ => .pure fun _ hw => hw) fun _ => ?_
      -- the record is made and saved, which takes nothing from the tree
      refine .bind (M := fun _ => Sparing own may config fs) (.inspect fun _ hw => hw)
        fun process => .bind (hkeeps (.prim (.sense _))) fun now => ?_
      refine .bind (hkeeps (.prim (.setProcess fun p => rfl))) fun _ => ?_
      refine .bind (hkeeps (.prim (.note trivial))) fun _ => ?_
      exact .bind (hkeeps (.prim (.save fun _ => trivial))) fun _ => .pure fun _ hw => hw

theorem cleanTargets_spares {targets : List MaintenanceTarget}
    (htargets : ∀ target ∈ targets, LeadsToCache env config fs target.cacheDir.path) :
    Program.Triple (Sparing own may config fs) (cleanTargets env depth targets)
      (fun _ => Sparing own may config fs) (Sparing own may config fs) := by
  induction targets with
  | nil => exact .pure fun _ hw => hw
  | cons target rest ih =>
      unfold cleanTargets
      refine .bind (evaluateIdleState_spares hown) fun idle =>
        .ite (fun _ => .pure fun _ hw => hw) fun _ => ?_
      refine .bind (cleanDirectorySafely_spares hown hmay (htargets target (.head _)))
        fun completed => .ite (fun _ => .pure fun _ hw => hw) fun _ => ?_
      exact ih fun other hother => htargets other (.tail _ hother)

theorem maintainCaches_spares :
    Program.Triple (Sparing own may config fs) (maintainCaches env depth)
      (fun _ => Sparing own may config fs) (Sparing own may config fs) := by
  have hkeeps : idleScope.Keeps env (Sparing own may config fs) :=
    keeps_sparing hown idleScope_sub_sparingScope
  unfold maintainCaches
  refine .bind (hkeeps (isScreenOn_within env (Scope.Sub.refl _)))
    fun on => .ite (fun _ => .pure fun _ hw => hw) fun _ => ?_
  refine .bind (M := fun packages w => Sparing own may config fs w ∧
    ∀ pkg ∈ packages, env.Installs pkg) ?_ fun packages => ?_
  · exact fun w hw => ⟨hw.still rfl rfl, fun pkg hpkg => ⟨w.tick, hpkg⟩⟩
  rintro w ⟨hw, hpackages⟩
  refine Program.Triple.bind (scanPackages_spares hown hpackages) (fun dirs => ?_) w hw
  cases dirs with
  | none => exact .pure fun w hw => hw.1
  | some dirs =>
      rintro w ⟨hw, hdirs⟩
      refine Program.Triple.bind (analyzeCaches_spares hown (hdirs dirs rfl))
        (fun analysis => ?_) w hw
      rintro w ⟨hw, htargets⟩
      exact cleanTargets_spares hown hmay htargets w hw

theorem performMaintenance_spares :
    Program.Triple (Sparing own may config fs) (performMaintenance env depth)
      (fun _ => Sparing own may config fs) (Sparing own may config fs) :=
  performMaintenance_kept (keeps_sparing hown engineScope_sub_sparingScope)
    (runSystemMaintenanceSweeps_spares hown hmay) (maintainCaches_spares hown hmay)

end Housekeeping

/-! ## Over many sessions -/

/-- The configuration a session loads. -/
def loadedConfig (env : Env) (session : Session) : Configuration :=
  (loadConfig session.1.process.config (env.configFile session.1.tick)).2

/-- A session, wherever it is cut off, takes nothing from the tree but what may be removed
under the configuration it loads, and nothing at all if that one disables it. -/
theorem main_spares (hown : env.Housekeeps own) (depth expirations : Nat) {w w' : World}
    (hspared : Spared own may fs w.fs)
    (hmay : (loadedConfig env (w, w')).enabled = true →
      ∀ place, MayRemove env (loadedConfig env (w, w')) fs place → may place) :
    Spared own may fs ((main env depth expirations).run w).2.fs := by
  let config := loadedConfig env (w, w')
  let loaded : World := { w.next with process := { w.process with config } }
  have hrun : (main env depth expirations).run w =
      (if !config.enabled then return () else runScheduler env depth expirations).run loaded := rfl
  rw [hrun]
  by_cases henabled : config.enabled = true
  · rw [if_neg (by simp [henabled])]
    have htimer : Within env engineScope (note (.timer 1)) := .prim (.note trivial)
    have hengine : engineScope.Keeps env (Sparing own may config fs) :=
      keeps_sparing hown engineScope_sub_sparingScope
    have hscheduler : Program.Triple (Sparing own may config fs)
        (runScheduler env depth expirations)
        (fun _ => Sparing own may config fs) (Sparing own may config fs) :=
      .bind (hengine htimer) fun _ =>
        eventLoop_kept hengine (performMaintenance_spares hown (hmay henabled)) expirations
    exact (hscheduler loaded ⟨rfl, hspared⟩).state.spared
  · rw [if_pos (by simpa using henabled)]
    exact hspared

theorem sessions_spare (hown : env.Housekeeps own) {start : World} {sessions : List Session}
    (hsessions : Sessions env start sessions) (hspared : Spared own may fs start.fs)
    (hmay : ∀ session ∈ sessions, (loadedConfig env session).enabled = true →
      ∀ place, MayRemove env (loadedConfig env session) fs place → may place) :
    ∀ session ∈ sessions, Spared own may fs session.2.fs := by
  induction hsessions with
  | nil => simp
  | @cons w w' depth expirations rest hrun _ ih =>
      have hend := main_spares hown depth expirations (w := w.restart) hspared
        (hmay (w.restart, w') (.head _))
      rw [hrun] at hend
      rw [List.forall_mem_cons]
      exact ⟨hend, ih hend fun session hsession => hmay session (.tail _ hsession)⟩

/-- One of the sessions may remove it, by where names lead on the tree `fs`. -/
def MayRemoveIn (env : Env) (sessions : List Session) (fs : FileSystem) (place : Loc) : Prop :=
  ∃ session ∈ sessions, (loadedConfig env session).enabled = true ∧
    MayRemove env (loadedConfig env session) fs place

/-- The state file is written anew all the time. -/
def savingDevice : Env :=
  { onePackageDevice with
    others := fun _ => [
      .create [lit "data", lit "adb", lit "freshcore"] (lit "state.tmp") 24,
      .rename [lit "data", lit "adb", lit "freshcore", lit "state.tmp"]
        [lit "data", lit "adb", lit "freshcore"] (lit "state.bin")] }

def savingWorld : World where
  fs := FsStep.applyAll onePackageWorld.fs [
    .mkdir [lit "data"] (lit "adb"),
    .mkdir [lit "data", lit "adb"] (lit "freshcore")]

/-- What a session of four evaluations leaves behind. -/
def afterSaving (w : World) : World := ((main savingDevice 2 4).run w.restart).2

theorem savingDevice_housekeeps : savingDevice.Housekeeps (IsOwnFile savingWorld.fs []) := by
  have hdir : savingWorld.fs.resolve [] true (lit "/data/adb/freshcore") =
      some [lit "data", lit "adb", lit "freshcore"] := by decide +kernel
  have htmp : IsOwnFile savingWorld.fs []
      ([lit "data", lit "adb", lit "freshcore"] ++ [lit "state.tmp"]) :=
    .listed (by decide +kernel) hdir
  have hbin : IsOwnFile savingWorld.fs []
      ([lit "data", lit "adb", lit "freshcore"] ++ [lit "state.bin"]) :=
    .listed (by decide +kernel) hdir
  intro tick step hstep
  simp only [savingDevice, List.mem_cons, List.not_mem_nil, or_false] at hstep
  rcases hstep with rfl | rfl
  · exact htmp
  · exact ⟨htmp, hbin⟩

theorem isOwnFile_savingWorld {place : Loc} (h : IsOwnFile savingWorld.fs [] place) :
    ∃ name, place = [lit "data", lit "adb", lit "freshcore"] ++ [name] := by
  have hlisted : ∀ file ∈ ownFiles, ∀ dir ∈ savingWorld.fs.resolve [] true file.1,
      dir = [lit "data", lit "adb", lit "freshcore"] := by decide +kernel
  have hblock : savingWorld.fs.resolve [] true (lit "/sys/block") = none := by decide +kernel
  cases h with
  | @listed path name dir hmem hdir => exact ⟨name, by rw [hlisted _ hmem _ hdir]⟩
  | readAhead hdir =>
      obtain ⟨dir, hdir, _⟩ := FileSystem.resolve_above (by decide +kernel) hdir
      cases hblock.symm.trans hdir

theorem savingWorld_filesAt : FilesAt (IsOwnFile savingWorld.fs []) savingWorld.fs := by
  have hempty : savingWorld.fs.children [lit "data", lit "adb", lit "freshcore"] = [] := by
    decide +kernel
  intro place node hown hnode
  obtain ⟨name, rfl⟩ := isOwnFile_savingWorld hown
  have hmem := FileSystem.mem_children.mpr (Option.isSome_of_eq_some hnode)
  rw [hempty] at hmem
  cases hmem

theorem savingWorld_spared (config : Configuration) :
    ¬ MayRemove savingDevice config savingWorld.fs [lit "data", lit "user"] := by
  have hunswept : ∀ path ∈ pathsToSweep, savingWorld.fs.resolve [] false path = none := by
    decide +kernel
  have hnames : lit "cache" ∉ [lit "data", lit "user"] ∧
      lit "code_cache" ∉ [lit "data", lit "user"] := by decide +kernel
  rintro (⟨path, hpath, dir, name, hdir, _⟩ | ⟨pkg, _, dir, hcache, hbelow⟩)
  · cases (hunswept path hpath).symm.trans hdir
  · have hmem {name : Name} (hname : name ∈ dir) : name ∈ [lit "data", lit "user"] :=
      hbelow.1.subset hname
    cases hcache with
    | internal _ _ hname =>
        rcases hname with rfl | rfl
        · exact hnames.1 (hmem (by simp))
        · exact hnames.2 (hmem (by simp))
    | external _ _ _ => exact hnames.1 (hmem (by simp))

end FreshCore
