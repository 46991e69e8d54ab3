import FreshCore.Cache.PackageScanner
import FreshCore.Daemon.Quiet

/-!
# Whose directories a scan returns

A directory inside the package's data directory is found through that directory,
so it belongs to the package even without the containment check. The external
candidate is exempt from that check, and whose directory it is depends on where the
tree takes its name.
-/

namespace FreshCore

open Posix Imperative Config Device

/-- The canonical form of the path lies below that of the package's data directory or
below the directory of its name in `/sdcard/Android/data`, and ends in a cache's name. -/
def BelongsTo (fs : FileSystem) (cwd : Loc) (pkg : PackageInfo) (path : Bytes) : Prop :=
  ∃ loc, fs.resolve cwd true path = some loc ∧
    (loc.getLast? = some (lit "cache") ∨ loc.getLast? = some (lit "code_cache")) ∧
    ((∃ root, fs.resolve cwd true pkg.dataDir = some root ∧ Below root loc) ∨
      ∃ base, fs.resolve cwd true (lit "/sdcard/Android/data") = some base ∧
        Below (base ++ [pkg.name]) loc)

/-- The package's directory in `/sdcard/Android/data`, as the scanner names it. -/
def externalDir (pkg : PackageInfo) : Bytes := externalRoot ++ pkg.name

/-- If the scan looks at the external candidate and finds a directory there, then the
canonical form of the directory it stands in is the one of the package's name, or lies
below that or at or below the data directory. -/
def ExternalIsOwn (fs : FileSystem) (cwd : Loc) (config : Configuration) (pkg : PackageInfo) :
    Prop :=
  isIncluded config pkg = true → config.includeExternalCache = true →
    fs.lstat cwd (child (externalDir pkg) (lit "cache")) = some .dir →
    ∀ dir, fs.resolve cwd true (externalDir pkg) = some dir →
      (∃ root, fs.resolve cwd true pkg.dataDir = some root ∧ root <+: dir) ∨
        ∃ base, fs.resolve cwd true (lit "/sdcard/Android/data") = some base ∧
          base ++ [pkg.name] <+: dir

/-- `IsValidCachePath` or the bare prefix, on a tree. -/
def isAccepted (fs : FileSystem) (cwd : Loc) (dataDir cand : Bytes) : Bool :=
  let canon := canonicalPath fs cwd cand
  (isCanonUnderRoot canon (canonicalPath fs cwd dataDir) && canon ≠ [] && isCacheDirName canon) ||
    externalRoot.isPrefixOf cand

section Scan

variable {env : Env}

theorem isValidCachePath_quiet (hquiet : env.Quiet) (path packageDataDir : Bytes) (w : World) :
    ∃ tick, (isValidCachePath env path packageDataDir).run w =
      (some (isCanonUnderRoot (canonicalPath w.fs env.cwd path)
          (canonicalPath w.fs env.cwd packageDataDir) &&
        canonicalPath w.fs env.cwd path ≠ [] &&
        isCacheDirName (canonicalPath w.fs env.cwd path)), { w with tick }) := by
  have hunder := isPathUnderRoot_quiet hquiet path packageDataDir w
  generalize hresult : isCanonUnderRoot (canonicalPath w.fs env.cwd path)
    (canonicalPath w.fs env.cwd packageDataDir) = under at hunder ⊢
  cases under with
  | false =>
      refine ⟨w.tick + 2, ?_⟩
      rw [isValidCachePath, Program.run_bind_of_some hunder]
      rfl
  | true =>
      refine ⟨w.tick + 3, ?_⟩
      rw [isValidCachePath, Program.run_bind_of_some hunder]
      apply (Program.run_bind_of_some (getCanonicalPath_quiet hquiet path w.next.next)).trans
      have hfs : w.next.next.fs = w.fs := rfl
      rw [hfs]
      by_cases hcanon : canonicalPath w.fs env.cwd path = []
      · rw [if_pos hcanon]
        simp [hcanon, World.next]
      · rw [if_neg hcanon]
        simp [hcanon, World.next]

/-- What a scan of these candidates returns: each that is accepted and a directory, but for those
that could not be looked at. -/
structure ScanReturns (env : Env) (fs : FileSystem) (pkg : PackageInfo) (cands : List Bytes)
    (dirs : List CacheDirInfo) (events : List Event) : Prop where
  returned : ∀ info ∈ dirs, ∃ front cand back, cands = front ++ cand :: back ∧
    info = { path := cand, pkgName := pkg.name } ∧
    isAccepted fs env.cwd pkg.dataDir cand = true ∧ fs.lstat env.cwd cand = some .dir ∧
    (.lstatFailed cand ∈ events → cand ∈ front ++ back)
  found : ∀ cand ∈ cands, isAccepted fs env.cwd pkg.dataDir cand = true →
    fs.lstat env.cwd cand = some .dir →
    { path := cand, pkgName := pkg.name } ∈ dirs ∨ .lstatFailed cand ∈ events
  failed : ∀ cand, .lstatFailed cand ∈ events → cand ∈ cands

theorem ScanReturns.append {fs : FileSystem} {pkg : PackageInfo} {cands cands' : List Bytes}
    {dirs dirs' : List CacheDirInfo} {events new : List Event}
    (h : ScanReturns env fs pkg cands dirs events)
    (h' : ScanReturns env fs pkg cands' dirs' new) :
    ScanReturns env fs pkg (cands ++ cands') (dirs ++ dirs') (events ++ new) := by
  constructor
  · intro info hinfo
    rcases List.mem_append.mp hinfo with hinfo | hinfo
    · obtain ⟨front, cand, back, rfl, hcand, haccepted, hdir, hseen⟩ := h.returned info hinfo
      refine ⟨front, cand, back ++ cands', by simp, hcand, haccepted, hdir, fun hfailed => ?_⟩
      rw [← List.append_assoc]
      exact List.mem_append.mpr ((List.mem_append.mp hfailed).imp hseen (h'.failed cand))
    · obtain ⟨front, cand, back, rfl, hcand, haccepted, hdir, hseen⟩ := h'.returned info hinfo
      refine ⟨cands ++ front, cand, back, by simp, hcand, haccepted, hdir, fun hfailed => ?_⟩
      rw [List.append_assoc]
      exact List.mem_append.mpr ((List.mem_append.mp hfailed).imp (h.failed cand) hseen)
  · intro cand hcand haccepted hdir
    rw [List.mem_append, List.mem_append]
    rcases List.mem_append.mp hcand with hcand | hcand
    · exact (h.found cand hcand haccepted hdir).imp Or.inl Or.inl
    · exact (h'.found cand hcand haccepted hdir).imp Or.inr Or.inr
  · intro cand hfailed
    exact List.mem_append.mpr ((List.mem_append.mp hfailed).imp (h.failed cand) (h'.failed cand))

theorem scanCandidate_quiet (hquiet : env.Quiet) (pkg : PackageInfo) (cand : Bytes)
    (w : World) :
    ∃ found w' new, (scanCandidate env pkg cand).run w = (some found, w') ∧ w'.fs = w.fs ∧
      w'.log = w.log ++ new ∧ ScanReturns env w.fs pkg [cand] found new := by
  obtain ⟨tick, hvalid⟩ := isValidCachePath_quiet hquiet cand pkg.dataDir w
  have hrun : (isAcceptedPath env pkg.dataDir cand).run w =
      (some (isAccepted w.fs env.cwd pkg.dataDir cand), { w with tick }) := by
    rw [isAcceptedPath, Program.run_bind_of_some hvalid]
    rfl
  rw [scanCandidate, Program.run_bind_of_some hrun]
  by_cases haccepted : isAccepted w.fs env.cwd pkg.dataDir cand = true
  swap
  · refine ⟨[], { w with tick }, [], ?_, rfl, (List.append_nil _).symm, by simp, ?_, by simp⟩
    · rw [if_pos (by simpa using haccepted)]
      rfl
    · simp [haccepted]
  obtain ⟨node, w', new, hlstat, hfs, _, hlog, hfound⟩ := lstat_quiet hquiet cand { w with tick }
  rw [if_neg (by simp [haccepted]), Program.run_bind_of_some hlstat]
  obtain ⟨hnode, rfl⟩ | ⟨rfl, _, rfl⟩ := hfound
  swap
  · exact ⟨[], w', _, rfl, hfs, hlog, by simp, by simp, by simp⟩
  split
  next hdir =>
    refine ⟨_, w', [], rfl, hfs, hlog, ?_, by simp, by simp⟩
    intro info hinfo
    have hthere := hnode.symm.trans hdir
    exact ⟨[], cand, [], rfl, List.mem_singleton.mp hinfo, haccepted, hthere, by simp⟩
  next hdir =>
    refine ⟨[], w', [], rfl, hfs, hlog, by simp, ?_, by simp⟩
    intro other hother _ hthere
    rw [List.mem_singleton.mp hother] at hthere
    exact absurd (hnode.trans hthere) hdir

theorem scanCandidates_quiet (hquiet : env.Quiet) (pkg : PackageInfo) (cands : List Bytes)
    (w : World) :
    ∃ dirs w' new, (scanCandidates env pkg cands).run w = (some dirs, w') ∧
      w'.log = w.log ++ new ∧ ScanReturns env w.fs pkg cands dirs new := by
  induction cands generalizing w with
  | nil => exact ⟨[], w, [], rfl, (List.append_nil _).symm, by simp, by simp, by simp⟩
  | cons cand rest ih =>
      obtain ⟨found, w₁, looks, hscan, hfs, hlog, hfirst⟩ := scanCandidate_quiet hquiet pkg cand w
      obtain ⟨others, w', new, hothers, hlog', hrest⟩ := ih w₁
      rw [hfs] at hrest
      refine ⟨found ++ others, w', looks ++ new, ?_, ?_, hfirst.append hrest⟩
      · rw [scanCandidates, Program.run_bind_of_some hscan, Program.run_bind_of_some hothers]
        rfl
      · rw [hlog', hlog, List.append_assoc]

/-- Which directories a scan returns: the candidates that are accepted and are directories, but
for those whose look failed. -/
theorem scanPackageCache_quiet (hquiet : env.Quiet) (pkg : PackageInfo) (w : World) :
    ∃ dirs, ((scanPackageCache env pkg).run w).1 = some dirs ∧
      (isIncluded w.process.config pkg = false → dirs = []) ∧
      (isIncluded w.process.config pkg = true → ScanReturns env w.fs pkg
        (candidates w.process.config pkg) dirs (eventsOf (scanPackageCache env pkg) w)) := by
  have hprocess : getProcess.run w = (some w.process, w) := rfl
  rw [eventsOf, scanPackageCache, Program.run_bind_of_some hprocess]
  cases hincluded : isIncluded w.process.config pkg with
  | true =>
      obtain ⟨dirs, w', new, hscan, hlog, hreturns⟩ :=
        scanCandidates_quiet hquiet pkg (candidates w.process.config pkg) w
      simp only [Bool.not_true, Bool.false_eq_true, if_false]
      rw [hscan, hlog, List.drop_left]
      exact ⟨dirs, rfl, by simp, fun _ => hreturns⟩
  | false => exact ⟨[], rfl, fun _ => rfl, by simp⟩

end Scan

/-! ## Where the candidates lead -/

section Candidates

variable {fs : FileSystem} {cwd : Loc}

/-- A directory that is found as an entry stands in the directory its name goes through. -/
theorem resolve_of_lstat_dir {path : Bytes} {name : Name} (hpath : path ≠ [])
    (hname : ValidName name) (hdir : fs.lstat cwd (child path name) = some .dir) :
    ∃ dir, fs.resolve cwd true path = some dir ∧
      fs.resolve cwd true (child path name) = some (dir ++ [name]) := by
  obtain ⟨loc, hloc, hnode⟩ := Option.bind_eq_some_iff.mp hdir
  obtain ⟨dir, hpathDir, _, rfl, _⟩ := FileSystem.resolve_child_inv hpath hname hloc
  exact ⟨dir, hpathDir, FileSystem.resolve_follow hloc hnode⟩

theorem isAccepted_of_dataDir_nil {pkg : PackageInfo} (hnil : pkg.dataDir = []) {name : Name}
    (hname : name = lit "cache" ∨ name = lit "code_cache") :
    isAccepted fs cwd pkg.dataDir (child pkg.dataDir name) = false := by
  have hroot : canonicalPath fs cwd [] = [] := rfl
  have hpre : externalRoot.isPrefixOf (child [] name) = false := by
    rcases hname with rfl | rfl <;> decide +kernel
  rw [hnil, isAccepted, hroot, hpre]
  simp [isCanonUnderRoot]

/-- What is found inside the data directory belongs to the package. -/
theorem belongsTo_internal {pkg : PackageInfo} {name : Name}
    (hname : name = lit "cache" ∨ name = lit "code_cache")
    (haccepted : isAccepted fs cwd pkg.dataDir (child pkg.dataDir name) = true)
    (hdir : fs.lstat cwd (child pkg.dataDir name) = some .dir) :
    BelongsTo fs cwd pkg (child pkg.dataDir name) := by
  have hvalid : ValidName name := by rcases hname with rfl | rfl <;> decide +kernel
  have hpath : pkg.dataDir ≠ [] := by
    intro hnil
    rw [isAccepted_of_dataDir_nil hnil hname] at haccepted
    cases haccepted
  obtain ⟨root, hroot, hloc⟩ := resolve_of_lstat_dir hpath hvalid hdir
  refine ⟨_, hloc, ?_, Or.inl ⟨root, hroot, below_child root name⟩⟩
  rw [List.getLast?_concat]
  exact hname.imp (congrArg some) (congrArg some)

theorem belongsTo_external {pkg : PackageInfo} {dir : Loc}
    (hdir : fs.resolve cwd true (child (externalDir pkg) (lit "cache")) =
      some (dir ++ [lit "cache"])) :
    BelongsTo fs cwd pkg (child (externalDir pkg) (lit "cache")) ↔
      (∃ root, fs.resolve cwd true pkg.dataDir = some root ∧ root <+: dir) ∨
        ∃ base, fs.resolve cwd true (lit "/sdcard/Android/data") = some base ∧
          base ++ [pkg.name] <+: dir := by
  have hlast : (dir ++ [lit "cache"]).getLast? = some (lit "cache") := List.getLast?_concat
  constructor
  · rintro ⟨loc, hloc, _, hown⟩
    obtain rfl := Option.some.inj (hdir.symm.trans hloc)
    simpa only [below_snoc] using hown
  · intro hown
    exact ⟨_, hdir, Or.inl hlast, by simpa only [below_snoc] using hown⟩

theorem candidates_eq (config : Configuration) (pkg : PackageInfo) :
    candidates config pkg =
      [child pkg.dataDir (lit "cache"), child pkg.dataDir (lit "code_cache")] ++
        if config.includeExternalCache then [child (externalDir pkg) (lit "cache")] else [] :=
  rfl

theorem isAccepted_external (pkg : PackageInfo) :
    isAccepted fs cwd pkg.dataDir (child (externalDir pkg) (lit "cache")) = true := by
  have hpre : externalRoot.isPrefixOf (child (externalDir pkg) (lit "cache")) = true := by
    rw [child, externalDir, List.append_assoc]
    simp
  rw [isAccepted, hpre, Bool.or_true]

end Candidates

/-- All directories a scan returns belong to the package exactly when the external one does, if
there is one, or it could not be looked at. -/
theorem scanPackageCache_belongsTo_iff {env : Env} (hquiet : env.Quiet) (pkg : PackageInfo)
    (w : World) :
    (∀ dirs, ((scanPackageCache env pkg).run w).1 = some dirs →
      ∀ info ∈ dirs, BelongsTo w.fs env.cwd pkg info.path) ↔
    ExternalIsOwn w.fs env.cwd w.process.config pkg ∨
      .lstatFailed (child (externalDir pkg) (lit "cache")) ∈
        eventsOf (scanPackageCache env pkg) w := by
  obtain ⟨dirs, hrun, hnone, hreturns⟩ := scanPackageCache_quiet hquiet pkg w
  have hvalid : ValidName (lit "cache") := by decide +kernel
  have hne : externalDir pkg ≠ [] := by
    rw [externalDir]
    exact List.append_ne_nil_of_left_ne_nil (by decide +kernel) _
  rw [hrun]
  constructor
  · intro hall
    by_contra hneither
    rw [not_or] at hneither
    refine hneither.1 fun hincluded hexternal hdir dir hresolve => ?_
    obtain ⟨dir', hresolve', hloc⟩ := resolve_of_lstat_dir hne hvalid hdir
    obtain rfl := Option.some.inj (hresolve'.symm.trans hresolve)
    have hfound := (hreturns hincluded).found (child (externalDir pkg) (lit "cache"))
      (by rw [candidates_eq, if_pos hexternal]; simp) (isAccepted_external pkg) hdir
    exact (belongsTo_external hloc).mp (hall dirs rfl _ (hfound.resolve_right hneither.2))
  · intro hown dirs' heq info hinfo
    obtain rfl := Option.some.inj heq
    cases hincluded : isIncluded w.process.config pkg with
    | false =>
        rw [hnone hincluded] at hinfo
        cases hinfo
    | true =>
        obtain ⟨front, cand, back, hsplit, rfl, haccepted, hdir, hseen⟩ :=
          (hreturns hincluded).returned info hinfo
        rw [candidates_eq] at hsplit
        by_cases hinternal : cand = child pkg.dataDir (lit "cache") ∨
            cand = child pkg.dataDir (lit "code_cache")
        · rcases hinternal with rfl | rfl
          · exact belongsTo_internal (Or.inl rfl) haccepted hdir
          · exact belongsTo_internal (Or.inr rfl) haccepted hdir
        rw [not_or] at hinternal
        have hcand : cand ∈ front ++ cand :: back := by simp
        rw [← hsplit, List.mem_append] at hcand
        have hexternal := hcand.resolve_left (by simpa using hinternal)
        split at hexternal
        next hinclude =>
          obtain rfl := List.mem_singleton.mp hexternal
          obtain ⟨dir, hresolve, hloc⟩ := resolve_of_lstat_dir hne hvalid hdir
          refine (belongsTo_external hloc).mpr ?_
          refine (hown.resolve_right fun hfailed => ?_) hincluded hinclude hdir dir hresolve
          -- it is looked at once, so that look did not fail
          have hcount := congrArg (List.count (child (externalDir pkg) (lit "cache"))) hsplit
          have hagain := List.count_pos_iff.mpr (hseen hfailed)
          rw [if_pos hinclude] at hcount
          simp only [List.count_append, List.count_cons, List.count_nil, beq_iff_eq,
            Ne.symm hinternal.1, Ne.symm hinternal.2, if_false, if_true] at hcount hagain
          omega
        next => cases hexternal

/-- Two apps, the first of which has made its external directory a link to the data
directory of the second. -/
def linkedWorld : World where
  fs := FsStep.applyAll .bare [
    .mkdir [] (lit "data"),
    .mkdir [lit "data"] (lit "com.a"),
    .mkdir [lit "data"] (lit "com.b"),
    .mkdir [lit "data", lit "com.a"] (lit "cache"),
    .mkdir [lit "data", lit "com.b"] (lit "cache"),
    .mkdir [] (lit "sdcard"),
    .mkdir [lit "sdcard"] (lit "Android"),
    .mkdir [lit "sdcard", lit "Android"] (lit "data"),
    .symlink [lit "sdcard", lit "Android", lit "data"] (lit "com.a") (lit "/data/com.b")]

def appA : PackageInfo where
  name := lit "com.a"
  dataDir := lit "/data/com.a"
  uid := 10001
  isSystem := false

def appB : PackageInfo where
  name := lit "com.b"
  dataDir := lit "/data/com.b"
  uid := 10002
  isSystem := false

/-- The scan for the second app, which has no external directory, returns its own cache. -/
theorem scanPackageCache_belongsTo_appB :
    ∃ dirs, ((scanPackageCache restingDevice appB).run linkedWorld).1 = some dirs ∧
      dirs ≠ [] ∧
      ∀ info ∈ dirs, BelongsTo linkedWorld.fs restingDevice.cwd appB info.path := by
  have hscan : ((scanPackageCache restingDevice appB).run linkedWorld).1 =
      some [{ path := lit "/data/com.b/cache", pkgName := lit "com.b" }] := by
    decide +kernel
  have hnone : linkedWorld.fs.lstat restingDevice.cwd (child (externalDir appB) (lit "cache")) =
      none := by decide +kernel
  have hown : ExternalIsOwn linkedWorld.fs restingDevice.cwd linkedWorld.process.config appB := by
    intro _ _ hdir
    rw [hnone] at hdir
    cases hdir
  have hall := (scanPackageCache_belongsTo_iff restingDevice_quiet appB linkedWorld).mpr
    (Or.inl hown)
  exact ⟨_, hscan, List.cons_ne_nil _ _, hall _ hscan⟩

/-- The scan for the first app returns the cache of the second one. -/
theorem scanPackageCache_foreign :
    ¬ ∀ dirs, ((scanPackageCache restingDevice appA).run linkedWorld).1 = some dirs →
      ∀ info ∈ dirs, BelongsTo linkedWorld.fs restingDevice.cwd appA info.path := by
  intro hall
  have hscan : ((scanPackageCache restingDevice appA).run linkedWorld).1 =
      some [{ path := lit "/data/com.a/cache", pkgName := lit "com.a" },
        { path := lit "/sdcard/Android/data/com.a/cache", pkgName := lit "com.a" }] := by
    decide +kernel
  obtain ⟨loc, hloc, _, hown⟩ := hall _ hscan _ (.tail _ (.head _))
  have hforeign : linkedWorld.fs.resolve [] true (lit "/sdcard/Android/data/com.a/cache") =
      some [lit "data", lit "com.b", lit "cache"] := by decide +kernel
  have hdata : linkedWorld.fs.resolve [] true (lit "/data/com.a") =
      some [lit "data", lit "com.a"] := by decide +kernel
  have hbase : linkedWorld.fs.resolve [] true (lit "/sdcard/Android/data") =
      some [lit "sdcard", lit "Android", lit "data"] := by decide +kernel
  obtain rfl := Option.some.inj (hforeign.symm.trans hloc)
  rcases hown with ⟨root, hroot, hbelow⟩ | ⟨base, hbase', hbelow⟩
  · obtain rfl := Option.some.inj (hdata.symm.trans hroot)
    revert hbelow
    decide +kernel
  · obtain rfl := Option.some.inj (hbase.symm.trans hbase')
    revert hbelow
    decide +kernel

end FreshCore
