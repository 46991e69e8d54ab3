import FreshCore.Storage.Filesystem

/-! # Scanning packages for cache directories -/

namespace FreshCore

open Posix Imperative Config Device

variable (env : Env)

/-! ## Policy -/

/-- The last component test of `IsValidCachePath`. -/
def isCacheDirName (canon : Bytes) : Bool :=
  if slash ∉ canon then false
  else
    let dirName := (canon.reverse.takeWhile (· ≠ slash)).reverse
    dirName = lit "cache" || dirName = lit "code_cache"

def isValidCachePath (path packageDataDir : Bytes) : Daemon Bool := do
  let under ← isPathUnderRoot env path packageDataDir
  if !under then return false
  else do
    let canon ← getCanonicalPath env path
    if canon = [] then return false else return isCacheDirName canon

/-- `(unsigned long long)cache_threshold_mb * 1024 * 1024` -/
def cacheThresholdBytes (config : Configuration) : UInt64 :=
  .ofInt config.cacheThresholdMb.toInt * 1024 * 1024

def shouldCleanCache (config : Configuration) (cacheSizeBytes : UInt64) : Bool :=
  cacheThresholdBytes config ≤ cacheSizeBytes

/-! ## Scanning -/

def externalRoot : Bytes := lit "/sdcard/Android/data/"

/-- Whether the configuration has the package scanned at all. -/
def isIncluded (config : Configuration) (pkg : PackageInfo) : Bool :=
  if pkg.isSystem then config.includeSystemApps else config.includeUserApps

def candidates (config : Configuration) (pkg : PackageInfo) : List Bytes :=
  [pkg.dataDir ++ lit "/cache", pkg.dataDir ++ lit "/code_cache"] ++
    if config.includeExternalCache then [externalRoot ++ pkg.name ++ lit "/cache"] else []

/-- The test of one candidate; the second one is made only if the first fails. -/
def isAcceptedPath (dataDir cand : Bytes) : Daemon Bool := do
  let valid ← isValidCachePath env cand dataDir
  return valid || externalRoot.isPrefixOf cand

/-- One turn of the loop over the candidates. -/
def scanCandidate (pkg : PackageInfo) (cand : Bytes) : Daemon (List CacheDirInfo) := do
  let accepted ← isAcceptedPath env pkg.dataDir cand
  if !accepted then return []
  else do
    let node ← lstat env cand
    if node = some .dir then return [{ path := cand, pkgName := pkg.name }] else return []

def scanCandidates (pkg : PackageInfo) : List Bytes → Daemon (List CacheDirInfo)
  | [] => return []
  | cand :: rest => do
      let found ← scanCandidate env pkg cand
      let others ← scanCandidates pkg rest
      return found ++ others

def scanPackageCache (pkg : PackageInfo) : Daemon (List CacheDirInfo) := do
  let process ← getProcess
  if !isIncluded process.config pkg then return []
  else scanCandidates env pkg (candidates process.config pkg)

/-! ## Measuring -/

/-- The loop of `GetDirectorySize` over the children. -/
def sumSizes (recurse : Bytes → Daemon UInt64) (dirPath : Bytes) :
    List Name → UInt64 → Daemon UInt64
  | [], size => return size
  | name :: rest, size => do
      let node ← lstat env (child dirPath name)
      match node with
      | none => sumSizes recurse dirPath rest size
      | some node =>
          if node.isDir then do
            let inner ← recurse (child dirPath name)
            sumSizes recurse dirPath rest (size + inner)
          else sumSizes recurse dirPath rest (size + node.size)

/-- `GetDirectorySize`, followed down to the given depth. -/
def getDirectorySize : Nat → Bytes → Daemon UInt64
  | 0, _ => .cut
  | depth + 1, dirPath => do
      let children ← getDirectoryChildren env dirPath
      match children with
      | none => return 0
      | some children => sumSizes env (getDirectorySize depth) dirPath children 0

def calculateCacheSize (depth : Nat) (info : CacheDirInfo) : Daemon CacheDirInfo :=
  if info.sizeCalculated then return info
  else do
    let size ← getDirectorySize env depth info.path
    return { info with sizeBytes := size, sizeCalculated := true }

/-! ## What scanning and measuring leave behind -/

variable {scope : Scope}

theorem isAcceptedPath_within (dataDir cand : Bytes) :
    Within env scope (isAcceptedPath env dataDir cand) := by
  refine .bind ?_ fun valid => .pure _
  refine .bind (isPathUnderRoot_within env cand dataDir) fun under => ?_
  split
  · exact .pure _
  · refine .bind (getCanonicalPath_within env cand) fun canon => ?_
    split <;> exact .pure _

theorem scanCandidate_within (pkg : PackageInfo) (cand : Bytes) :
    Within env scope (scanCandidate env pkg cand) := by
  refine .bind (isAcceptedPath_within env pkg.dataDir cand) fun accepted => ?_
  split
  · exact .pure _
  · refine .bind (.prim (.lstat cand)) fun node => ?_
    split <;> exact .pure _

theorem scanCandidates_within (pkg : PackageInfo) (cands : List Bytes) :
    Within env scope (scanCandidates env pkg cands) := by
  induction cands with
  | nil => exact .pure _
  | cons cand rest ih =>
      exact .bind (scanCandidate_within env pkg cand) fun _ => .bind ih fun _ => .pure _

theorem scanPackageCache_within (pkg : PackageInfo) :
    Within env scope (scanPackageCache env pkg) := by
  refine .bind (.prim .getProcess) fun process => ?_
  split
  · exact .pure _
  · exact scanCandidates_within env pkg _

theorem sumSizes_within {recurse : Bytes → Daemon UInt64} (dirPath : Bytes)
    (hrecurse : ∀ path, Within env scope (recurse path)) (names : List Name) (size : UInt64) :
    Within env scope (sumSizes env recurse dirPath names size) := by
  induction names generalizing size with
  | nil => exact .pure _
  | cons name rest ih =>
      refine .bind (.prim (.lstat _)) fun node => ?_
      split
      · exact ih size
      · split
        · exact .bind (hrecurse _) fun inner => ih _
        · exact ih _

theorem getDirectorySize_within (hsub : listScope.Sub scope) (depth : Nat) (dirPath : Bytes) :
    Within env scope (getDirectorySize env depth dirPath) := by
  induction depth generalizing dirPath with
  | zero => exact .cut
  | succ depth ih =>
      refine .bind (getDirectoryChildren_within env hsub dirPath) fun children => ?_
      split
      · exact .pure _
      · exact sumSizes_within env dirPath ih _ 0

theorem calculateCacheSize_within (hsub : listScope.Sub scope) (depth : Nat)
    (info : CacheDirInfo) : Within env scope (calculateCacheSize env depth info) := by
  unfold calculateCacheSize
  split
  · exact .pure _
  · exact .bind (getDirectorySize_within env hsub depth info.path) fun _ => .pure _

end FreshCore
