import FreshCore.Posix.Canonical
import FreshCore.Cache.PackageScanner

/-!
# What path validation accepts

The texts of canonical names are compared, and what is meant is that one place lies below
another. The two differ at the root directory, the only place whose name ends in a slash:
nothing is found to be below it.
-/

namespace FreshCore

open Posix Imperative

/-- Both names resolve, and the components of the root are a proper prefix of those of the
path. -/
def UnderRoot (canonPath canonRoot : Option Bytes) : Prop :=
  ∃ path root, canonPath = some path ∧ canonRoot = some root ∧ Below (namesOf root) (namesOf path)

/-- The last component is the name of a cache. -/
def EndsInCache (canonPath : Option Bytes) : Prop :=
  ∃ path, canonPath = some path ∧ ((namesOf path).getLast? = some (lit "cache") ∨
    (namesOf path).getLast? = some (lit "code_cache"))

theorem endsInCache_some {path : Bytes} : EndsInCache (some path) ↔
    (namesOf path).getLast? = some (lit "cache") ∨
      (namesOf path).getLast? = some (lit "code_cache") := by
  simp [EndsInCache]

/-! ## Comparing canonical names -/

section Text

theorem isCanonUnderRoot_iff_append {canonPath canonRoot : Bytes} :
    isCanonUnderRoot canonPath canonRoot = true ↔
      canonRoot ≠ [] ∧ ∃ rest, canonPath = canonRoot ++ slash :: rest := by
  unfold isCanonUnderRoot
  constructor
  · intro h
    split at h
    · cases h
    next hne =>
      simp only [Bool.and_eq_true, decide_eq_true_eq] at h
      obtain ⟨⟨_, htake⟩, hslash⟩ := h
      obtain ⟨hlt, hget⟩ := List.getElem?_eq_some_iff.mp hslash
      refine ⟨fun hnil => hne (Or.inr hnil), canonPath.drop (canonRoot.length + 1), ?_⟩
      calc canonPath = canonPath.take canonRoot.length ++ canonPath.drop canonRoot.length :=
            (List.take_append_drop _ _).symm
        _ = canonRoot ++ slash :: canonPath.drop (canonRoot.length + 1) := by
            rw [htake, List.drop_eq_getElem_cons hlt, hget]
  · rintro ⟨hroot, rest, rfl⟩
    simp [hroot]

variable {canonPath canonRoot : Bytes}

theorem isCanonUnderRoot_iff (hpath : Canonical canonPath) (hroot : Canonical canonRoot) :
    isCanonUnderRoot canonPath canonRoot = true ↔
      canonRoot ≠ [slash] ∧ Below (namesOf canonRoot) (namesOf canonPath) := by
  have hnames : canonRoot ≠ [slash] ↔ namesOf canonRoot ≠ [] := by
    apply not_congr
    constructor
    · rintro rfl
      exact namesOf_slash
    · intro hnil
      rw [← hroot.2, hnil]
      rfl
  rw [isCanonUnderRoot_iff_append, hnames, ← render_eq_append_slash_iff hpath.1 hroot.1, hpath.2,
    hroot.2]
  apply and_iff_right
  rw [← hroot.2]
  exact render_ne_nil _

theorem isCacheDirName_iff (hpath : Canonical canonPath) :
    isCacheDirName canonPath = true ↔ EndsInCache (some canonPath) := by
  have hslash : slash ∈ canonPath := by
    rw [← hpath.2]
    exact List.mem_of_mem_head? (head?_render _)
  have hlast := afterLastSlash_render hpath.1
  rw [hpath.2] at hlast
  have hcache : lit "cache" ≠ [] := by decide +kernel
  have hcodeCache : lit "code_cache" ≠ [] := by decide +kernel
  rw [endsInCache_some, isCacheDirName, if_neg (not_not.mpr hslash)]
  dsimp only
  rw [hlast]
  cases (namesOf canonPath).getLast? with
  | none => simp [hcache.symm, hcodeCache.symm]
  | some last => simp

end Text

/-! ## The calls in sequence -/

section Calls

variable (env : Env)

/-- What `realpath` returns if it is the next call. -/
def nextRealpath (w : World) (path : Bytes) : Option Bytes :=
  (w.interfere env).fs.realpath env.cwd path

/-- The state that a call of `realpath` leaves. -/
def afterRealpath (w : World) : World := (w.interfere env).next

variable {env}

theorem nextRealpath_canonical {w : World} {path canon : Bytes}
    (h : nextRealpath env w path = some canon) : Canonical canon :=
  FileSystem.realpath_canonical h

theorem getCanonicalPath_run (path : Bytes) (w : World) :
    (getCanonicalPath env path).run w =
      (some ((nextRealpath env w path).getD []), afterRealpath env w) :=
  rfl

theorem isPathUnderRoot_run (path root : Bytes) (w : World) :
    (isPathUnderRoot env path root).run w =
      (some (isCanonUnderRoot ((nextRealpath env w path).getD [])
          ((nextRealpath env (afterRealpath env w) root).getD [])),
        afterRealpath env (afterRealpath env w)) :=
  rfl

/-- A name that does not resolve is not found to be under a root, nor a root. -/
theorem isCanonUnderRoot_getD_iff {canonPath canonRoot : Option Bytes}
    (hpath : ∀ canon, canonPath = some canon → Canonical canon)
    (hroot : ∀ canon, canonRoot = some canon → Canonical canon) :
    isCanonUnderRoot (canonPath.getD []) (canonRoot.getD []) = true ↔
      canonRoot ≠ some [slash] ∧ UnderRoot canonPath canonRoot := by
  cases canonPath with
  | none => simp [isCanonUnderRoot, UnderRoot]
  | some path =>
      cases canonRoot with
      | none => simp [isCanonUnderRoot, UnderRoot]
      | some root =>
          rw [Option.getD_some, Option.getD_some,
            isCanonUnderRoot_iff (hpath path rfl) (hroot root rfl)]
          simp [UnderRoot]

theorem isPathUnderRoot_iff (env : Env) (path root : Bytes) (w : World) :
    isCanonUnderRoot ((nextRealpath env w path).getD [])
        ((nextRealpath env (afterRealpath env w) root).getD []) = true ↔
      nextRealpath env (afterRealpath env w) root ≠ some [slash] ∧
        UnderRoot (nextRealpath env w path) (nextRealpath env (afterRealpath env w) root) :=
  isCanonUnderRoot_getD_iff (fun _ => nextRealpath_canonical) fun _ => nextRealpath_canonical

/-- A cache is under the root, and the name it resolves to the second time ends as it should. -/
theorem isValidCachePath_run (env : Env) (path packageDataDir : Bytes) (w : World) :
    ∃ valid w', (isValidCachePath env path packageDataDir).run w = (some valid, w') ∧
      (valid = true ↔
        nextRealpath env (afterRealpath env w) packageDataDir ≠ some [slash] ∧
          UnderRoot (nextRealpath env w path)
            (nextRealpath env (afterRealpath env w) packageDataDir) ∧
          EndsInCache (nextRealpath env (afterRealpath env (afterRealpath env w)) path)) := by
  have hunder := isPathUnderRoot_iff env path packageDataDir w
  rw [isValidCachePath, Program.run_bind_of_some (isPathUnderRoot_run path packageDataDir w)]
  rw [← and_assoc, ← hunder]
  cases isCanonUnderRoot ((nextRealpath env w path).getD [])
      ((nextRealpath env (afterRealpath env w) packageDataDir).getD []) with
  | false => exact ⟨false, _, rfl, by simp⟩
  | true =>
      rw [if_neg (by simp), Program.run_bind_of_some (getCanonicalPath_run path _)]
      cases hcanon : nextRealpath env (afterRealpath env (afterRealpath env w)) path with
      | none => exact ⟨false, _, rfl, by simp [EndsInCache]⟩
      | some canon =>
          have hcanonical := nextRealpath_canonical hcanon
          have hne : canon ≠ [] := by
            rw [← hcanonical.2]
            exact render_ne_nil _
          rw [Option.getD_some, if_neg hne]
          exact ⟨_, _, rfl, by simp [isCacheDirName_iff hcanonical]⟩

variable (env)

/-- Both functions answer what they are for. Each call of `realpath` counts with the name it
returns, whatever others do in between. -/
structure ValidatesExactly (path root : Bytes) (w : World) : Prop where
  underRoot : ∃ under w', (isPathUnderRoot env path root).run w = (some under, w') ∧
    (under = true ↔
      UnderRoot (nextRealpath env w path) (nextRealpath env (afterRealpath env w) root))
  validCachePath : ∃ valid w', (isValidCachePath env path root).run w = (some valid, w') ∧
    (valid = true ↔
      UnderRoot (nextRealpath env w path) (nextRealpath env (afterRealpath env w) root) ∧
        EndsInCache (nextRealpath env (afterRealpath env (afterRealpath env w)) path))

variable {env}

/-- Everything but the root directory itself is under it. -/
theorem underRoot_slash_iff {w : World} {path : Bytes} :
    UnderRoot (nextRealpath env w path) (some [slash]) ↔
      ∃ canon, nextRealpath env w path = some canon ∧ canon ≠ [slash] := by
  constructor
  · rintro ⟨canon, root, hcanon, hroot, hbelow⟩
    refine ⟨canon, hcanon, ?_⟩
    rintro rfl
    cases hroot
    exact hbelow.2 rfl
  · rintro ⟨canon, hcanon, hne⟩
    refine ⟨canon, [slash], hcanon, rfl, ?_, ?_⟩
    · rw [namesOf_slash]
      exact List.nil_prefix
    · intro hnil
      apply hne
      rw [← (nextRealpath_canonical hcanon).2, hnil, namesOf_slash]
      rfl

/-- Validation is exact unless the root resolves to the root directory and the path to
something else. -/
theorem validatesExactly_iff (path root : Bytes) (w : World) :
    ValidatesExactly env path root w ↔
      (nextRealpath env (afterRealpath env w) root = some [slash] →
        ∀ canon, nextRealpath env w path = some canon → canon = [slash]) := by
  have hunder := isPathUnderRoot_iff env path root w
  obtain ⟨valid, w', hvalidRun, hvalid⟩ := isValidCachePath_run env path root w
  constructor
  · rintro ⟨⟨under, w'', hrun, hexact⟩, _⟩ hroot canon hcanon
    rw [isPathUnderRoot_run] at hrun
    cases hrun
    by_contra hne
    have hbelow := underRoot_slash_iff.mpr ⟨canon, hcanon, hne⟩
    rw [← hroot, ← hexact, hunder] at hbelow
    exact hbelow.1 hroot
  · intro hcond
    have hroot : UnderRoot (nextRealpath env w path)
        (nextRealpath env (afterRealpath env w) root) →
        nextRealpath env (afterRealpath env w) root ≠ some [slash] := by
      intro hbelow hroot
      rw [hroot] at hbelow
      obtain ⟨canon, hcanon, hne⟩ := underRoot_slash_iff.mp hbelow
      exact hne (hcond hroot canon hcanon)
    constructor
    · exact ⟨_, _, isPathUnderRoot_run path root w, hunder.trans (and_iff_right_of_imp hroot)⟩
    · exact ⟨valid, w', hvalidRun,
        hvalid.trans (and_iff_right_of_imp fun h => hroot h.1)⟩

end Calls

/-- A tree with the directory `/cache`. -/
def topCacheWorld : World where
  fs := FsStep.applyAll .bare [.mkdir [] (lit "cache")]

/-- `/cache` is not found to be under `/`. -/
theorem validatesExactly_rootDirectory :
    ¬ ValidatesExactly restingDevice (lit "/cache") (lit "/") topCacheWorld := by
  intro hexact
  obtain ⟨under, w', hrun, hunder⟩ := hexact.underRoot
  have hfalse : ((isPathUnderRoot restingDevice (lit "/cache") (lit "/")).run topCacheWorld).1 =
      some false := by decide +kernel
  have hpath : nextRealpath restingDevice topCacheWorld (lit "/cache") = some (lit "/cache") := by
    decide +kernel
  have hroot : nextRealpath restingDevice (afterRealpath restingDevice topCacheWorld) (lit "/") =
      some [slash] := by decide +kernel
  rw [hrun] at hfalse
  cases hfalse
  have hbelow : UnderRoot (some (lit "/cache")) (some [slash]) := by
    refine ⟨_, _, rfl, rfl, ?_⟩
    decide +kernel
  rw [← hpath, ← hroot] at hbelow
  cases hunder.mpr hbelow

end FreshCore
