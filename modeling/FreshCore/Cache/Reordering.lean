import Mathlib.Data.List.Perm.Basic
import FreshCore.Cache.Selection

/-!
# Analyses in another order

The turns of packages with different hashes have nothing to do with each other: what comes
of the directories under one hash is a function of the record they find and of their own
order.
-/

/-- Lists that agree on the elements under each key have the same elements. -/
theorem List.perm_of_filters {α κ : Type} [DecidableEq α] [DecidableEq κ] (key : α → κ)
    {l l' : List α}
    (h : ∀ k, l.filter (fun a => key a = k) = l'.filter (fun a => key a = k)) : l.Perm l' := by
  apply List.perm_iff_count.mpr
  intro a
  have hcount (l : List α) : l.count a = (l.filter fun b => key b = key a).count a :=
    (List.count_filter (by simp)).symm
  rw [hcount l, hcount l', h]

namespace FreshCore

open Posix Imperative Config Device Cache

/-- Two orders of one list of directories, which differ only in how directories under
different hashes stand to each other. -/
def Reordered (dirs dirs' : List CacheDirInfo) : Prop :=
  ∀ hash, dirs.filter (fun dir => hashPackageName dir.pkgName = hash) =
    dirs'.filter fun dir => hashPackageName dir.pkgName = hash

/-! ## The directories under one hash -/

/-- The directory of a turn, its size and the target it became. -/
def Turn.outcome (turn : Turn) : CacheDirInfo × CacheDirInfo × Option MaintenanceTarget :=
  (turn.dir, turn.measured, turn.target?)

section Replay

variable (config : Configuration) (now : UInt64) (measure : CacheDirInfo → CacheDirInfo)

/-- What comes of a directory that finds this record. -/
def outcomeOf (state : PackageState) (dir : CacheDirInfo) :
    CacheDirInfo × CacheDirInfo × Option MaintenanceTarget :=
  if isCoolingDown now state then (dir, dir, none)
  else
    let size := (measure dir).sizeBytes
    let target : MaintenanceTarget := {
      cacheDir := measure dir
      priority := targetPriority size (recordScan now size state) }
    (dir, measure dir, if shouldCleanCache config size then some target else none)

/-- What is then recorded under the hash. -/
def recordAfter (hash : UInt32) (record : Option PackageState) (dir : CacheDirInfo) :
    Option PackageState :=
  let state := record.getD { hash }
  if isCoolingDown now state then record
  else some (recordScan now (measure dir).sizeBytes state)

/-- The directories under one hash, one after the other: what came of them, and the record in
the end. -/
def replay (hash : UInt32) (record : Option PackageState) :
    List CacheDirInfo →
      List (CacheDirInfo × CacheDirInfo × Option MaintenanceTarget) × Option PackageState
  | [] => ([], record)
  | dir :: rest =>
      let (outcomes, final) := replay hash (recordAfter now measure hash record dir) rest
      (outcomeOf config now measure (record.getD { hash }) dir :: outcomes, final)

end Replay

variable {config : Configuration} {now : UInt64} {measure : CacheDirInfo → CacheDirInfo}

/-- The turn measured its directory as it is always measured, unless it was passed over. -/
def Turn.Follows (measure : CacheDirInfo → CacheDirInfo) (now : UInt64) (turn : Turn) : Prop :=
  turn.measured = if turn.isSkipped now then turn.dir else measure turn.dir

theorem Turn.IsDone.outcome_eq {turn : Turn} (h : turn.IsDone config now)
    (hfollows : turn.Follows measure now) :
    turn.outcome = outcomeOf config now measure turn.state turn.dir := by
  unfold Turn.Follows at hfollows
  rw [Turn.outcome, h.target, Turn.size, hfollows, outcomeOf]
  have hskips : turn.isSkipped now = isCoolingDown now turn.state := rfl
  rw [hskips]
  cases isCoolingDown now turn.state with
  | true => simp
  | false => cases hclean : shouldCleanCache config (measure turn.dir).sizeBytes <;> simp [hclean]

theorem lookup_scanRecord {turn : Turn} (hfollows : turn.Follows measure now) (hash : UInt32) :
    (scanRecord now turn.states turn.dir.pkgName turn.size).lookup hash =
      if hashPackageName turn.dir.pkgName = hash then
        recordAfter now measure hash (turn.states.lookup hash) turn.dir
      else turn.states.lookup hash := by
  unfold Turn.Follows at hfollows
  have hskips : turn.isSkipped now =
      isCoolingDown now (getPackageState turn.states turn.dir.pkgName) := rfl
  rw [scanRecord, Turn.size, hfollows, hskips]
  by_cases hhash : hashPackageName turn.dir.pkgName = hash
  · rw [if_pos hhash, recordAfter, ← hhash]
    split
    next hskip => exact (if_pos hskip).symm
    next hscan => exact (AList.lookup_insert _).trans (if_neg hscan).symm
  · rw [if_neg hhash]
    split
    · rfl
    · exact AList.lookup_insert_ne (Ne.symm hhash)

theorem Turn.state_eq {turn : Turn} {hash : UInt32}
    (hhash : hashPackageName turn.dir.pkgName = hash) :
    turn.state = (turn.states.lookup hash).getD { hash } := by
  rw [Turn.state, getPackageState, hhash]

/-- By induction on the turns: one under the hash is the next one of the replay, and any other
leaves the record alone. -/
theorem Scanned.replay {turns : List Turn} {states final : PackageStore}
    (h : Scanned config now states turns final)
    (hfollows : ∀ turn ∈ turns, turn.Follows measure now) (hash : UInt32) :
    ((turns.map Turn.outcome).filter (fun outcome => hashPackageName outcome.1.pkgName = hash),
        final.lookup hash) =
      FreshCore.replay config now measure hash (states.lookup hash)
        ((turns.map Turn.dir).filter fun dir => hashPackageName dir.pkgName = hash) := by
  induction h with
  | nil => rfl
  | @cons turn rest final hdone _ ih =>
      have hfirst := hfollows turn List.mem_cons_self
      have hrest := ih fun other hother => hfollows other (.tail _ hother)
      rw [lookup_scanRecord hfirst] at hrest
      have hname : turn.outcome.1.pkgName = turn.dir.pkgName := rfl
      rw [List.map_cons, List.map_cons, List.filter_cons, List.filter_cons, hname]
      by_cases hhash : hashPackageName turn.dir.pkgName = hash
      · rw [if_pos hhash] at hrest
        rw [if_pos (by simpa using hhash), if_pos (by simpa using hhash), FreshCore.replay, ← hrest,
          hdone.outcome_eq hfirst, Turn.state_eq hhash]
      · rw [if_neg hhash] at hrest
        rw [if_neg (by simpa using hhash), if_neg (by simpa using hhash), hrest]

/-- Two analyses that find the same records and measure alike come to the same, turn by turn
under each hash. -/
theorem Scanned.reordered {turns turns' : List Turn} {states final final' : PackageStore}
    (h : Scanned config now states turns final) (h' : Scanned config now states turns' final')
    (hfollows : ∀ turn ∈ turns, turn.Follows measure now)
    (hfollows' : ∀ turn ∈ turns', turn.Follows measure now)
    (hreordered : Reordered (turns.map Turn.dir) (turns'.map Turn.dir)) :
    SameRecords final final' ∧ (turns.map Turn.outcome).Perm (turns'.map Turn.outcome) := by
  have hsame (hash : UInt32) :=
    (h.replay hfollows hash).trans
      ((congrArg _ (hreordered hash)).trans (h'.replay hfollows' hash).symm)
  refine ⟨fun hash => (congrArg Prod.snd (hsame hash)).symm,
    List.perm_of_filters (fun outcome => hashPackageName outcome.1.pkgName) fun hash => ?_⟩
  exact congrArg Prod.fst (hsame hash)

variable {env : Env} {depth : Nat} {answers : Bytes → Option (List Name)} {unseen : Bytes → Bool}

/-- The calls find in both analyses what they always find. -/
theorem analyzeCaches_reordered {dirs dirs' : List CacheDirInfo} {w : World}
    (hquiet : env.Quiet) (hhides : env.Hides unseen)
    (hdepth : ∀ loc ∈ w.fs.locs, loc.length < depth) (hreordered : Reordered dirs dirs')
    (hheeds : Heeds answers unseen (eventsOf (analyzeCaches env depth dirs) w))
    (hheeds' : Heeds answers unseen (eventsOf (analyzeCaches env depth dirs') w)) :
    ∃ measured targets w₁ measured' targets' w₂,
      (analyzeCaches env depth dirs).run w = (some (measured, targets), w₁) ∧
      (analyzeCaches env depth dirs').run w = (some (measured', targets'), w₂) ∧
      SameRecords w₁.process.states w₂.process.states ∧
      (dirs.zip measured).Perm (dirs'.zip measured') ∧ targets.Perm targets' := by
  obtain ⟨⟨measured, targets⟩, w₁, hrun, hfollows⟩ :=
    analyzeCaches_quiet answers hquiet hhides hdepth dirs
  obtain ⟨⟨measured', targets'⟩, w₂, hrun', hfollows'⟩ :=
    analyzeCaches_quiet answers hquiet hhides hdepth dirs'
  obtain ⟨hscanned, hdirs, hmeasured, htargets⟩ := analyzeCaches_returns hrun
  obtain ⟨hscanned', hdirs', hmeasured', htargets'⟩ := analyzeCaches_returns hrun'
  obtain ⟨hrecords, hperm⟩ := hscanned.reordered hscanned' (hfollows hheeds) (hfollows' hheeds')
    (by rwa [hdirs, hdirs'])
  refine ⟨measured, targets, w₁, measured', targets', w₂, hrun, hrun', hrecords, ?_, ?_⟩
  · have hzip : dirs.zip measured =
        (turnsOf env depth dirs w).map fun turn => (turn.dir, turn.measured) := by
      rw [← List.zip_map', hdirs, hmeasured]
    have hzip' : dirs'.zip measured' =
        (turnsOf env depth dirs' w).map fun turn => (turn.dir, turn.measured) := by
      rw [← List.zip_map', hdirs', hmeasured']
    have hsizes := hperm.map fun outcome => (outcome.1, outcome.2.1)
    rw [List.map_map, List.map_map] at hsizes
    rw [hzip, hzip']
    exact hsizes
  · have hfound := hperm.filterMap fun outcome => outcome.2.2
    rw [List.filterMap_map, List.filterMap_map] at hfound
    exact htargets.trans (hfound.trans htargets'.symm)

def cacheOfOne : CacheDirInfo := { path := lit "/data/com.a/cache", pkgName := lit "com.a" }

def cacheOfTwo : CacheDirInfo := { path := lit "/data/com.b/cache", pkgName := lit "com.b" }

/-- Two apps with a cache of 300 and of 700 MiB. -/
def twoAppsWorld : World where
  fs := FsStep.applyAll .bare [
    .mkdir [] (lit "data"),
    .mkdir [lit "data"] (lit "com.a"),
    .mkdir [lit "data", lit "com.a"] (lit "cache"),
    .create [lit "data", lit "com.a", lit "cache"] (lit "f") (300 * 1024 * 1024),
    .mkdir [lit "data"] (lit "com.b"),
    .mkdir [lit "data", lit "com.b"] (lit "cache"),
    .create [lit "data", lit "com.b", lit "cache"] (lit "f") (700 * 1024 * 1024)]

theorem analyzeCaches_reordered_twoApps :
    ∃ measured targets w₁ measured' targets' w₂,
      (analyzeCaches restingDevice 5 [cacheOfOne, cacheOfTwo]).run twoAppsWorld =
        (some (measured, targets), w₁) ∧
      (analyzeCaches restingDevice 5 [cacheOfTwo, cacheOfOne]).run twoAppsWorld =
        (some (measured', targets'), w₂) ∧
      SameRecords w₁.process.states w₂.process.states ∧
      ([cacheOfOne, cacheOfTwo].zip measured).Perm ([cacheOfTwo, cacheOfOne].zip measured') ∧
      targets.Perm targets' := by
  have hreordered : Reordered [cacheOfOne, cacheOfTwo] [cacheOfTwo, cacheOfOne] := by
    have hhashes : hashPackageName cacheOfOne.pkgName ≠ hashPackageName cacheOfTwo.pkgName := by
      decide +kernel
    intro hash
    by_cases hhash : hashPackageName cacheOfOne.pkgName = hash
    · simp [hhash, hhash ▸ hhashes.symm]
    · simp [List.filter_cons, hhash]
  have hheeds : Heeds (listing twoAppsWorld.fs []) (fun _ => false)
      (eventsOf (analyzeCaches restingDevice 5 [cacheOfOne, cacheOfTwo]) twoAppsWorld) := by
    decide +kernel
  exact analyzeCaches_reordered restingDevice_quiet restingDevice.hides_none (by decide +kernel)
    hreordered hheeds (by decide +kernel)

end FreshCore
