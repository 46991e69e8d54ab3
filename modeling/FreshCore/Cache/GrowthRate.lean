import Mathlib.Algebra.Order.Archimedean.Real.Basic
import Mathlib.Data.Nat.Cast.Order.Field
import Mathlib.Tactic.GCongr
import Mathlib.Tactic.Linarith
import Mathlib.Tactic.NormNum
import Mathlib.Tactic.Positivity
import Mathlib.Tactic.Ring
import FreshCore.Cache.Cooldown

/-!
# The growth rate of a package

All directories of a package go through one record: each turn compares the size of its
directory with that of the turn before, and the time with that of the last scan. In one
pass the first turn alone can change the growth rate, since the time has not moved on at
the others. What the rate says of the package thus depends on which directory came last in
one pass and first in the next, and on how far apart any two passes were.
-/

namespace FreshCore

open Posix Imperative Config Device Cache

/-! ## The record of one package during a pass -/

/-- What the turn of a directory does to the record of its package. -/
def scanState (now : UInt64) (state : PackageState) (size : UInt64) : PackageState :=
  if isCoolingDown now state then state else recordScan now size state

/-- The directories of the package, or of one with the same hash. -/
def turnsFor (pkgName : Bytes) (turns : List Turn) : List Turn :=
  turns.filter fun turn => hashPackageName turn.dir.pkgName = hashPackageName pkgName

def sizesFor (pkgName : Bytes) (turns : List Turn) : List UInt64 :=
  (turnsFor pkgName turns).map Turn.size

theorem getPackageState_scanRecord (now : UInt64) (states : PackageStore)
    (scanned pkgName : Bytes) (size : UInt64) :
    getPackageState (scanRecord now states scanned size) pkgName =
      if hashPackageName scanned = hashPackageName pkgName then
        scanState now (getPackageState states pkgName) size
      else getPackageState states pkgName := by
  unfold scanRecord scanState
  dsimp only
  by_cases hhash : hashPackageName scanned = hashPackageName pkgName
  · rw [if_pos hhash, getPackageState_congr hhash]
    split
    · rfl
    · rw [getPackageState_update, if_pos hhash.symm]
  · rw [if_neg hhash]
    split
    · rfl
    · rw [getPackageState_update, if_neg (Ne.symm hhash)]

/-- A pass takes the record through the sizes of the package's directories. -/
theorem Scanned.record {config : Configuration} {now : UInt64} {turns : List Turn}
    {states final : PackageStore} (h : Scanned config now states turns final) (pkgName : Bytes) :
    getPackageState final pkgName =
      (sizesFor pkgName turns).foldl (scanState now) (getPackageState states pkgName) := by
  induction h with
  | nil => rfl
  | @cons turn rest final _ _ ih =>
      rw [ih, getPackageState_scanRecord]
      by_cases hhash : hashPackageName turn.dir.pkgName = hashPackageName pkgName
      · simp [hhash, sizesFor, turnsFor]
      · simp [hhash, sizesFor, turnsFor]

/-- The turns of a package find the record as the turns before have left it. -/
theorem Scanned.state_head {config : Configuration} {now : UInt64} {turns : List Turn}
    {states final : PackageStore} (h : Scanned config now states turns final) {pkgName : Bytes}
    {first : Turn} {rest : List Turn} (hturns : turnsFor pkgName turns = first :: rest) :
    first.state = getPackageState states pkgName := by
  induction h with
  | nil => cases hturns
  | @cons turn others final _ _ ih =>
      rw [turnsFor, List.filter_cons] at hturns
      by_cases hhash : hashPackageName turn.dir.pkgName = hashPackageName pkgName
      · rw [if_pos (by simpa using hhash)] at hturns
        cases hturns
        rw [Turn.state, getPackageState_congr hhash]
      · rw [if_neg (by simpa using hhash)] at hturns
        rw [ih hturns, getPackageState_scanRecord, if_neg hhash]

theorem daysSinceScan_self {now : UInt64} {state : PackageState} (h : state.lastScanMs = now) :
    daysSinceScan now state = 0 := by
  unfold daysSinceScan
  rw [h, if_neg (UInt64.lt_irrefl now)]
  rfl

theorem recordScan_growth_self {now size : UInt64} {state : PackageState}
    (h : state.lastScanMs = now) :
    (recordScan now size state).growthRateBytesPerDay = state.growthRateBytesPerDay := by
  simp [recordScan, daysSinceScan_self h]

theorem isCoolingDown_congr {now : UInt64} {state state' : PackageState}
    (hcleanup : state'.lastCleanupMs = state.lastCleanupMs)
    (hgrowth : state'.growthRateBytesPerDay = state.growthRateBytesPerDay) :
    isCoolingDown now state' = isCoolingDown now state := by
  rw [isCoolingDown, isCoolingDown, hcleanup, hgrowth]

/-- Once the record has the time of the pass, or is left alone, the pass keeps the rate. -/
theorem foldl_scanState_growth {now : UInt64} (sizes : List UInt64) {state : PackageState}
    (h : state.lastScanMs = now ∨ isCoolingDown now state = true) :
    (sizes.foldl (scanState now) state).growthRateBytesPerDay = state.growthRateBytesPerDay := by
  induction sizes generalizing state with
  | nil => rfl
  | cons size rest ih =>
      rw [List.foldl_cons, scanState]
      split
      next hskip => exact ih (Or.inr hskip)
      next hscan =>
        have hnow : state.lastScanMs = now := h.resolve_right hscan
        rw [ih (Or.inl rfl), recordScan_growth_self hnow]

/-- The first directory of a package settles the rate. -/
theorem foldl_scanState_growth_cons (now first : UInt64) (rest : List UInt64)
    (state : PackageState) :
    ((first :: rest).foldl (scanState now) state).growthRateBytesPerDay =
      (scanState now state first).growthRateBytesPerDay := by
  rw [List.foldl_cons]
  apply foldl_scanState_growth
  rw [scanState]
  split
  next hskip => exact Or.inr hskip
  next => exact Or.inl rfl

/-- A pass that skips no directory measures them all. -/
theorem Scanned.record_measured {config : Configuration} {now : UInt64} {turns : List Turn}
    {states final : PackageStore} (h : Scanned config now states turns final)
    (hmeasured : ∀ turn ∈ turns, turn.isSkipped now = false) (pkgName : Bytes) :
    getPackageState final pkgName =
      (sizesFor pkgName turns).foldl (fun state size => recordScan now size state)
        (getPackageState states pkgName) := by
  induction h with
  | nil => rfl
  | @cons turn rest final _ _ ih =>
      rw [ih (fun turn hturn => hmeasured turn (List.mem_cons_of_mem _ hturn)),
        getPackageState_scanRecord]
      by_cases hhash : hashPackageName turn.dir.pkgName = hashPackageName pkgName
      · have hscan : isCoolingDown now (getPackageState turn.states pkgName) = false := by
          rw [← getPackageState_congr hhash]
          exact hmeasured turn List.mem_cons_self
        simp [hhash, sizesFor, turnsFor, scanState, hscan]
      · simp [hhash, sizesFor, turnsFor]

/-! ## Two passes over directories that keep their sizes -/

theorem recordScan_growth_le_iff (now size : UInt64) (state : PackageState) :
    (recordScan now size state).growthRateBytesPerDay ≤ state.growthRateBytesPerDay ↔
      size ≤ state.lastSizeBytes ∨ daysSinceScan now state = 0 ∨
        ((size - state.lastSizeBytes) / daysSinceScan now state).toUInt32 ≤
          state.growthRateBytesPerDay := by
  have hdays : 0 < daysSinceScan now state ↔ daysSinceScan now state ≠ 0 := UInt64.pos_iff_ne_zero
  unfold recordScan
  dsimp only
  split
  next hgrows =>
    rw [hdays] at hgrows
    have hsize : ¬ size ≤ state.lastSizeBytes := UInt64.not_le.mpr hgrows.2
    simp [hgrows.1, hsize]
  next hsame =>
    rw [hdays, not_and_or, not_not, UInt64.not_lt] at hsame
    have hrefl : state.growthRateBytesPerDay ≤ state.growthRateBytesPerDay := UInt32.le_refl _
    tauto

/-- What a pass at `now₁` leaves in the record, and a pass at `now₂` finds, does not look like
growth; `first` and `last` are the sizes of the first and the last directory of the package,
and `state` is its record before. -/
def LooksSteady (now₁ now₂ : UInt64) (state : PackageState) (first last : UInt64) : Prop :=
  let scanned := recordScan now₁ first state
  first ≤ last ∨ daysSinceScan now₂ scanned = 0 ∨ isCoolingDown now₂ scanned = true ∨
    ((first - last) / daysSinceScan now₂ scanned).toUInt32 ≤ scanned.growthRateBytesPerDay

/-- What a pass that measures every directory makes of the record of one that has some. -/
theorem Scanned.record_of_cons {config : Configuration} {now : UInt64} {turns : List Turn}
    {states final : PackageStore} (h : Scanned config now states turns final)
    (hmeasured : ∀ turn ∈ turns, turn.isSkipped now = false) {pkgName : Bytes} {first : Turn}
    {rest : List Turn} (hturns : turnsFor pkgName turns = first :: rest) :
    let record := getPackageState final pkgName
    let scanned := recordScan now first.size (getPackageState states pkgName)
    record.lastScanMs = now ∧ (sizesFor pkgName turns).getLast? = some record.lastSizeBytes ∧
      record.lastCleanupMs = scanned.lastCleanupMs ∧
      record.growthRateBytesPerDay = scanned.growthRateBytesPerDay := by
  intro record scanned
  have hfirst : first.isSkipped now = false :=
    hmeasured first (List.mem_of_mem_filter (hturns ▸ List.mem_cons_self))
  have hscan : scanState now (getPackageState states pkgName) first.size = scanned := by
    rw [Turn.isSkipped, h.state_head hturns] at hfirst
    simp [scanState, hfirst, scanned]
  have hsizes : sizesFor pkgName turns = first.size :: rest.map Turn.size := by
    rw [sizesFor, hturns, List.map_cons]
  have hgrowth : record.growthRateBytesPerDay = scanned.growthRateBytesPerDay := by
    dsimp only [record]
    rw [h.record pkgName, hsizes, foldl_scanState_growth_cons, hscan]
  have hcleanup : record.lastCleanupMs = scanned.lastCleanupMs := (h.lastCleanupMs pkgName).2
  -- the last directory is the one the record remembers
  obtain ⟨front, last, hlast⟩ : ∃ front last, sizesFor pkgName turns = front ++ [last] := by
    rw [hsizes]
    exact ⟨_, _, (List.dropLast_concat_getLast (List.cons_ne_nil _ _)).symm⟩
  have hrecord : record = recordScan now last (front.foldl
      (fun state size => recordScan now size state) (getPackageState states pkgName)) := by
    dsimp only [record]
    rw [h.record_measured hmeasured pkgName, hlast, List.foldl_concat]
  refine ⟨?_, ?_, hcleanup, hgrowth⟩
  · rw [hrecord, recordScan]
  · rw [hlast, List.getLast?_concat, hrecord, recordScan]

/-- What holds of the turns of two passes over one list holds of those of each package. -/
theorem turnsFor_forall₂ {R : Turn → Turn → Prop} {turns turns' : List Turn}
    (hnames : turns.map (fun turn => turn.dir.pkgName) = turns'.map fun turn => turn.dir.pkgName)
    (h : List.Forall₂ R turns turns')
    (pkgName : Bytes) : List.Forall₂ R (turnsFor pkgName turns) (turnsFor pkgName turns') := by
  induction h with
  | nil => exact .nil
  | @cons turn turn' rest rest' hturn _ ih =>
      rw [List.map_cons, List.map_cons, List.cons.injEq] at hnames
      obtain ⟨hname, hnames⟩ := hnames
      by_cases hhash : hashPackageName turn.dir.pkgName = hashPackageName pkgName
      · have hhash' : hashPackageName turn'.dir.pkgName = hashPackageName pkgName := hname ▸ hhash
        simpa [turnsFor, hhash, hhash'] using ⟨hturn, ih hnames⟩
      · have hhash' : hashPackageName turn'.dir.pkgName ≠ hashPackageName pkgName := hname ▸ hhash
        simpa [turnsFor, hhash, hhash'] using ih hnames

/-- The second of two passes, for a package that has directories. -/
theorem Scanned.growth_le_iff {config config' : Configuration} {now₁ now₂ : UInt64}
    {turns₁ turns₂ : List Turn} {states between final : PackageStore}
    (h₁ : Scanned config now₁ states turns₁ between)
    (h₂ : Scanned config' now₂ between turns₂ final)
    (hmeasured : ∀ turn ∈ turns₁, turn.isSkipped now₁ = false) {pkgName : Bytes}
    {first₁ first₂ : Turn} {rest₁ rest₂ : List Turn}
    (hturns₁ : turnsFor pkgName turns₁ = first₁ :: rest₁)
    (hturns₂ : turnsFor pkgName turns₂ = first₂ :: rest₂)
    (hsame : first₂.isSkipped now₂ = false → first₂.size = first₁.size)
    {last : UInt64} (hlast : (sizesFor pkgName turns₁).getLast? = some last) :
    (getPackageState final pkgName).growthRateBytesPerDay ≤
        (getPackageState between pkgName).growthRateBytesPerDay ↔
      LooksSteady now₁ now₂ (getPackageState states pkgName) first₁.size last := by
  obtain ⟨hscan, hlast', hcleanup, hgrowth⟩ := h₁.record_of_cons hmeasured hturns₁
  rw [hlast', Option.some.injEq] at hlast
  have hcooling : isCoolingDown now₂ (getPackageState between pkgName) =
      isCoolingDown now₂ (recordScan now₁ first₁.size (getPackageState states pkgName)) :=
    isCoolingDown_congr hcleanup hgrowth
  have hdays : daysSinceScan now₂ (getPackageState between pkgName) =
      daysSinceScan now₂ (recordScan now₁ first₁.size (getPackageState states pkgName)) := by
    rw [daysSinceScan, daysSinceScan, hscan, recordScan]
  have hsizes : sizesFor pkgName turns₂ = first₂.size :: rest₂.map Turn.size := by
    rw [sizesFor, hturns₂, List.map_cons]
  rw [h₂.record pkgName, hsizes, foldl_scanState_growth_cons, LooksSteady]
  rw [← hcooling, ← hdays, ← hgrowth, ← hlast]
  rw [Turn.isSkipped, h₂.state_head hturns₂] at hsame
  by_cases hcool : isCoolingDown now₂ (getPackageState between pkgName) = true
  · simp [scanState, hcool]
  · rw [Bool.not_eq_true] at hcool
    rw [hsame hcool]
    simp [scanState, hcool, recordScan_growth_le_iff]

variable {env : Env} {depth₁ depth₂ : Nat}

/-- After two passes over the same directories, the first of which skipped none, and none of
which changed its size, no growth rate is larger than between them exactly if what the first
pass leaves does not look like growth to the second. -/
theorem analyzeCaches_steady_iff {dirs₁ dirs₂ : List CacheDirInfo} {w₁ w₁' w₂ w₂' : World}
    {result₁ result₂ : List CacheDirInfo × List MaintenanceTarget}
    (hfirst : (analyzeCaches env depth₁ dirs₁).run w₁ = (some result₁, w₁'))
    (hsecond : (analyzeCaches env depth₂ dirs₂).run w₂ = (some result₂, w₂'))
    (hlist : dirs₂.map CacheDirInfo.pkgName = dirs₁.map CacheDirInfo.pkgName)
    (hbetween : w₂.process.states = w₁'.process.states)
    (hmeasured : ∀ turn ∈ turnsOf env depth₁ dirs₁ w₁,
      turn.isSkipped (analysisTime env w₁) = false)
    (hsame : List.Forall₂
      (fun before after =>
        after.isSkipped (analysisTime env w₂) = false → after.size = before.size)
      (turnsOf env depth₁ dirs₁ w₁) (turnsOf env depth₂ dirs₂ w₂)) :
    (∀ pkgName, (getPackageState w₂'.process.states pkgName).growthRateBytesPerDay ≤
        (getPackageState w₁'.process.states pkgName).growthRateBytesPerDay) ↔
      ∀ pkgName, ∀ first ∈ (sizesFor pkgName (turnsOf env depth₁ dirs₁ w₁)).head?,
        ∀ last ∈ (sizesFor pkgName (turnsOf env depth₁ dirs₁ w₁)).getLast?,
          LooksSteady (analysisTime env w₁) (analysisTime env w₂)
            (getPackageState w₁.process.states pkgName) first last := by
  obtain ⟨hscanned₁, hdirs₁, _⟩ := analyzeCaches_returns hfirst
  obtain ⟨hscanned₂, hdirs₂, _⟩ := analyzeCaches_returns hsecond
  rw [hbetween] at hscanned₂
  rw [← hdirs₁, ← hdirs₂, List.map_map, List.map_map] at hlist
  have hnames : (turnsOf env depth₁ dirs₁ w₁).map (fun turn => turn.dir.pkgName) =
      (turnsOf env depth₂ dirs₂ w₂).map fun turn => turn.dir.pkgName := hlist.symm
  apply forall_congr'
  intro pkgName
  have hturns := turnsFor_forall₂ hnames hsame pkgName
  cases hfor : turnsFor pkgName (turnsOf env depth₁ dirs₁ w₁) with
  | nil =>
      -- no directory, no change
      rw [hfor, List.forall₂_nil_left_iff] at hturns
      simp [hscanned₂.record pkgName, sizesFor, hfor, hturns]
  | cons first₁ rest₁ =>
      rw [hfor, List.forall₂_cons_left_iff] at hturns
      obtain ⟨first₂, rest₂, hsize, _, hfor'⟩ := hturns
      obtain ⟨_, hlast, _⟩ := hscanned₁.record_of_cons hmeasured hfor
      have hhead : (sizesFor pkgName (turnsOf env depth₁ dirs₁ w₁)).head? =
          some first₁.size := by simp [sizesFor, hfor]
      rw [hscanned₁.growth_le_iff hscanned₂ hmeasured hfor hfor' hsize hlast, hhead, hlast]
      simp

/-- A device on which a day goes by with each observation. -/
def dailyDevice : Env :=
  { restingDevice with
    realtime := fun tick => { sec := 1700000000 + 86400 * .ofNat tick, nsec := 0 } }

/-- An app with a large cache and a small one. -/
def twoCachesWorld : World where
  fs := FsStep.applyAll .bare [
    .mkdir [] (lit "data"),
    .mkdir [lit "data"] (lit "com.a"),
    .mkdir [lit "data", lit "com.a"] (lit "cache"),
    .mkdir [lit "data", lit "com.a"] (lit "code_cache"),
    .create [lit "data", lit "com.a", lit "cache"] (lit "f") 90000,
    .create [lit "data", lit "com.a", lit "code_cache"] (lit "f") 10]

def twoCaches : List CacheDirInfo := [
  { path := lit "/data/com.a/cache", pkgName := lit "com.a" },
  { path := lit "/data/com.a/code_cache", pkgName := lit "com.a" }]

/-- The world after an analysis of the two caches. -/
def analyzeTwoCaches (w : World) : World := ((analyzeCaches dailyDevice 2 twoCaches).run w).2

theorem analyzeTwoCaches_run {w : World}
    (h : ((analyzeCaches dailyDevice 2 twoCaches).run w).1.isSome = true) :
    ∃ result, (analyzeCaches dailyDevice 2 twoCaches).run w =
      (some result, analyzeTwoCaches w) := by
  obtain ⟨result, hresult⟩ := Option.isSome_iff_exists.mp h
  exact ⟨result, Program.run_eq_of_result hresult⟩

theorem analyzeCaches_steady_twoCaches :
    let w₁ := analyzeTwoCaches twoCachesWorld
    let w₂ := analyzeTwoCaches w₁
    (∀ pkgName, (getPackageState w₂.process.states pkgName).growthRateBytesPerDay ≤
        (getPackageState w₁.process.states pkgName).growthRateBytesPerDay) ↔
      ∀ pkgName,
        ∀ first ∈ (sizesFor pkgName (turnsOf dailyDevice 2 twoCaches twoCachesWorld)).head?,
        ∀ last ∈ (sizesFor pkgName (turnsOf dailyDevice 2 twoCaches twoCachesWorld)).getLast?,
          LooksSteady (analysisTime dailyDevice twoCachesWorld) (analysisTime dailyDevice w₁)
            (getPackageState twoCachesWorld.process.states pkgName) first last := by
  obtain ⟨result₁, hfirst⟩ := analyzeTwoCaches_run (w := twoCachesWorld) (by decide +kernel)
  obtain ⟨result₂, hsecond⟩ :=
    analyzeTwoCaches_run (w := analyzeTwoCaches twoCachesWorld) (by decide +kernel)
  exact analyzeCaches_steady_iff hfirst hsecond rfl rfl (by decide +kernel) (by decide +kernel)

/-- The small cache comes last in each pass, so the large one looks grown in the second. -/
theorem analyzeCaches_unsteady_twoCaches :
    let w₁ := analyzeTwoCaches twoCachesWorld
    let turns₁ := turnsOf dailyDevice 2 twoCaches twoCachesWorld
    let turns₂ := turnsOf dailyDevice 2 twoCaches w₁
    ((analyzeCaches dailyDevice 2 twoCaches).run twoCachesWorld).1.isSome ∧
      ((analyzeCaches dailyDevice 2 twoCaches).run w₁).1.isSome ∧
      analysisTime dailyDevice twoCachesWorld < analysisTime dailyDevice w₁ ∧
      (∀ turn ∈ turns₁, turn.isSkipped (analysisTime dailyDevice twoCachesWorld) = false) ∧
      turns₂.map Turn.size = turns₁.map Turn.size ∧
      ¬ ∀ pkgName,
        (getPackageState (analyzeTwoCaches w₁).process.states pkgName).growthRateBytesPerDay ≤
          (getPackageState w₁.process.states pkgName).growthRateBytesPerDay := by
  refine ⟨?_, ?_, ?_, ?_, ?_, fun hsteady => ?_⟩
  · decide +kernel
  · decide +kernel
  · decide +kernel
  · decide +kernel
  · decide +kernel
  · have hrate := hsteady (lit "com.a")
    revert hrate
    decide +kernel

/-! ## Passes at any times -/

/-- A pass over the one directory of a package. -/
structure Pass where
  time : UInt64
  size : UInt64
  deriving DecidableEq, Repr

/-- The call is an analysis that finds one directory of the package. -/
def CacheStep.IsPass (env : Env) (pkgName : Bytes) (step : CacheStep) (pass : Pass) : Prop :=
  ∃ scannedDirs, step.call = .analyze scannedDirs ∧ analysisTime env step.before = pass.time ∧
    sizesFor pkgName (turnsOf env step.depth scannedDirs step.before) = [pass.size]

namespace Pass

def msPerDay : Nat := 24 * 60 * 60 * 1000

/-- Whole days from one pass to a later one. -/
def daysTo (before after : Pass) : Nat :=
  (after.time.toNat - before.time.toNat) / msPerDay

/-- The growth per day from one pass to a later one, as the record has it. -/
def rateTo (before after : Pass) : Nat :=
  (after.size.toNat - before.size.toNat) / before.daysTo after

end Pass

/-- The last two passes that follow one another at least a day apart. -/
def lastDayStep : List Pass → Option (Pass × Pass)
  | before :: after :: rest =>
      (lastDayStep (after :: rest)).or
        (if 0 < before.daysTo after then some (before, after) else none)
  | _ => none

/-- Passes on a clock that moves on and is past the cooldown of a package that was never
cleaned, between any two of which the directory grows by `r` a day or more. -/
structure GrowsBy (r : ℝ) (passes : List Pass) : Prop where
  time : passes.Pairwise fun before after => before.time < after.time
  size : passes.Pairwise fun before after =>
    r * ((after.time.toNat : ℝ) - before.time.toNat) / Pass.msPerDay ≤
      (after.size.toNat : ℝ) - before.size.toNat
  late : ∀ pass ∈ passes, minCleanupIntervalMs < pass.time
  small : ∀ pass ∈ passes, pass.size.toNat < 2 ^ 32

theorem daysSinceScan_toNat (now : UInt64) (state : PackageState) :
    (daysSinceScan now state).toNat =
      (now.toNat - state.lastScanMs.toNat) / Pass.msPerDay := by
  unfold daysSinceScan
  rw [UInt64.toNat_div]
  split
  next hlater =>
    rw [UInt64.toNat_sub_of_le _ _ (UInt64.le_of_lt hlater)]
    rfl
  next hnot =>
    have := UInt64.le_iff_toNat_le.mp (UInt64.not_lt.mp hnot)
    rw [Nat.sub_eq_zero_of_le this, Nat.zero_div]
    rfl

/-- A scan that finds the directory grown. -/
theorem recordScan_growth_toNat (now : UInt64) {size : UInt64} {state : PackageState}
    (hgrown : state.lastSizeBytes < size) (hsmall : size.toNat < 2 ^ 32) :
    let days := (now.toNat - state.lastScanMs.toNat) / Pass.msPerDay
    (recordScan now size state).growthRateBytesPerDay.toNat =
      if 0 < days then (size.toNat - state.lastSizeBytes.toNat) / days
      else state.growthRateBytesPerDay.toNat := by
  intro days
  have hdays : (daysSinceScan now state).toNat = days := daysSinceScan_toNat now state
  have hpos : 0 < daysSinceScan now state ↔ 0 < days := by
    rw [UInt64.lt_iff_toNat_lt, hdays]
    rfl
  unfold recordScan
  dsimp only
  simp only [hpos, hgrown, and_true]
  split
  · have hdiff := UInt64.toNat_sub_of_le _ _ (UInt64.le_of_lt hgrown)
    rw [UInt64.toNat_toUInt32, UInt64.toNat_div, hdays, hdiff]
    apply Nat.mod_eq_of_lt
    have := Nat.div_le_self (size.toNat - state.lastSizeBytes.toNat) days
    omega
  · rfl

/-- The record after the passes, with what the first of them left. -/
theorem foldl_recordScan_growth {first : Pass} {rest : List Pass} {state : PackageState}
    (htime : state.lastScanMs = first.time) (hsize : state.lastSizeBytes = first.size)
    (hgrown : (first :: rest).Pairwise fun before after => before.size < after.size)
    (hsmall : ∀ pass ∈ rest, pass.size.toNat < 2 ^ 32) :
    (rest.foldl (fun state pass => recordScan pass.time pass.size state)
        state).growthRateBytesPerDay.toNat =
      ((lastDayStep (first :: rest)).map fun (before, after) => before.rateTo after).getD
        state.growthRateBytesPerDay.toNat := by
  induction rest generalizing first state with
  | nil => rfl
  | cons next rest ih =>
      have hnext : state.lastSizeBytes < next.size := by
        rw [hsize]
        exact List.rel_of_pairwise_cons hgrown List.mem_cons_self
      have hrate : (recordScan next.time next.size state).growthRateBytesPerDay.toNat =
          if 0 < first.daysTo next then first.rateTo next
          else state.growthRateBytesPerDay.toNat := by
        rw [recordScan_growth_toNat next.time hnext (hsmall next List.mem_cons_self), htime, hsize]
        rfl
      rw [List.foldl_cons, ih rfl rfl hgrown.of_cons
        (fun pass hpass => hsmall pass (List.mem_cons_of_mem _ hpass)), lastDayStep]
      cases lastDayStep (next :: rest) with
      | some step => rfl
      | none =>
          rw [Option.none_or, Option.map_none, Option.getD_none, hrate]
          split <;> rfl

/-- The passes take the record of the package from scan to scan. -/
theorem CacheRun.record {env : Env} {pkgName : Bytes} {states final : PackageStore}
    {steps : List CacheStep} {passes : List Pass} (hrun : CacheRun env states steps final)
    (hpasses : List.Forall₂ (CacheStep.IsPass env pkgName) steps passes)
    (hclean : (getPackageState states pkgName).lastCleanupMs = 0)
    (hlate : ∀ pass ∈ passes, minCleanupIntervalMs < pass.time) :
    getPackageState final pkgName =
      passes.foldl (fun state pass => recordScan pass.time pass.size state)
        (getPackageState states pkgName) := by
  induction hpasses generalizing states with
  | nil =>
      cases hrun
      rfl
  | @cons step pass steps passes hpass _ ih =>
      cases hrun with
      | cons hbefore hran hrest =>
          obtain ⟨scannedDirs, hcall, htime, hsizes⟩ := hpass
          rw [CacheStep.Ran, hcall] at hran
          obtain ⟨⟨dirs, targets⟩, hscan⟩ := hran
          obtain ⟨hscanned, _⟩ := analyzeCaches_returns hscan
          rw [hbefore, htime] at hscanned
          have hscans : isCoolingDown pass.time (getPackageState states pkgName) = false := by
            have hlong : ¬ pass.time < minCleanupIntervalMs :=
              UInt64.not_lt.mpr (UInt64.le_of_lt (hlate pass List.mem_cons_self))
            simp [isCoolingDown, hclean, hlong]
          have hrecord : getPackageState step.after.process.states pkgName =
              recordScan pass.time pass.size (getPackageState states pkgName) := by
            rw [hscanned.record pkgName, hsizes, List.foldl_cons, List.foldl_nil, scanState,
              hscans]
            rfl
          rw [ih hrest (by rw [hrecord]; exact hclean)
            (fun pass hpass => hlate pass (List.mem_cons_of_mem _ hpass)), hrecord,
            List.foldl_cons]

/-- With a rate above zero, every pass finds the directory grown. -/
theorem GrowsBy.grown {r : ℝ} {passes : List Pass} (h : GrowsBy r passes) (hr : 0 < r) :
    passes.Pairwise fun before after => before.size < after.size := by
  apply (h.time.and h.size).imp
  rintro before after ⟨htime, hsize⟩
  have htime' : (before.time.toNat : ℝ) < after.time.toNat :=
    Nat.cast_lt.mpr (UInt64.lt_iff_toNat_lt.mp htime)
  have hgrowth : 0 < r * ((after.time.toNat : ℝ) - before.time.toNat) / Pass.msPerDay := by
    apply div_pos (mul_pos hr (sub_pos.mpr htime'))
    norm_num [Pass.msPerDay]
  have hsize' : (before.size.toNat : ℝ) < after.size.toNat := by linarith
  exact UInt64.lt_iff_toNat_lt.mpr (Nat.cast_lt.mp hsize')

theorem lastDayStep_spec {passes : List Pass} {before after : Pass}
    (h : lastDayStep passes = some (before, after)) :
    [before, after].Sublist passes ∧ 0 < before.daysTo after := by
  induction passes with
  | nil => cases h
  | cons first rest ih =>
      cases rest with
      | nil => cases h
      | cons next rest =>
          rw [lastDayStep, Option.or_eq_some_iff] at h
          rcases h with hlater | ⟨_, hfirst⟩
          · obtain ⟨hsub, hday⟩ := ih hlater
            exact ⟨hsub.cons first, hday⟩
          · split at hfirst
            next hday =>
              cases hfirst
              exact ⟨((List.nil_sublist rest).cons_cons after).cons_cons before, hday⟩
            next => cases hfirst

/-- For a whole rate, every step of a day or more shows it. -/
theorem GrowsBy.whole {rate : Nat} {passes : List Pass} (h : GrowsBy rate passes)
    {before after : Pass} (hstep : lastDayStep passes = some (before, after)) :
    rate * before.daysTo after ≤ after.size.toNat - before.size.toNat := by
  obtain ⟨hsub, _⟩ := lastDayStep_spec hstep
  have htime := UInt64.lt_iff_toNat_lt.mp
    (List.rel_of_pairwise_cons (h.time.sublist hsub) List.mem_cons_self)
  have hsize := List.rel_of_pairwise_cons (h.size.sublist hsub) List.mem_cons_self
  have hdays : ((before.daysTo after : Nat) : ℝ) ≤
      ((after.time.toNat : ℝ) - before.time.toNat) / Pass.msPerDay := by
    rw [Pass.daysTo, ← Nat.cast_sub htime.le]
    exact Nat.cast_div_le
  have hgrowth : ((rate * before.daysTo after : Nat) : ℝ) ≤
      (after.size.toNat : ℝ) - before.size.toNat := by
    rw [Nat.cast_mul]
    calc (rate : ℝ) * before.daysTo after
        ≤ rate * (((after.time.toNat : ℝ) - before.time.toNat) / Pass.msPerDay) := by gcongr
      _ = rate * ((after.time.toNat : ℝ) - before.time.toNat) / Pass.msPerDay := by ring
      _ ≤ (after.size.toNat : ℝ) - before.size.toNat := hsize
  have hsum : ((rate * before.daysTo after + before.size.toNat : Nat) : ℝ) ≤ after.size.toNat := by
    rw [Nat.cast_add]
    linarith
  exact Nat.le_sub_of_add_le (Nat.cast_le.mp hsum)

/-- After passes between any two of which the directory grows by `r` a day or more, the stored
rate reaches `r` exactly if the last two passes in a row that were a day apart show so much
for their whole days, or, where there were none, if the first pass stored it already. -/
theorem growthRate_reached_iff {env : Env} {pkgName : Bytes} {states final : PackageStore}
    {steps : List CacheStep} {first : Pass} {rest : List Pass} {r : ℝ}
    (hrun : CacheRun env states steps final)
    (hpasses : List.Forall₂ (CacheStep.IsPass env pkgName) steps (first :: rest))
    (hclean : (getPackageState states pkgName).lastCleanupMs = 0)
    (hgrows : GrowsBy r (first :: rest)) :
    r ≤ ((getPackageState final pkgName).growthRateBytesPerDay.toNat : ℝ) ↔
      r ≤ 0 ∨
        match lastDayStep (first :: rest) with
        | some (before, after) =>
            ⌈r⌉₊ * before.daysTo after ≤ after.size.toNat - before.size.toNat
        | none =>
            r ≤ ((recordScan first.time first.size
              (getPackageState states pkgName)).growthRateBytesPerDay.toNat : ℝ) := by
  rcases le_or_gt r 0 with hr | hr
  · simp only [hr, true_or, iff_true]
    exact hr.trans (Nat.cast_nonneg _)
  rw [hrun.record hpasses hclean hgrows.late, List.foldl_cons,
    foldl_recordScan_growth rfl rfl (hgrows.grown hr)
      (fun pass hpass => hgrows.small pass (List.mem_cons_of_mem _ hpass))]
  cases hstep : lastDayStep (first :: rest) with
  | none => simp [hr]
  | some step =>
      obtain ⟨before, after⟩ := step
      have hday := (lastDayStep_spec hstep).2
      simp [hr, Pass.rateTo, Nat.le_div_iff_mul_le hday, ← Nat.ceil_le]

/-- A device on which twelve hours go by with a hundred observations. -/
def halfDailyDevice : Env :=
  { restingDevice with
    realtime := fun tick => { sec := 1700000000 + 432 * .ofNat tick, nsec := 0 } }

/-- The app's cache has one file, of the given size. -/
def oneFileWorld (tick : Nat) (size : UInt64) (states : PackageStore) : World where
  process.states := states
  tick := tick
  fs := FsStep.applyAll .bare [
    .mkdir [] (lit "data"),
    .mkdir [lit "data"] (lit "com.a"),
    .mkdir [lit "data", lit "com.a"] (lit "cache"),
    .create [lit "data", lit "com.a", lit "cache"] (lit "f") size]

/-- An analysis of that cache. -/
def oneFileStep (tick : Nat) (size : UInt64) (states : PackageStore) : CacheStep :=
  CacheCall.step halfDailyDevice 2 (oneFileWorld tick size states) (.analyze [emptyCache])

def oneFileStep₁ : CacheStep := oneFileStep 0 1000 ∅

def oneFileStep₂ : CacheStep := oneFileStep 100 51000 oneFileStep₁.after.process.states

def oneFileStep₃ : CacheStep := oneFileStep 200 101000 oneFileStep₂.after.process.states

def oneFilePasses : List Pass := [
  { time := 1700000000000, size := 1000 },
  { time := 1700043200000, size := 51000 },
  { time := 1700086400000, size := 101000 }]

theorem cacheRun_oneFile : CacheRun halfDailyDevice ∅ [oneFileStep₁, oneFileStep₂, oneFileStep₃]
    oneFileStep₃.after.process.states := by
  have hran₁ : oneFileStep₁.Ran halfDailyDevice := CacheCall.step_ran (by decide +kernel)
  have hran₂ : oneFileStep₂.Ran halfDailyDevice := CacheCall.step_ran (by decide +kernel)
  have hran₃ : oneFileStep₃.Ran halfDailyDevice := CacheCall.step_ran (by decide +kernel)
  have hbefore (tick size states) :
      (oneFileStep tick size states).before.process.states = states := by
    rw [oneFileStep, CacheCall.step_before, oneFileWorld]
  exact .cons (hbefore _ _ _) hran₁ (.cons (hbefore _ _ _) hran₂
    (.cons (hbefore _ _ _) hran₃ (.nil _)))

theorem isPass_oneFile : List.Forall₂ (CacheStep.IsPass halfDailyDevice (lit "com.a"))
    [oneFileStep₁, oneFileStep₂, oneFileStep₃] oneFilePasses := by
  have hpass₁ : oneFileStep₁.IsPass halfDailyDevice (lit "com.a")
      { time := 1700000000000, size := 1000 } :=
    ⟨[emptyCache], rfl, by decide +kernel, by decide +kernel⟩
  have hpass₂ : oneFileStep₂.IsPass halfDailyDevice (lit "com.a")
      { time := 1700043200000, size := 51000 } :=
    ⟨[emptyCache], rfl, by decide +kernel, by decide +kernel⟩
  have hpass₃ : oneFileStep₃.IsPass halfDailyDevice (lit "com.a")
      { time := 1700086400000, size := 101000 } :=
    ⟨[emptyCache], rfl, by decide +kernel, by decide +kernel⟩
  exact .cons hpass₁ (.cons hpass₂ (.cons hpass₃ .nil))

theorem growsBy_oneFile : GrowsBy 100000 oneFilePasses where
  time := by decide +kernel
  size := by
    simp only [oneFilePasses, Pass.msPerDay, List.pairwise_cons, List.forall_mem_cons,
      UInt64.reduceToNat]
    norm_num
  late := by decide +kernel
  small := by decide +kernel

theorem growthRate_reached_oneFile :
    (100000 : ℝ) ≤ ((getPackageState oneFileStep₃.after.process.states
        (lit "com.a")).growthRateBytesPerDay.toNat : ℝ) ↔
      (100000 : ℝ) ≤ 0 ∨
        match lastDayStep oneFilePasses with
        | some (before, after) =>
            ⌈(100000 : ℝ)⌉₊ * before.daysTo after ≤ after.size.toNat - before.size.toNat
        | none =>
            (100000 : ℝ) ≤ ((recordScan 1700000000000 1000
              (getPackageState ∅ (lit "com.a"))).growthRateBytesPerDay.toNat : ℝ) :=
  growthRate_reached_iff cacheRun_oneFile isPass_oneFile rfl growsBy_oneFile

/-- Three passes within a day, twelve hours apart, find a directory grow by 100000 bytes a day,
and nothing is stored. -/
theorem growthRate_unreached_oneFile :
    CacheRun halfDailyDevice ∅ [oneFileStep₁, oneFileStep₂, oneFileStep₃]
        oneFileStep₃.after.process.states ∧
      List.Forall₂ (CacheStep.IsPass halfDailyDevice (lit "com.a"))
        [oneFileStep₁, oneFileStep₂, oneFileStep₃] oneFilePasses ∧
      (getPackageState ∅ (lit "com.a")).lastCleanupMs = 0 ∧
      GrowsBy 100000 oneFilePasses ∧
      (∀ first ∈ oneFilePasses.head?, ∀ last ∈ oneFilePasses.getLast?,
        first.time.toNat + Pass.msPerDay ≤ last.time.toNat) ∧
      ¬ (100000 : ℝ) ≤ ((getPackageState oneFileStep₃.after.process.states
        (lit "com.a")).growthRateBytesPerDay.toNat : ℝ) := by
  refine ⟨cacheRun_oneFile, isPass_oneFile, rfl, growsBy_oneFile, by decide +kernel, ?_⟩
  have hrate : (getPackageState oneFileStep₃.after.process.states
      (lit "com.a")).growthRateBytesPerDay = 0 := by decide +kernel
  rw [hrate]
  norm_num

end FreshCore
