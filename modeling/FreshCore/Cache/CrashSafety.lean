import FreshCore.Cache.SaveAtomic
import FreshCore.Posix.Disk

/-!
# The state file when the power goes

A save writes the temporary file, synchronises it and renames it. If none of these calls
reports an error, the power may go at any of them, in any save: what the state file holds
afterwards was there before, or is the whole of what one of the saves wrote.
-/

namespace FreshCore.Cache

open Posix Imperative

/-- `STATE_FILE` and `STATE_FILE_TMP` -/
inductive StateName where
  | current
  | tmp
  deriving DecidableEq, Repr

abbrev StateDisk := Disk StateName Bytes

/-- The contents of the two files. -/
def filesOf (disk : StateDisk) : StateFiles where
  current := disk.read .current
  tmp := disk.read .tmp

/-- The calls of a save on the temporary file. Whether bytes leave the buffers earlier makes no
difference to what is found after `fsync`, and before it anything may be found. -/
def tmpSteps (outcome : SaveOutcome) (header image : Bytes) : List (DiskStep StateName Bytes) :=
  let head := keepBytes header outcome.writeHeader
  let written := head ++ keepBytes image outcome.writeRecords
  let flushed := keepBytes written outcome.fflush
  let synced := keepBytes flushed outcome.fsync
  [.create .tmp [], .write .tmp head, .write .tmp written, .write .tmp flushed] ++
    (if outcome.fsync = none then [.sync .tmp] else [.write .tmp synced]) ++
    if outcome.fclose = none then [] else [.write .tmp (keepBytes synced outcome.fclose)]

/-- The calls of `SaveStateAtomic`. -/
def saveSteps (outcome : SaveOutcome) (header image : Bytes) : List (DiskStep StateName Bytes) :=
  if !outcome.opens then []
  else if outcome.renames then tmpSteps outcome header image ++ [.rename .tmp .current]
  else tmpSteps outcome header image

/-- `fsync` and `fclose` report no error. -/
def SaveOutcome.isSynced (outcome : SaveOutcome) : Bool :=
  outcome.fsync = none && outcome.fclose = none

theorem tmpSteps_prepare (outcome : SaveOutcome) (header image : Bytes) :
    ∀ step ∈ tmpSteps outcome header image, step.Prepares .tmp := by
  unfold tmpSteps
  split <;> split <;> simp [DiskStep.Prepares]

/-- The temporary file as it is renamed. -/
theorem tmpSteps_prepared {disk : StateDisk}
    (hapart : ∀ i, disk.names .tmp = some i → disk.names .current ≠ some i)
    (outcome : SaveOutcome) (header image : Bytes) :
    Disk.Prepared .tmp .current (disk.read .current)
      ⟨writeTmp outcome header image, outcome.isSynced⟩
      (disk.run (tmpSteps outcome header image)) := by
  have hcreated : Disk.Prepared .tmp .current (disk.read .current) ⟨[], false⟩
      (disk.apply (.create .tmp [])) := .create (by decide) hapart []
  let overwrite (contents : Bytes) : Inode Bytes → Inode Bytes := fun _ => ⟨contents, false⟩
  let synchronise : Inode Bytes → Inode Bytes := fun inode => { inode with synced := true }
  let head := keepBytes header outcome.writeHeader
  let written := head ++ keepBytes image outcome.writeRecords
  let flushed := keepBytes written outcome.fflush
  have hflushed := ((hcreated.modify (overwrite head)).modify (overwrite written)).modify
    (overwrite flushed)
  unfold tmpSteps writeTmp SaveOutcome.isSynced
  cases hfsync : outcome.fsync with
  | none =>
      have hsynced := hflushed.modify synchronise
      cases hfclose : outcome.fclose with
      | none => exact hsynced
      | some count => exact hsynced.modify (overwrite (keepBytes flushed (some count)))
  | some left =>
      have hshort := hflushed.modify (overwrite (keepBytes flushed (some left)))
      cases hfclose : outcome.fclose with
      | none => exact hshort
      | some count =>
          exact hshort.modify (overwrite (keepBytes (keepBytes flushed (some left)) (some count)))

/-- A save that is not cut off leaves the files as its I/O is described. -/
theorem run_saveSteps {disk : StateDisk}
    (hapart : ∀ i, disk.names .tmp = some i → disk.names .current ≠ some i)
    (outcome : SaveOutcome) (header image : Bytes) :
    filesOf (disk.run (saveSteps outcome header image)) =
      writeStateFiles outcome header image (filesOf disk) := by
  have hprepared := tmpSteps_prepared hapart outcome header image
  unfold saveSteps writeStateFiles
  split
  · rfl
  · split
    · obtain ⟨hcurrent, htmp⟩ := hprepared.rename (by decide)
      rw [Disk.run_append, Disk.run_single, filesOf, hcurrent, htmp]
    · rw [filesOf, hprepared.dst, hprepared.read_tmp]
      rfl

/-! ## Lives of the system -/

/-- One call of `SaveStateAtomic`: the bytes it writes, the records they stand for, and how the
system answers. -/
structure Save where
  store : PackageStore
  header : Bytes
  image : Bytes
  encodes : Encodes store (header ++ image)
  outcome : SaveOutcome

namespace Save

def steps (save : Save) : List (DiskStep StateName Bytes) :=
  saveSteps save.outcome save.header save.image

/-- No call on a temporary file that is renamed later reports an error. -/
def IsSound (save : Save) : Prop :=
  save.outcome.opens = true → save.outcome.renames = true →
    save.outcome = { opens := true, renames := true }

end Save

/-- The power goes when the saves have come so far, and the system comes up again on what the
disk holds then. -/
structure Life where
  before : StateDisk
  saves : List Save
  cut : Nat
  after : StateDisk

/-- Lives of the system, each on the disk the one before it has left. -/
inductive Lives : StateDisk → List Life → Prop
  | nil (disk : StateDisk) : Lives disk []
  | cons {life : Life} {rest : List Life} :
      (life.before.run ((life.saves.flatMap Save.steps).take life.cut)).Crashes life.after →
      Lives life.after rest → Lives life.before (life :: rest)

/-- The state file holds what it held before, or all of what one of the saves wrote, and then
loading it brings back the records of that save. -/
def Survives (life : Life) : Prop :=
  life.after.read .current = life.before.read .current ∨
    ∃ save ∈ life.saves, life.after.read .current = some (save.header ++ save.image) ∧
      SameRecords save.store (initializeStateStorage ∅ (life.after.read .current))

theorem Encodes.load {store : PackageStore} {file : Bytes} (h : Encodes store file)
    (hkeyed : KeyedByHash store) (hcount : store.entries.length < 2 ^ 32) :
    SameRecords store (initializeStateStorage ∅ (some file)) := by
  obtain ⟨states, timestamp, padding, horder, rfl⟩ := h
  have hlength : states.length < 2 ^ 32 := by
    rwa [List.Perm.length_eq horder, List.length_map]
  have hread := readStateFile_encodeStates timestamp padding hlength
  have hload : initializeStateStorage ∅ (some (encodeStates timestamp padding states)) =
      storeRecords ∅ states := by
    rw [initializeStateStorage, Option.bind_some, hread]
  rw [hload]
  exact storeRecords_sameRecords hkeyed horder

section Safe

variable {disk : StateDisk} {Found : Option Bytes → Prop}

/-- A sound save is safe wherever it is cut off. -/
theorem Save.IsSound.safe {save : Save} (hsound : save.IsSound)
    (hfound : Found (some (save.header ++ save.image)))
    (h : Disk.Safe .tmp .current Found disk) (cut : Nat) :
    Disk.Safe .tmp .current Found (disk.run (save.steps.take cut)) := by
  have hprepare := tmpSteps_prepare save.outcome save.header save.image
  unfold Save.steps saveSteps
  split
  · rw [List.take_nil]
    exact h
  next hopens =>
    split
    next hrenames =>
      apply h.replace (by decide) hprepare
      -- by the time of the rename all bytes are there and on the disk
      obtain ⟨⟨i, hi, _, hinode⟩, _⟩ := tmpSteps_prepared (h.apart _ (.head _))
        save.outcome save.header save.image
      have houtcome := hsound (by simpa using hopens) hrenames
      have hwhole : writeTmp save.outcome save.header save.image = save.header ++ save.image := by
        rw [houtcome]
        rfl
      have hsynced : save.outcome.isSynced = true := by
        rw [houtcome]
        rfl
      intro j hj
      obtain rfl : i = j := Option.some.inj (hi.symm.trans hj)
      rw [hinode, hwhole, hsynced]
      exact ⟨rfl, hfound⟩
    · exact h.prepare (by decide) fun step hstep => hprepare step (List.mem_of_mem_take hstep)

theorem saves_safe {saves : List Save} (hsound : ∀ save ∈ saves, save.IsSound)
    (hfound : ∀ save ∈ saves, Found (some (save.header ++ save.image)))
    (h : Disk.Safe .tmp .current Found disk) (cut : Nat) :
    Disk.Safe .tmp .current Found (disk.run ((saves.flatMap Save.steps).take cut)) := by
  induction saves generalizing disk cut with
  | nil =>
      rw [List.flatMap_nil, List.take_nil]
      exact h
  | cons save rest ih =>
      rw [List.flatMap_cons, List.take_append, Disk.run_append]
      apply ih (fun other hother => hsound other (.tail _ hother))
        (fun other hother => hfound other (.tail _ hother))
      exact (hsound save (.head _)).safe (hfound save (.head _)) h cut

end Safe

/-- Whenever the power goes, and however often, the state file survives: no record that a save
has put there is lost to a save that was cut off. -/
theorem lives_survive {disk : StateDisk} {lives : List Life} (hlives : Lives disk lives)
    (hsettled : disk.Settled .tmp .current)
    (hsaves : ∀ life ∈ lives, ∀ save ∈ life.saves,
      save.IsSound ∧ Reachable save.store ∧ save.store.entries.length < 2 ^ 32) :
    ∀ life ∈ lives, Survives life := by
  induction hlives with
  | nil => simp
  | @cons life rest hcrash _ ih =>
      have hown := hsaves life (.head _)
      let Found (found : Option Bytes) : Prop := found = life.before.read .current ∨
        ∃ save ∈ life.saves, found = some (save.header ++ save.image)
      have hstart : Disk.Safe .tmp .current Found life.before :=
        (Disk.Safe.of_settled hsettled).mono fun _ hfound => Or.inl hfound
      have hend := saves_safe (fun save hsave => (hown save hsave).1)
        (fun save hsave => Or.inr ⟨save, hsave, rfl⟩) hstart life.cut
      obtain ⟨hfound, hsettled'⟩ := hend.crash hcrash
      intro other hother
      rcases List.mem_cons.mp hother with rfl | hrest
      · rcases hfound with hsame | ⟨save, hsave, hwhole⟩
        · exact Or.inl hsame
        · obtain ⟨_, hreach, hcount⟩ := hown save hsave
          refine Or.inr ⟨save, hsave, hwhole, ?_⟩
          rw [hwhole]
          exact save.encodes.load hreach.keyedByHash hcount
      · exact ih hsettled' (fun life hlife => hsaves life (.tail _ hlife)) other hrest

end FreshCore.Cache

namespace FreshCore

open Posix Imperative Cache

/-- The save that a call in `w` makes. -/
def saveOf (env : Env) (w : World) : Save where
  store := w.process.states
  header := headerToSave env w
  image := imageToSave env w
  encodes := encodes_toSave env w
  outcome := env.saveOutcome w.tick

/-- A call that is not cut off does to the files what its steps do to the disk. -/
theorem saveStateAtomic_disk (env : Env) {w : World} {disk : StateDisk}
    (hapart : ∀ i, disk.names .tmp = some i → disk.names .current ≠ some i)
    (hfiles : w.files = filesOf disk) :
    ((saveStateAtomic env).run w).2.files = filesOf (disk.run (saveOf env w).steps) := by
  rw [saveStateAtomic_files, hfiles]
  exact (run_saveSteps hapart _ _ _).symm

/-- A disk without the two files. -/
def emptyDisk : StateDisk where
  inode _ := ⟨[], true⟩
  names _ := none
  fresh := 0
  names_lt := by simp

def oneRecordSave : Save := saveOf restingDevice oneRecordSaved

/-- The power goes in the second of two saves. -/
def interruptedLife : Life where
  before := emptyDisk
  saves := [oneRecordSave, oneRecordSave]
  cut := 9
  after := (emptyDisk.run (([oneRecordSave, oneRecordSave].flatMap Save.steps).take 9)).settle

theorem lives_survive_interruptedLife : Survives interruptedLife := by
  have hlives : Lives emptyDisk [interruptedLife] :=
    @Lives.cons interruptedLife [] (Disk.crashes_settle _) (.nil _)
  have hsettled : emptyDisk.Settled .tmp .current := ⟨rfl, fun _ => rfl, nofun⟩
  have hkeeps : KeepsHash id := fun _ => rfl
  have hreach : Reachable oneRecordSave.store := .update (lit "com.a") hkeeps .empty
  have hown : oneRecordSave.IsSound ∧ Reachable oneRecordSave.store ∧
      oneRecordSave.store.entries.length < 2 ^ 32 := ⟨fun _ _ => rfl, hreach, by decide⟩
  apply lives_survive hlives hsettled _ _ (.head _)
  intro life hlife save hsave
  obtain rfl := List.mem_singleton.mp hlife
  have hsame : save = oneRecordSave := by simpa [interruptedLife] using hsave
  rw [hsame]
  exact hown

end FreshCore
