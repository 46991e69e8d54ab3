import FreshCore.Cache.SaveLoad

/-!
# When saving replaces the file by a whole one

The temporary file is renamed over the state file whatever the calls that wrote it
have reported, so the rename is safe exactly when none of them has lost a byte.
-/

namespace FreshCore.Cache

open Posix Imperative

/-- A call that is asked for `length` bytes leaves all of them. -/
def LosesNothing (length : Nat) (left : Option Nat) : Prop :=
  ∀ count ∈ left, length ≤ count

instance (length : Nat) (left : Option Nat) : Decidable (LosesNothing length left) := by
  unfold LosesNothing
  cases left with
  | none => exact .isTrue nofun
  | some count => exact decidable_of_iff (length ≤ count) (by simp)

theorem length_keepBytes_le (bytes : Bytes) (left : Option Nat) :
    (keepBytes bytes left).length ≤ bytes.length := by
  cases left with
  | none => exact le_refl _
  | some count => exact List.length_take_le' count bytes

theorem keepBytes_eq_self {bytes : Bytes} {left : Option Nat} :
    keepBytes bytes left = bytes ↔ LosesNothing bytes.length left := by
  cases left with
  | none => simp [keepBytes, LosesNothing]
  | some count => simp [keepBytes, LosesNothing]

theorem keepBytes_eq_of_length {bytes : Bytes} {left : Option Nat}
    (hlength : bytes.length ≤ (keepBytes bytes left).length) : keepBytes bytes left = bytes := by
  cases left with
  | none => rfl
  | some count =>
      rw [keepBytes, List.length_take] at hlength
      exact List.take_of_length_le (by omega)

/-- None of the calls on the temporary file loses a byte of a header and an image of the
given lengths. -/
structure SaveOutcome.Complete (outcome : SaveOutcome) (header image : Nat) : Prop where
  writeHeader : LosesNothing header outcome.writeHeader
  writeRecords : LosesNothing image outcome.writeRecords
  fflush : LosesNothing (header + image) outcome.fflush
  fsync : LosesNothing (header + image) outcome.fsync
  fclose : LosesNothing (header + image) outcome.fclose

theorem SaveOutcome.Complete.writeTmp {outcome : SaveOutcome} {header image : Bytes}
    (hcomplete : outcome.Complete header.length image.length) :
    writeTmp outcome header image = header ++ image := by
  have hkeep {left : Option Nat} (hleft : LosesNothing (header.length + image.length) left) :
      keepBytes (header ++ image) left = header ++ image := by
    rw [← List.length_append] at hleft
    exact keepBytes_eq_self.mpr hleft
  unfold Cache.writeTmp
  dsimp only
  rw [keepBytes_eq_self.mpr hcomplete.writeHeader, keepBytes_eq_self.mpr hcomplete.writeRecords,
    hkeep hcomplete.fflush, hkeep hcomplete.fsync, hkeep hcomplete.fclose]

/-- A temporary file of full length is complete. -/
theorem SaveOutcome.complete_of_length {outcome : SaveOutcome} {header image : Bytes}
    (hlength : header.length + image.length ≤ (Cache.writeTmp outcome header image).length) :
    outcome.Complete header.length image.length := by
  unfold Cache.writeTmp at hlength
  dsimp only at hlength
  have hheader := length_keepBytes_le header outcome.writeHeader
  have himage := length_keepBytes_le image outcome.writeRecords
  -- each call can only shorten the file, so at full length none of them does
  generalize hwritten : keepBytes header outcome.writeHeader ++
    keepBytes image outcome.writeRecords = written at hlength
  have hsum : written.length = (keepBytes header outcome.writeHeader).length +
      (keepBytes image outcome.writeRecords).length := by rw [← hwritten, List.length_append]
  have hflushed := length_keepBytes_le written outcome.fflush
  generalize hflush : keepBytes written outcome.fflush = flushed at hlength hflushed
  have hsynced := length_keepBytes_le flushed outcome.fsync
  generalize hsync : keepBytes flushed outcome.fsync = synced at hlength hsynced
  have hclosed := length_keepBytes_le synced outcome.fclose
  have hwrittenLength : written.length = header.length + image.length := by omega
  have hflushedLength : flushed.length = header.length + image.length := by omega
  have hsyncedLength : synced.length = header.length + image.length := by omega
  refine ⟨?_, ?_, ?_, ?_, ?_⟩
  · exact keepBytes_eq_self.mp (keepBytes_eq_of_length (by omega))
  · exact keepBytes_eq_self.mp (keepBytes_eq_of_length (by omega))
  · rw [← hwrittenLength]
    exact keepBytes_eq_self.mp (keepBytes_eq_of_length (by rw [hflush]; omega))
  · rw [← hflushedLength]
    exact keepBytes_eq_self.mp (keepBytes_eq_of_length (by rw [hsync]; omega))
  · rw [← hsyncedLength]
    exact keepBytes_eq_self.mp (keepBytes_eq_of_length (by omega))

/-- The file is a complete encoding of the store. -/
def Encodes (store : PackageStore) (file : Bytes) : Prop :=
  ∃ states timestamp padding,
    IterationOrder store states ∧ file = encodeStates timestamp padding states

theorem Encodes.length_eq {store : PackageStore} {file : Bytes} (h : Encodes store file) :
    file.length = headerSize + store.entries.length * recordSize := by
  obtain ⟨states, timestamp, padding, horder, rfl⟩ := h
  have hlength : states.length = store.entries.length := by
    rw [List.Perm.length_eq horder, List.length_map]
  rw [encodeStates, List.length_append, length_headerBytes, length_recordsBytes, hlength]

/-- What the state file may hold after a save of `store`. -/
def SavedAtomically (store : PackageStore) (before after : Option Bytes) : Prop :=
  after = before ∨ ∃ file, after = some file ∧ Encodes store file

end FreshCore.Cache

namespace FreshCore

open Posix Imperative Cache

variable (env : Env) (w : World)

/-- The records in the order in which a save in `w` writes them. -/
def statesToSave : List PackageState := env.iterate w.tick w.process.states

def imageToSave : Bytes := recordsBytes (env.padding w.tick) (statesToSave env w)

def headerToSave : Bytes :=
  headerBytes (saveHeader (env.realtime w.tick).ms (statesToSave env w) (imageToSave env w))

theorem encodes_toSave : Encodes w.process.states (headerToSave env w ++ imageToSave env w) :=
  ⟨statesToSave env w, _, _, env.iterate_order _ _, rfl⟩

theorem saveStateAtomic_files :
    ((saveStateAtomic env).run w).2.files =
      writeStateFiles (env.saveOutcome w.tick) (headerToSave env w) (imageToSave env w)
        w.files := by
  unfold saveStateAtomic
  dsimp only
  split <;> rfl

/-- A save leaves the old file or a complete encoding exactly when the temporary file is
not opened, not renamed, complete, or cut to just what the state file held before. -/
theorem saveStateAtomic_savedAtomically_iff :
    SavedAtomically w.process.states w.files.current
        ((saveStateAtomic env).run w).2.files.current ↔
      (env.saveOutcome w.tick).opens = false ∨ (env.saveOutcome w.tick).renames = false ∨
        (env.saveOutcome w.tick).Complete headerSize
          (w.process.states.entries.length * recordSize) ∨
        w.files.current = some
          (writeTmp (env.saveOutcome w.tick) (headerToSave env w) (imageToSave env w)) := by
  have hencodes := encodes_toSave env w
  have hheader : (headerToSave env w).length = headerSize := length_headerBytes _
  have himage : (imageToSave env w).length =
      w.process.states.entries.length * recordSize := by
    have htotal := hencodes.length_eq
    rw [List.length_append, hheader] at htotal
    omega
  rw [saveStateAtomic_files, ← hheader, ← himage]
  generalize env.saveOutcome w.tick = outcome
  unfold writeStateFiles
  by_cases hopens : outcome.opens
  swap
  · simp [hopens, SavedAtomically]
  by_cases hrenames : outcome.renames
  swap
  · simp [hopens, hrenames, SavedAtomically]
  simp only [hopens, hrenames, Bool.not_true, Bool.false_eq_true, if_false, if_true, false_or,
    Bool.true_eq_false, SavedAtomically]
  constructor
  · rintro (hsame | ⟨file, hfile, hwhole⟩)
    · exact Or.inr hsame.symm
    · left
      apply SaveOutcome.complete_of_length
      rw [Option.some.inj hfile, hwhole.length_eq, hheader, himage]
  · rintro (hcomplete | hsame)
    · exact Or.inr ⟨_, congrArg some hcomplete.writeTmp, hencodes⟩
    · exact Or.inl hsame.symm

/-- A device whose disk is full while the records are written. -/
def fullDisk : Env :=
  { restingDevice with saveOutcome := fun _ => { writeRecords := some 0 } }

/-- One record in memory, and in the state file from before. -/
def oneRecordSaved : World where
  process.states := updatePackageState ∅ (lit "com.a") { hash := hashPackageName (lit "com.a") }
  fs := .bare
  files.current := some (encodeStates 0 (fun _ => 0) [{ hash := hashPackageName (lit "com.a") }])

/-- On a full disk the good file is replaced by a bare header. -/
theorem saveStateAtomic_fullDisk :
    ¬ SavedAtomically oneRecordSaved.process.states oneRecordSaved.files.current
      ((saveStateAtomic fullDisk).run oneRecordSaved).2.files.current := by
  rintro (hsame | ⟨file, hfile, hwhole⟩)
  · revert hsame
    decide +kernel
  · have hlength := hwhole.length_eq
    have hshort : (((saveStateAtomic fullDisk).run oneRecordSaved).2.files.current).map
        List.length = some headerSize := by decide +kernel
    rw [hfile, Option.map_some, hlength] at hshort
    revert hshort
    decide +kernel

end FreshCore
