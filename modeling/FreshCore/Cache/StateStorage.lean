import Mathlib.Data.List.AList
import FreshCore.Posix.Path
import FreshCore.Octets.LittleEndian

/-!
# Package records and the state file

The records of all packages are kept in one map under the hash of the package
name, and written to one file: a header of 24 bytes and then a record of 40 bytes
for each entry, in whatever order the map is iterated. Four bytes of each record
are struct padding and can hold anything.
-/

namespace FreshCore.Cache

open Posix Octets

structure PackageState where
  hash : UInt32
  lastScanMs : UInt64 := 0
  lastCleanupMs : UInt64 := 0
  lastSizeBytes : UInt64 := 0
  cleanupCount : UInt32 := 0
  growthRateBytesPerDay : UInt32 := 0
  deriving DecidableEq, Repr

/-- `g_states` -/
abbrev PackageStore := AList fun _ : UInt32 => PackageState

/-- Two stores hold the same records under the same keys. -/
def SameRecords (store store' : PackageStore) : Prop :=
  ∀ hash, store'.lookup hash = store.lookup hash

/-- FNV-1a on 32 bits. -/
def hashPackageName (pkgName : Bytes) : UInt32 :=
  pkgName.foldl (fun hash byte => (hash ^^^ byte.toUInt32) * 16777619) 2166136261

def getPackageState (store : PackageStore) (pkgName : Bytes) : PackageState :=
  let hash := hashPackageName pkgName
  (store.lookup hash).getD { hash }

def updatePackageState (store : PackageStore) (pkgName : Bytes) (state : PackageState) :
    PackageStore :=
  store.insert (hashPackageName pkgName) state

/-! ## The file format -/

def stateMagic : UInt32 := 0x46525348

def stateVersion : UInt32 := 1

structure StateHeader where
  magic : UInt32
  version : UInt32
  timestamp : UInt64
  entryCount : UInt32
  checksum : UInt32
  deriving DecidableEq, Repr

/-- `sizeof(StateHeader)` -/
def headerSize : Nat := 24

/-- `sizeof(PackageState)` -/
def recordSize : Nat := 40

def headerBytes (header : StateHeader) : Bytes :=
  le32 header.magic ++ le32 header.version ++ le64 header.timestamp ++
    le32 header.entryCount ++ le32 header.checksum

def readHeader (bytes : Bytes) : StateHeader where
  magic := read32 (slice bytes 0 4)
  version := read32 (slice bytes 4 4)
  timestamp := read64 (slice bytes 8 8)
  entryCount := read32 (slice bytes 16 4)
  checksum := read32 (slice bytes 20 4)

/-- The memory image of a record, with the given padding behind the hash. -/
def recordBytes (padding : UInt32) (state : PackageState) : Bytes :=
  le32 state.hash ++ le32 padding ++ le64 state.lastScanMs ++ le64 state.lastCleanupMs ++
    le64 state.lastSizeBytes ++ le32 state.cleanupCount ++ le32 state.growthRateBytesPerDay

def readRecord (bytes : Bytes) : PackageState where
  hash := read32 (slice bytes 0 4)
  lastScanMs := read64 (slice bytes 8 8)
  lastCleanupMs := read64 (slice bytes 16 8)
  lastSizeBytes := read64 (slice bytes 24 8)
  cleanupCount := read32 (slice bytes 32 4)
  growthRateBytesPerDay := read32 (slice bytes 36 4)

/-- The memory image of a vector of records; the padding of each is its own. -/
def recordsBytes (padding : Nat → UInt32) : List PackageState → Bytes
  | [] => []
  | state :: rest => recordBytes (padding 0) state ++ recordsBytes (fun i => padding (i + 1)) rest

def readRecords : Nat → Bytes → List PackageState
  | 0, _ => []
  | count + 1, bytes => readRecord bytes :: readRecords count (bytes.drop recordSize)

/-- `CalculateChecksum` on the memory image of the vector. -/
def calculateChecksum (image : Bytes) : UInt32 :=
  image.foldl (fun sum byte => sum + byte.toUInt32) 0

/-- What `InitializeStateStorage` reads from a file; `none` stands for each of its early
returns. -/
def readStateFile (file : Bytes) : Option (List PackageState) :=
  if file.length < headerSize then none
  else
    let header := readHeader file
    if header.magic ≠ stateMagic ∨ header.version ≠ stateVersion then none
    else
      let size := header.entryCount.toNat * recordSize
      let image := (file.drop headerSize).take size
      if image.length < size then none
      else if calculateChecksum image ≠ header.checksum then none
      else some (readRecords header.entryCount.toNat image)

/-- The assignments `g_states[st.hash] = st`. -/
def storeRecords (store : PackageStore) (states : List PackageState) : PackageStore :=
  states.foldl (fun store state => store.insert state.hash state) store

/-- `InitializeStateStorage` on the contents of the state file; `none` is a file that
does not open. -/
def initializeStateStorage (store : PackageStore) (file : Option Bytes) : PackageStore :=
  match file.bind readStateFile with
  | none => store
  | some loaded => storeRecords store loaded

/-- The values of the map, in the order of its iteration. -/
def IterationOrder (store : PackageStore) (states : List PackageState) : Prop :=
  states.Perm (store.entries.map Sigma.snd)

/-- The header `SaveStateAtomic` puts in front of the records. -/
def saveHeader (timestamp : UInt64) (states : List PackageState) (image : Bytes) :
    StateHeader where
  magic := stateMagic
  version := stateVersion
  timestamp := timestamp
  entryCount := .ofNat states.length
  checksum := calculateChecksum image

/-- The complete encoding of the records. -/
def encodeStates (timestamp : UInt64) (padding : Nat → UInt32) (states : List PackageState) :
    Bytes :=
  let image := recordsBytes padding states
  headerBytes (saveHeader timestamp states image) ++ image

/-! ## Writing the file -/

/-- The contents of the state file and of the temporary one, if they exist. -/
structure StateFiles where
  current : Option Bytes := none
  tmp : Option Bytes := none
  deriving DecidableEq, Repr

/-- How the system answers the calls of one save. A call that reports an error, or an
`fwrite` that comes back short, leaves only so many bytes there. -/
structure SaveOutcome where
  opens : Bool := true
  writeHeader : Option Nat := none
  writeRecords : Option Nat := none
  fflush : Option Nat := none
  fsync : Option Nat := none
  fclose : Option Nat := none
  renames : Bool := true
  deriving DecidableEq, Repr

/-- The bytes that are left after a call that succeeded, or did not. -/
def keepBytes (bytes : Bytes) : Option Nat → Bytes
  | none => bytes
  | some count => bytes.take count

/-- What reaches the temporary file once it is open. -/
def writeTmp (outcome : SaveOutcome) (header image : Bytes) : Bytes :=
  let written := keepBytes header outcome.writeHeader ++ keepBytes image outcome.writeRecords
  keepBytes (keepBytes (keepBytes written outcome.fflush) outcome.fsync) outcome.fclose

/-- The I/O of `SaveStateAtomic`: of the calls on the temporary file only `fopen` is
looked at. -/
def writeStateFiles (outcome : SaveOutcome) (header image : Bytes) (files : StateFiles) :
    StateFiles :=
  if !outcome.opens then files
  else
    let tmp := writeTmp outcome header image
    if outcome.renames then { current := some tmp, tmp := none }
    else { files with tmp := some tmp }

end FreshCore.Cache
