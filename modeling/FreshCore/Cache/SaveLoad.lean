import FreshCore.Cache.CacheCleaner

/-!
# Saving and loading the records

Every store the daemon can hold keeps each record under the hash it carries, so
the file needs no keys: what is saved, in any order and with any padding, is
loaded back as the same map.
-/

namespace FreshCore.Cache

open Posix Octets

/-! ## Records and headers -/

@[simp] theorem length_recordBytes (padding : UInt32) (state : PackageState) :
    (recordBytes padding state).length = recordSize := by
  simp [recordBytes, recordSize]

@[simp] theorem length_headerBytes (header : StateHeader) :
    (headerBytes header).length = headerSize := by
  simp [headerBytes, headerSize]

theorem readRecord_recordBytes (padding : UInt32) (state : PackageState) (back : Bytes) :
    readRecord (recordBytes padding state ++ back) = state := by
  simp [readRecord, recordBytes, slice, List.drop_append, List.drop_of_length_le]

theorem readHeader_headerBytes (header : StateHeader) (back : Bytes) :
    readHeader (headerBytes header ++ back) = header := by
  simp [readHeader, headerBytes, slice, List.drop_append, List.drop_of_length_le]

theorem length_recordsBytes (padding : Nat → UInt32) (states : List PackageState) :
    (recordsBytes padding states).length = states.length * recordSize := by
  induction states generalizing padding with
  | nil => rw [recordsBytes, List.length_nil, List.length_nil, Nat.zero_mul]
  | cons state rest ih =>
      rw [recordsBytes, List.length_append, length_recordBytes, ih, List.length_cons,
        Nat.succ_mul, Nat.add_comm]

/-- Records are read back one after the other, whatever their padding holds. -/
theorem readRecords_recordsBytes (padding : Nat → UInt32) (states : List PackageState) :
    readRecords states.length (recordsBytes padding states) = states := by
  induction states generalizing padding with
  | nil => rfl
  | cons state rest ih =>
      have hdrop : (recordsBytes padding (state :: rest)).drop recordSize =
          recordsBytes (fun i => padding (i + 1)) rest := by
        rw [recordsBytes, List.drop_left' (length_recordBytes _ _)]
      rw [List.length_cons, readRecords, hdrop, ih, recordsBytes, readRecord_recordBytes]

/-- A file with a complete encoding is accepted, and yields the records in their order. -/
theorem readStateFile_encodeStates (timestamp : UInt64) (padding : Nat → UInt32)
    {states : List PackageState} (hcount : states.length < 2 ^ 32) :
    readStateFile (encodeStates timestamp padding states) = some states := by
  have hentries : (UInt32.ofNat states.length).toNat = states.length :=
    UInt32.toNat_ofNat_of_lt' hcount
  have himage := length_recordsBytes padding states
  have hdrop : (encodeStates timestamp padding states).drop headerSize =
      recordsBytes padding states := List.drop_left' (length_headerBytes _)
  have htake : (recordsBytes padding states).take (states.length * recordSize) =
      recordsBytes padding states := List.take_of_length_le (le_of_eq himage)
  have hlength : ¬ (encodeStates timestamp padding states).length < headerSize := by
    simp [encodeStates]
  have hheader : readHeader (encodeStates timestamp padding states) =
      saveHeader timestamp states (recordsBytes padding states) := readHeader_headerBytes _ _
  rw [readStateFile, if_neg hlength, hheader, hdrop]
  simp only [saveHeader, hentries, htake, himage, lt_irrefl, ne_eq, not_true_eq_false, or_self,
    if_false, readRecords_recordsBytes]

/-! ## Keys and hashes -/

/-- Every record is kept under the hash it carries. -/
def KeyedByHash (store : PackageStore) : Prop :=
  ∀ hash state, store.lookup hash = some state → state.hash = hash

theorem keyedByHash_empty : KeyedByHash ∅ := by
  intro hash state hlookup
  rw [AList.lookup_empty] at hlookup
  cases hlookup

theorem KeyedByHash.insert {store : PackageStore} (hkeyed : KeyedByHash store)
    (state : PackageState) : KeyedByHash (store.insert state.hash state) := by
  intro hash other hlookup
  by_cases heq : hash = state.hash
  · rw [heq, AList.lookup_insert] at hlookup
    cases hlookup
    exact heq.symm
  · rw [AList.lookup_insert_ne heq] at hlookup
    exact hkeyed hash other hlookup

theorem KeyedByHash.storeRecords {store : PackageStore} (hkeyed : KeyedByHash store)
    (states : List PackageState) : KeyedByHash (storeRecords store states) := by
  induction states generalizing store with
  | nil => exact hkeyed
  | cons state rest ih => exact ih (hkeyed.insert state)

theorem KeyedByHash.load {store : PackageStore} (hkeyed : KeyedByHash store)
    (file : Option Bytes) : KeyedByHash (initializeStateStorage store file) := by
  unfold initializeStateStorage
  split
  · exact hkeyed
  · exact hkeyed.storeRecords _

theorem KeyedByHash.getPackageState_hash {store : PackageStore} (hkeyed : KeyedByHash store)
    (pkgName : Bytes) : (getPackageState store pkgName).hash = hashPackageName pkgName := by
  unfold getPackageState
  dsimp only
  rcases hlookup : store.lookup (hashPackageName pkgName) with _ | state
  · rfl
  · exact hkeyed _ state hlookup

theorem KeyedByHash.update {store : PackageStore} (hkeyed : KeyedByHash store)
    {pkgName : Bytes} {state : PackageState} (hhash : state.hash = hashPackageName pkgName) :
    KeyedByHash (updatePackageState store pkgName state) := by
  rw [updatePackageState, ← hhash]
  exact hkeyed.insert state

/-- A modification of a record that leaves its hash field alone. -/
def KeepsHash (modify : PackageState → PackageState) : Prop :=
  ∀ state, (modify state).hash = state.hash

theorem recordScan_keepsHash (now size : UInt64) : KeepsHash (recordScan now size) :=
  fun _ => rfl

theorem recordCleanup_keepsHash (now : UInt64) : KeepsHash (recordCleanup now) :=
  fun _ => rfl

/-- The stores that loading and get-modify-update steps lead to. -/
inductive Reachable : PackageStore → Prop
  | empty : Reachable ∅
  | load {store : PackageStore} (file : Option Bytes) :
      Reachable store → Reachable (initializeStateStorage store file)
  | update {store : PackageStore} (pkgName : Bytes) {modify : PackageState → PackageState} :
      KeepsHash modify → Reachable store →
      Reachable (updatePackageState store pkgName (modify (getPackageState store pkgName)))

theorem Reachable.keyedByHash {store : PackageStore} (hreach : Reachable store) :
    KeyedByHash store := by
  induction hreach with
  | empty => exact keyedByHash_empty
  | load file _ ih => exact ih.load file
  | update pkgName hmodify _ ih =>
      exact ih.update ((hmodify _).trans (ih.getPackageState_hash pkgName))

/-! ## The round trip -/

/-- Storing records with distinct hashes puts each of them under its hash and leaves the
other keys as they were. -/
theorem lookup_storeRecords {store : PackageStore} {states : List PackageState}
    (hnodup : (states.map PackageState.hash).Nodup) (hash : UInt32) (state : PackageState) :
    (storeRecords store states).lookup hash = some state ↔
      (state ∈ states ∧ state.hash = hash) ∨
        (hash ∉ states.map PackageState.hash ∧ store.lookup hash = some state) := by
  induction states generalizing store with
  | nil => simp [storeRecords]
  | cons first rest ih =>
      rw [List.map_cons, List.nodup_cons] at hnodup
      have hstep : storeRecords store (first :: rest) =
          storeRecords (store.insert first.hash first) rest := rfl
      rw [hstep, ih hnodup.2]
      -- a later record would replace this one, but its hash is another one
      by_cases heq : hash = first.hash
      · have hrest : ¬ (state ∈ rest ∧ state.hash = hash) := by
          rintro ⟨hmem, hhash⟩
          exact hnodup.1 (heq ▸ hhash ▸ List.mem_map_of_mem hmem)
        rw [heq] at hrest ⊢
        simp only [AList.lookup_insert, hnodup.1, not_false_eq_true, true_and, Option.some.injEq,
          List.mem_cons, List.map_cons, not_true_eq_false, false_and, or_false, hrest, false_or]
        constructor
        · rintro rfl
          exact ⟨Or.inl rfl, rfl⟩
        · rintro ⟨rfl | hmem, hhash⟩
          · rfl
          · exact absurd ⟨hmem, hhash⟩ hrest
      · simp only [AList.lookup_insert_ne heq, List.mem_cons, List.map_cons, heq, false_or]
        refine or_congr_left ⟨fun h => ⟨Or.inr h.1, h.2⟩, ?_⟩
        rintro ⟨rfl | hmem, hhash⟩
        · exact absurd hhash.symm heq
        · exact ⟨hmem, hhash⟩

/-- In any order of iteration, the records are the values of the map. -/
theorem IterationOrder.mem_states {store : PackageStore} {states : List PackageState}
    (horder : IterationOrder store states) (hkeyed : KeyedByHash store) (state : PackageState) :
    state ∈ states ↔ store.lookup state.hash = some state := by
  rw [List.Perm.mem_iff horder, List.mem_map]
  constructor
  · rintro ⟨⟨hash, value⟩, hmem, rfl⟩
    have hlookup := AList.mem_lookup_iff.mpr hmem
    rwa [hkeyed hash value hlookup]
  · intro hlookup
    exact ⟨⟨state.hash, state⟩, AList.mem_lookup_iff.mp hlookup, rfl⟩

theorem IterationOrder.nodup_hashes {store : PackageStore} {states : List PackageState}
    (horder : IterationOrder store states) (hkeyed : KeyedByHash store) :
    (states.map PackageState.hash).Nodup := by
  rw [(horder.map PackageState.hash).nodup_iff, List.map_map]
  have hkeys : store.entries.map (PackageState.hash ∘ Sigma.snd) = store.entries.map Sigma.fst := by
    apply List.map_congr_left
    rintro ⟨hash, state⟩ hmem
    exact hkeyed hash state (AList.mem_lookup_iff.mpr hmem)
  rw [hkeys]
  exact store.nodupKeys

theorem storeRecords_sameRecords {store : PackageStore} {states : List PackageState}
    (hkeyed : KeyedByHash store) (horder : IterationOrder store states) :
    SameRecords store (storeRecords ∅ states) := by
  intro hash
  ext state
  rw [lookup_storeRecords (horder.nodup_hashes hkeyed), AList.lookup_empty,
    horder.mem_states hkeyed]
  constructor
  · rintro (⟨hlookup, rfl⟩ | ⟨_, hnone⟩)
    · exact hlookup
    · cases hnone
  · intro hlookup
    have hhash := hkeyed hash state hlookup
    exact Or.inl ⟨hhash ▸ hlookup, hhash⟩

/-- A package that was scanned and another one that was cleaned. -/
def twoPackages : PackageStore :=
  let scanned := updatePackageState ∅ (lit "com.a")
    (recordScan 7 5 (getPackageState ∅ (lit "com.a")))
  updatePackageState scanned (lit "com.b")
    (recordCleanup 9 (getPackageState scanned (lit "com.b")))

theorem twoPackages_reachable : Reachable twoPackages :=
  .update _ (recordCleanup_keepsHash 9) (.update _ (recordScan_keepsHash 7 5) .empty)

end FreshCore.Cache
