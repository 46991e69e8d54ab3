import FreshCore.Cache.SaveAtomic

/-!
# Damaged state files

A file is loaded only if the magic, the version and the sum of the payload bytes are as
they were written, and only after all of it has been read. One byte more or less, or
any number of bytes gone to zero, changes a sum of that few bytes.
-/

namespace FreshCore.Cache

open Posix Octets

/-! ## The checksum -/

/-- The sum behind the checksum, before it is cut to 32 bits. -/
def byteSum (image : Bytes) : Nat := (image.map UInt8.toNat).sum

theorem byteSum_cons (byte : UInt8) (rest : Bytes) :
    byteSum (byte :: rest) = byte.toNat + byteSum rest := by
  simp [byteSum]

theorem calculateChecksum_toNat (image : Bytes) :
    (calculateChecksum image).toNat = byteSum image % 2 ^ 32 := by
  have hfold (sum : UInt32) : (image.foldl (fun sum byte => sum + byte.toUInt32) sum).toNat =
      (sum.toNat + byteSum image) % 2 ^ 32 := by
    induction image generalizing sum with
    | nil => simp [byteSum, Nat.mod_eq_of_lt sum.toNat_lt]
    | cons byte rest ih =>
        rw [List.foldl_cons, ih, UInt32.toNat_add, UInt8.toNat_toUInt32, Nat.mod_add_mod,
          Nat.add_assoc]
        rw [byteSum_cons]
  rw [calculateChecksum, hfold]
  simp

theorem byteSum_le (image : Bytes) : byteSum image ≤ image.length * 255 := by
  induction image with
  | nil => simp [byteSum]
  | cons byte rest ih =>
      have hbyte : byte.toNat < 256 := byte.toNat_lt
      rw [byteSum_cons, List.length_cons]
      omega

/-- Sums below the modulus are told apart. -/
theorem calculateChecksum_ne {image image' : Bytes} (hne : byteSum image ≠ byteSum image')
    (hlt : image.length * 255 < 2 ^ 32) (hlt' : image'.length * 255 < 2 ^ 32) :
    calculateChecksum image ≠ calculateChecksum image' := by
  intro heq
  have hnat := congrArg UInt32.toNat heq
  have hle := byteSum_le image
  have hle' := byteSum_le image'
  rw [calculateChecksum_toNat, calculateChecksum_toNat, Nat.mod_eq_of_lt (by omega),
    Nat.mod_eq_of_lt (by omega)] at hnat
  exact hne hnat

theorem byteSum_set {image : Bytes} {index : Nat} {byte old : UInt8}
    (hold : image[index]? = some old) :
    byteSum (image.set index byte) + old.toNat = byteSum image + byte.toNat := by
  induction image generalizing index with
  | nil => cases hold
  | cons first rest ih =>
      cases index with
      | zero =>
          rw [List.getElem?_cons_zero, Option.some.injEq] at hold
          rw [List.set_cons_zero, byteSum_cons, byteSum_cons, hold]
          omega
      | succ index =>
          rw [List.getElem?_cons_succ] at hold
          have hrest := ih hold
          rw [List.set_cons_succ, byteSum_cons, byteSum_cons]
          omega

/-- The bytes with those at the given positions overwritten with zero. -/
def zeroBytes (which : Nat → Bool) (image : Bytes) : Bytes :=
  image.mapIdx fun index byte => if which index then 0 else byte

theorem zeroBytes_cons (which : Nat → Bool) (byte : UInt8) (rest : Bytes) :
    zeroBytes which (byte :: rest) =
      (if which 0 then 0 else byte) :: zeroBytes (fun index => which (index + 1)) rest := by
  rw [zeroBytes, List.mapIdx_cons]
  rfl

theorem length_zeroBytes (which : Nat → Bool) (image : Bytes) :
    (zeroBytes which image).length = image.length :=
  List.length_mapIdx

/-- Zeros make the sum smaller, unless they stood there before. -/
theorem byteSum_zeroBytes (which : Nat → Bool) (image : Bytes) :
    byteSum (zeroBytes which image) ≤ byteSum image ∧
      (byteSum (zeroBytes which image) = byteSum image → zeroBytes which image = image) := by
  induction image generalizing which with
  | nil => exact ⟨le_refl _, fun _ => rfl⟩
  | cons byte rest ih =>
      obtain ⟨hle, heq⟩ := ih fun index => which (index + 1)
      rw [zeroBytes_cons, byteSum_cons, byteSum_cons]
      by_cases hzero : which 0 = true
      · have hnone : (0 : UInt8).toNat = 0 := rfl
        rw [if_pos hzero, hnone]
        refine ⟨by omega, fun hsum => ?_⟩
        have hbyte : byte = 0 := UInt8.toNat_inj.mp (by rw [hnone]; omega)
        rw [heq (by omega), hbyte]
      · rw [if_neg hzero]
        refine ⟨by omega, fun hsum => ?_⟩
        rw [heq (by omega)]

/-! ## What is accepted -/

/-- The bytes that a header of this file announces behind it. -/
def announcedSize (file : Bytes) : Nat := (readHeader file).entryCount.toNat * recordSize

/-- The checks a file has to pass. -/
structure Accepted (file : Bytes) : Prop where
  header : headerSize ≤ file.length
  magic : (readHeader file).magic = stateMagic
  version : (readHeader file).version = stateVersion
  payload : announcedSize file ≤ (file.drop headerSize).length
  checksum : calculateChecksum ((file.drop headerSize).take (announcedSize file)) =
    (readHeader file).checksum

theorem accepted_of_readStateFile {file : Bytes} {states : List PackageState}
    (hread : readStateFile file = some states) : Accepted file := by
  unfold readStateFile at hread
  dsimp only at hread
  split at hread
  · cases hread
  next hheader =>
    split at hread
    · cases hread
    next hfields =>
      split at hread
      · cases hread
      next hpayload =>
        split at hread
        · cases hread
        next hchecksum =>
          rw [not_or, not_not, not_not] at hfields
          rw [List.length_take] at hpayload
          refine ⟨Nat.le_of_not_lt hheader, hfields.1, hfields.2, ?_, not_not.mp hchecksum⟩
          rw [announcedSize]
          omega

theorem initializeStateStorage_of_not_accepted {file : Bytes} (hnot : ¬ Accepted file)
    (store : PackageStore) : initializeStateStorage store (some file) = store := by
  rw [initializeStateStorage, Option.bind_some]
  cases hread : readStateFile file with
  | none => rfl
  | some states => exact absurd (accepted_of_readStateFile hread) hnot

/-! ## Fields -/

theorem slice_set_ne {file : Bytes} {index offset width : Nat} {byte : UInt8}
    (hlow : offset ≤ index) (hhigh : index < offset + width) (hindex : index < file.length)
    (hne : file[index]? ≠ some byte) :
    slice (file.set index byte) offset width ≠ slice file offset width := by
  intro heq
  have hat := congrArg (fun bytes : Bytes => bytes[index - offset]?) heq
  have hinside : index - offset < width := by omega
  have hsum : offset + (index - offset) = index := by omega
  simp only [slice, List.getElem?_take, List.getElem?_drop, hinside, if_true, hsum] at hat
  rw [List.getElem?_set_self hindex] at hat
  exact hne hat.symm

theorem slice_set_of_outside {file : Bytes} {index offset width : Nat} {byte : UInt8}
    (hout : index < offset ∨ offset + width ≤ index) :
    slice (file.set index byte) offset width = slice file offset width := by
  apply List.ext_getElem?
  intro at_
  simp only [slice, List.getElem?_take, List.getElem?_drop]
  split
  · rw [List.getElem?_set_ne (by omega)]
  · rfl

theorem length_slice {file : Bytes} {offset width : Nat} (h : offset + width ≤ file.length) :
    (slice file offset width).length = width := by
  rw [slice, List.length_take, List.length_drop]
  omega

/-- A field depends on the bytes up to its end only. -/
theorem slice_congr {file file' : Bytes} {count offset width : Nat}
    (hsame : file'.take count = file.take count) (hwidth : offset + width ≤ count) :
    slice file' offset width = slice file offset width := by
  have hcut (bytes : Bytes) : slice bytes offset width = slice (bytes.take count) offset width := by
    rw [slice, slice, List.drop_take, List.take_take, Nat.min_eq_left (by omega)]
  rw [hcut file', hcut file, hsame]

theorem readHeader_congr {file file' : Bytes}
    (hsame : file'.take headerSize = file.take headerSize) :
    readHeader file' = readHeader file := by
  have hfield {offset width : Nat} (hwidth : offset + width ≤ headerSize) :=
    slice_congr hsame hwidth
  rw [readHeader, readHeader, hfield (by decide), hfield (by decide), hfield (by decide),
    hfield (by decide), hfield (by decide)]

theorem read32_set_ne {file : Bytes} {index offset : Nat} {byte : UInt8}
    (hlow : offset ≤ index) (hhigh : index < offset + 4) (hend : offset + 4 ≤ file.length)
    (hne : file[index]? ≠ some byte) :
    read32 (slice (file.set index byte) offset 4) ≠ read32 (slice file offset 4) := by
  intro heq
  apply slice_set_ne hlow hhigh (by omega) hne
  have hlength : (slice (file.set index byte) offset 4).length = 4 :=
    length_slice (by rwa [List.length_set])
  rw [← le32_read32 hlength, heq, le32_read32 (length_slice hend)]

/-! ## Damage -/

/-- The positions of the magic, the version, the checksum and the payload. -/
def IsChecked (index : Nat) : Prop := index < 8 ∨ 20 ≤ index

/-- The file with payload bytes overwritten with zero. -/
def zeroPayload (which : Nat → Bool) (file : Bytes) : Bytes :=
  file.take headerSize ++ zeroBytes which (file.drop headerSize)

/-- The ways in which a file may be damaged. -/
inductive Damaged (file : Bytes) : Bytes → Prop
  | truncated {length : Nat} : length < file.length → Damaged file (file.take length)
  | replaced {index : Nat} {byte : UInt8} : IsChecked index → index < file.length →
      file[index]? ≠ some byte → Damaged file (file.set index byte)
  | zeroed {which : Nat → Bool} : zeroPayload which file ≠ file →
      Damaged file (zeroPayload which file)

/-- A file as it is written, with a payload small enough for the checksum. -/
structure Written (file : Bytes) : Prop where
  accepted : Accepted file
  length_eq : file.length = headerSize + announcedSize file
  small : announcedSize file * 255 < 2 ^ 32

theorem written_of_encodes {store : PackageStore} {file : Bytes} (hfile : Encodes store file)
    (hsmall : store.entries.length * recordSize * 255 < 2 ^ 32) : Written file := by
  obtain ⟨states, timestamp, padding, horder, rfl⟩ := hfile
  have hlength : states.length = store.entries.length := by
    rw [List.Perm.length_eq horder, List.length_map]
  have hrecord : recordSize = 40 := rfl
  have hcount : states.length < 2 ^ 32 := by
    rw [hrecord] at hsmall
    omega
  have hsize : announcedSize (encodeStates timestamp padding states) =
      states.length * recordSize := by
    rw [announcedSize, encodeStates, readHeader_headerBytes, saveHeader,
      UInt32.toNat_ofNat_of_lt' hcount]
  refine ⟨accepted_of_readStateFile (readStateFile_encodeStates timestamp padding hcount), ?_, ?_⟩
  · rw [hsize, encodeStates, List.length_append, length_headerBytes, length_recordsBytes]
  · rw [hsize, hlength]
    exact hsmall

namespace Written

variable {file : Bytes} (h : Written file)

include h

theorem length_payload : (file.drop headerSize).length = announcedSize file := by
  rw [List.length_drop, h.length_eq, Nat.add_sub_cancel_left]

theorem checksum_eq :
    calculateChecksum (file.drop headerSize) = (readHeader file).checksum := by
  have hchecksum := h.accepted.checksum
  rwa [List.take_of_length_le (le_of_eq h.length_payload)] at hchecksum

/-- Another payload of the same length is refused if the sum of its bytes is another one. -/
theorem not_accepted_of_payload {damaged : Bytes}
    (hheader : damaged.take headerSize = file.take headerSize)
    (hlength : (damaged.drop headerSize).length = (file.drop headerSize).length)
    (hsum : byteSum (damaged.drop headerSize) ≠ byteSum (file.drop headerSize)) :
    ¬ Accepted damaged := by
  intro hacc
  have hread := readHeader_congr hheader
  have hsize : announcedSize damaged = announcedSize file := by
    rw [announcedSize, hread, announcedSize]
  have hchecksum := hacc.checksum
  rw [h.length_payload] at hlength
  rw [hsize, List.take_of_length_le (le_of_eq hlength), hread, ← h.checksum_eq] at hchecksum
  refine calculateChecksum_ne hsum ?_ ?_ hchecksum
  · rw [hlength]
    exact h.small
  · rw [h.length_payload]
    exact h.small

theorem not_accepted_truncated {length : Nat} (hlength : length < file.length) :
    ¬ Accepted (file.take length) := by
  intro hacc
  have hheader := hacc.header
  rw [List.length_take] at hheader
  have hsame : (file.take length).take headerSize = file.take headerSize := by
    rw [List.take_take, Nat.min_eq_left (by omega)]
  have hpayload := hacc.payload
  rw [announcedSize, readHeader_congr hsame, ← announcedSize, List.length_drop,
    List.length_take] at hpayload
  have := h.length_eq
  omega

theorem not_accepted_replaced {index : Nat} {byte : UInt8} (hchecked : IsChecked index)
    (hindex : index < file.length) (hne : file[index]? ≠ some byte) :
    ¬ Accepted (file.set index byte) := by
  intro hacc
  have hheader : 24 ≤ file.length := h.accepted.header
  rcases hchecked with hlow | hhigh
  · by_cases hmagic : index < 4
    · apply read32_set_ne (Nat.zero_le index) (by omega) (by omega) hne
      exact hacc.magic.trans h.accepted.magic.symm
    · apply read32_set_ne (Nat.le_of_not_lt hmagic) (by omega) (by omega) hne
      exact hacc.version.trans h.accepted.version.symm
  · by_cases hchecksum : index < headerSize
    · -- the payload and its length are as they were, the checksum is not
      have hcount : (readHeader (file.set index byte)).entryCount =
          (readHeader file).entryCount :=
        congrArg read32 (slice_set_of_outside (Or.inr hhigh))
      have hpayload : (file.set index byte).drop headerSize = file.drop headerSize :=
        List.drop_set_of_lt hchecksum
      have hsame := hacc.checksum
      rw [announcedSize, hcount, ← announcedSize, hpayload, h.accepted.checksum] at hsame
      exact read32_set_ne hhigh hchecksum (by omega) hne hsame.symm
    · have hdrop : (file.set index byte).drop headerSize =
          (file.drop headerSize).set (index - headerSize) byte := by
        rw [List.drop_set, if_neg hchecksum]
      refine h.not_accepted_of_payload ?_ ?_ ?_ hacc
      · rw [List.take_set_of_le (by omega)]
      · rw [List.length_drop, List.length_set, List.length_drop]
      · obtain ⟨old, hold⟩ : ∃ old, file[index]? = some old :=
          ⟨file[index], List.getElem?_eq_getElem hindex⟩
        have hat : (file.drop headerSize)[index - headerSize]? = some old := by
          rw [List.getElem?_drop, ← hold]
          congr 1
          omega
        have hsum : byteSum ((file.drop headerSize).set (index - headerSize) byte) + old.toNat =
            byteSum (file.drop headerSize) + byte.toNat := byteSum_set hat
        rw [hdrop]
        intro heq
        apply hne
        rw [hold, Option.some.injEq]
        exact UInt8.toNat_inj.mp (by omega)

theorem not_accepted_zeroed {which : Nat → Bool} (hne : zeroPayload which file ≠ file) :
    ¬ Accepted (zeroPayload which file) := by
  have hheader : headerSize ≤ file.length := h.accepted.header
  have htake : (file.take headerSize).length = headerSize := List.length_take_of_le hheader
  have hdrop : (zeroPayload which file).drop headerSize =
      zeroBytes which (file.drop headerSize) := List.drop_left' htake
  refine h.not_accepted_of_payload (List.take_left' htake) ?_ fun hsum => hne ?_
  · rw [hdrop, length_zeroBytes]
  · rw [hdrop] at hsum
    rw [zeroPayload, (byteSum_zeroBytes which _).2 hsum, List.take_append_drop]

end Written

/-- A damaged file changes nothing in memory. -/
theorem load_damaged {store : PackageStore} {file damaged : Bytes} (hfile : Encodes store file)
    (hsmall : store.entries.length * recordSize * 255 < 2 ^ 32) (hdamaged : Damaged file damaged)
    (current : PackageStore) : initializeStateStorage current (some damaged) = current := by
  have hwritten := written_of_encodes hfile hsmall
  apply initializeStateStorage_of_not_accepted
  cases hdamaged with
  | truncated hlength => exact hwritten.not_accepted_truncated hlength
  | replaced hchecked hindex hne => exact hwritten.not_accepted_replaced hchecked hindex hne
  | zeroed hne => exact hwritten.not_accepted_zeroed hne

/-- The file of two records with the last byte of the second one's growth rate changed. -/
theorem load_damaged_twoPackages :
    let file := encodeStates 11 (fun _ => 0) (twoPackages.entries.map Sigma.snd)
    initializeStateStorage twoPackages (some (file.set 103 255)) = twoPackages :=
  load_damaged ⟨_, 11, fun _ => 0, List.Perm.refl _, rfl⟩ (by decide +kernel)
    (.replaced (Or.inr (by decide)) (by decide +kernel) (by decide +kernel)) twoPackages

end FreshCore.Cache
