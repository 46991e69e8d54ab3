import Mathlib.Data.List.Infix
import Mathlib.Data.List.TakeWhile
import FreshCore.Posix.Path

/-!
# Reading a stream through a buffer

A stream is read in pieces that fit the buffer and that end where a line does. Each piece
is then taken for a string, which ends at its first null byte, so that all is read if there is
no such byte, wherever the pieces end.
-/

namespace Posix

/-- The bytes up to a line break or until there is no more room, and what is left. -/
def nextPiece : Nat → Bytes → Bytes × Bytes
  | 0, rest => ([], rest)
  | _ + 1, [] => ([], [])
  | room + 1, byte :: rest =>
      if byte = 10 then ([byte], rest)
      else
        let (piece, rest) := nextPiece room rest
        (byte :: piece, rest)

/-- `fgets` into a buffer of the size: one byte is for the null at the end. -/
def fgets (size : Nat) (stream : Bytes) : Option (Bytes × Bytes) :=
  if stream = [] then none else some (nextPiece (size - 1) stream)

/-- What a buffer holds as a C string. -/
def cString (buffer : Bytes) : Bytes := buffer.takeWhile (· ≠ 0)

theorem nextPiece_append (room : Nat) (stream : Bytes) :
    (nextPiece room stream).1 ++ (nextPiece room stream).2 = stream := by
  fun_induction nextPiece room stream with
  | case1 => rfl
  | case2 => rfl
  | case3 => rfl
  | case4 room byte rest hbyte piece rest' heq ih =>
      rw [heq] at ih
      exact congrArg (byte :: ·) ih

theorem fgets_eq_some {size : Nat} {stream piece rest : Bytes}
    (h : fgets size stream = some (piece, rest)) : stream = piece ++ rest := by
  unfold fgets at h
  split at h
  next => cases h
  next =>
    have happend := nextPiece_append (size - 1) stream
    rw [Option.some.inj h] at happend
    exact happend.symm

theorem nextPiece_ne_nil (room : Nat) {stream : Bytes} (hstream : stream ≠ []) :
    (nextPiece (room + 1) stream).1 ≠ [] := by
  cases stream with
  | nil => exact absurd rfl hstream
  | cons byte rest =>
      unfold nextPiece
      split <;> simp

/-- With room for a byte, something is read. -/
theorem fgets_length_lt {size : Nat} (hsize : 2 ≤ size) {stream piece rest : Bytes}
    (h : fgets size stream = some (piece, rest)) : rest.length < stream.length := by
  have hpiece : piece ≠ [] := by
    obtain ⟨room, rfl⟩ := Nat.exists_eq_add_of_le' hsize
    unfold fgets at h
    split at h
    next => cases h
    next hstream =>
      have hne : (nextPiece (room + 2 - 1) stream).1 ≠ [] := nextPiece_ne_nil room hstream
      rwa [Option.some.inj h] at hne
  have hlength := congrArg List.length (fgets_eq_some h)
  have := List.length_pos_of_ne_nil hpiece
  simp only [List.length_append] at hlength
  omega

/-- `while (fgets(buffer, size, stream)) result += buffer` -/
def readAll (size : Nat) (hsize : 2 ≤ size) (stream : Bytes) : Bytes :=
  match _hread : fgets size stream with
  | none => []
  | some (piece, rest) => cString piece ++ readAll size hsize rest
termination_by stream.length
decreasing_by exact fgets_length_lt hsize _hread

theorem cString_eq_self {buffer : Bytes} (h : 0 ∉ buffer) : cString buffer = buffer := by
  rw [cString, List.takeWhile_eq_self_iff]
  intro byte hbyte
  simp only [ne_eq, decide_not, Bool.not_eq_true', decide_eq_false_iff_not]
  rintro rfl
  exact h hbyte

theorem zero_notMem_cString (buffer : Bytes) : 0 ∉ cString buffer := by
  intro hmem
  simpa using List.mem_takeWhile_imp hmem

/-- What is read has no null bytes. -/
theorem zero_notMem_readAll (size : Nat) (hsize : 2 ≤ size) (stream : Bytes) :
    0 ∉ readAll size hsize stream := by
  fun_induction readAll size hsize stream with
  | case1 => simp
  | case2 stream piece rest hread ih =>
      rw [List.mem_append, not_or]
      exact ⟨zero_notMem_cString piece, ih⟩

/-- All is read if and only if there are no null bytes, however the buffer divides it. -/
theorem readAll_eq_self_iff {size : Nat} {hsize : 2 ≤ size} {stream : Bytes} :
    readAll size hsize stream = stream ↔ 0 ∉ stream := by
  constructor
  · intro hread
    rw [← hread]
    exact zero_notMem_readAll size hsize stream
  · intro hzero
    fun_induction readAll size hsize stream with
    | case1 stream hread =>
        unfold fgets at hread
        split at hread
        next hnil => exact hnil.symm
        next => cases hread
    | case2 stream piece rest hread ih =>
        obtain rfl := fgets_eq_some hread
        rw [List.mem_append, not_or] at hzero
        rw [cString_eq_self hzero.1, ih hzero.2]

/-! ## The first piece alone -/

/-- What the buffer holds after one `fgets`, if anything was read. -/
def firstPiece (size : Nat) (stream : Bytes) : Option Bytes :=
  (fgets size stream).map fun (piece, _) => cString piece

theorem length_nextPiece_le (room : Nat) (stream : Bytes) :
    (nextPiece room stream).1.length ≤ room := by
  fun_induction nextPiece room stream with
  | case1 => simp
  | case2 => simp
  | case3 => simp
  | case4 room byte rest hbyte piece rest' heq ih =>
      rw [heq] at ih
      simpa using ih

theorem length_firstPiece_lt {size : Nat} (hsize : 0 < size) {stream piece : Bytes}
    (h : firstPiece size stream = some piece) : piece.length < size := by
  obtain ⟨⟨whole, rest⟩, hread, rfl⟩ := Option.map_eq_some_iff.mp h
  have hwhole : whole.length ≤ size - 1 := by
    unfold fgets at hread
    split at hread
    next => cases hread
    next =>
      have hlength := length_nextPiece_le (size - 1) stream
      rwa [Option.some.inj hread] at hlength
  have hstring : (cString whole).length ≤ whole.length :=
    (List.takeWhile_prefix _).length_le
  dsimp only
  omega

end Posix
