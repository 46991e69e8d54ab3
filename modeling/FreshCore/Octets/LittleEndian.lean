import Mathlib.Algebra.Order.Group.Nat
import Mathlib.Algebra.Ring.Nat
import Mathlib.Tactic.Ring

/-!
# Little-endian fields

A number is laid out in a fixed count of bytes, least significant first. Reading
a field back yields the number modulo what the width can hold.
-/

namespace Octets

/-- The low `width` bytes of `n`. -/
def toLE : Nat → Nat → List UInt8
  | 0, _ => []
  | width + 1, n => .ofNat n :: toLE width (n / 256)

def ofLE : List UInt8 → Nat
  | [] => 0
  | byte :: rest => byte.toNat + 256 * ofLE rest

@[simp] theorem length_toLE (width n : Nat) : (toLE width n).length = width := by
  induction width generalizing n with
  | zero => rfl
  | succ width ih => rw [toLE, List.length_cons, ih]

theorem ofLE_toLE (width n : Nat) : ofLE (toLE width n) = n % 256 ^ width := by
  induction width generalizing n with
  | zero => simp [toLE, ofLE, Nat.mod_one]
  | succ width ih =>
      have hsplit : n % (256 * 256 ^ width) = n % 256 + 256 * (n / 256 % 256 ^ width) :=
        Nat.mod_mul
      have hbyte : (UInt8.ofNat n).toNat = n % 256 := UInt8.toNat_ofNat'
      rw [toLE, ofLE, ih, hbyte, pow_succ', hsplit]

theorem ofLE_toLE_of_lt {width n : Nat} (h : n < 256 ^ width) : ofLE (toLE width n) = n := by
  rw [ofLE_toLE, Nat.mod_eq_of_lt h]

theorem ofLE_lt (bytes : List UInt8) : ofLE bytes < 256 ^ bytes.length := by
  induction bytes with
  | nil => simp [ofLE]
  | cons byte rest ih =>
      have hbyte : byte.toNat < 256 := byte.toNat_lt
      rw [ofLE, List.length_cons, pow_succ']
      omega

theorem toLE_ofLE (bytes : List UInt8) : toLE bytes.length (ofLE bytes) = bytes := by
  induction bytes with
  | nil => rfl
  | cons byte rest ih =>
      have hbyte : byte.toNat < 256 := byte.toNat_lt
      have hlow : UInt8.ofNat (byte.toNat + 256 * ofLE rest) = byte := by
        apply UInt8.toNat_inj.mp
        rw [UInt8.toNat_ofNat']
        omega
      have hhigh : (byte.toNat + 256 * ofLE rest) / 256 = ofLE rest := by omega
      rw [List.length_cons, ofLE, toLE, hlow, hhigh, ih]

def le32 (word : UInt32) : List UInt8 := toLE 4 word.toNat

def le64 (word : UInt64) : List UInt8 := toLE 8 word.toNat

def read32 (bytes : List UInt8) : UInt32 := .ofNat (ofLE bytes)

def read64 (bytes : List UInt8) : UInt64 := .ofNat (ofLE bytes)

@[simp] theorem length_le32 (word : UInt32) : (le32 word).length = 4 := length_toLE 4 _

@[simp] theorem length_le64 (word : UInt64) : (le64 word).length = 8 := length_toLE 8 _

@[simp] theorem read32_le32 (word : UInt32) : read32 (le32 word) = word := by
  rw [read32, le32, ofLE_toLE_of_lt word.toNat_lt, UInt32.ofNat_toNat]

/-- Four bytes are determined by the number they hold. -/
theorem le32_read32 {bytes : List UInt8} (hlength : bytes.length = 4) :
    le32 (read32 bytes) = bytes := by
  have hlt := ofLE_lt bytes
  rw [hlength] at hlt
  rw [le32, read32, UInt32.toNat_ofNat_of_lt' hlt, ← hlength, toLE_ofLE]

@[simp] theorem read64_le64 (word : UInt64) : read64 (le64 word) = word := by
  rw [read64, le64, ofLE_toLE_of_lt word.toNat_lt, UInt64.ofNat_toNat]

/-! ## Fields at an offset -/

/-- The `width` bytes from `offset` on. -/
def slice (bytes : List UInt8) (offset width : Nat) : List UInt8 :=
  (bytes.drop offset).take width

end Octets
