import Mathlib.Data.UInt

/-!
# Machine integers with checks

The arithmetic of a machine type is reduced into the range of the type. A checked step goes
through only where there is nothing to reduce, and then it is the step of the machine.
-/

namespace Arithmetic

/-- Integers of a fixed range, into which every integer is reduced. -/
class MachineInt (α : Type) [Mul α] where
  least : Int
  greatest : Int
  toInt : α → Int
  ofInt : Int → α
  toInt_ofInt : ∀ n, least ≤ n → n ≤ greatest → toInt (ofInt n) = n
  ofInt_mul : ∀ a b : α, ofInt (toInt a * toInt b) = a * b

open MachineInt

instance : MachineInt Int32 where
  least := -2 ^ 31
  greatest := 2 ^ 31 - 1
  toInt := Int32.toInt
  ofInt := Int32.ofInt
  toInt_ofInt n hleast hgreatest := Int32.toInt_ofInt_of_le hleast (by omega)
  ofInt_mul a b := by rw [Int32.ofInt_mul, Int32.ofInt_toInt, Int32.ofInt_toInt]

instance : MachineInt UInt64 where
  least := 0
  greatest := 2 ^ 64 - 1
  toInt a := a.toNat
  ofInt := UInt64.ofInt
  toInt_ofInt n hleast hgreatest := by
    rw [UInt64.ofInt, UInt64.toNat_ofNat']
    omega
  ofInt_mul a b := by
    apply UInt64.toNat_inj.mp
    rw [UInt64.ofInt, UInt64.toNat_ofNat', UInt64.toNat_mul]
    norm_cast
    omega

variable {α β : Type} [Mul α] [MachineInt α] [Mul β] [MachineInt β]

/-- The integer is in the range of the type. -/
def Fits (α : Type) [Mul α] [MachineInt α] (n : Int) : Prop :=
  least α ≤ n ∧ n ≤ greatest α

instance (n : Int) : Decidable (Fits α n) := by
  unfold Fits
  infer_instance

/-- The conversion between two machine types. -/
def convert (β : Type) [Mul β] [MachineInt β] (a : α) : β := ofInt (toInt a)

def checked (α : Type) [Mul α] [MachineInt α] (n : Int) : Option α :=
  if Fits α n then some (ofInt n) else none

/-- The product, unless it is out of range. -/
def checkedMul (a b : α) : Option α := checked α (toInt a * toInt b)

/-- The same number in another type, unless it is out of range there. -/
def checkedConvert (β : Type) [Mul β] [MachineInt β] (a : α) : Option β := checked β (toInt a)

theorem checked_eq_some {n : Int} {a : α} : checked α n = some a ↔ Fits α n ∧ ofInt n = a := by
  unfold checked
  split
  next hfits => simp [hfits]
  next hfits => simp [hfits]

theorem checkedMul_eq_some {a b c : α} :
    checkedMul a b = some c ↔ Fits α (toInt a * toInt b) ∧ a * b = c := by
  rw [checkedMul, checked_eq_some, ofInt_mul]

theorem checkedConvert_eq_some {a : α} {b : β} :
    checkedConvert β a = some b ↔ Fits β (toInt a) ∧ convert β a = b :=
  checked_eq_some

theorem toInt_mul {a b : α} (hfits : Fits α (toInt a * toInt b)) :
    toInt (a * b) = toInt a * toInt b := by
  rw [← ofInt_mul, toInt_ofInt _ hfits.1 hfits.2]

theorem toInt_convert {a : α} (hfits : Fits β (toInt a)) : toInt (convert β a) = toInt a :=
  toInt_ofInt _ hfits.1 hfits.2

end Arithmetic
