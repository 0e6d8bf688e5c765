import Hlibc.Ctype
import Mathlib.Data.Int.Notation

/-!
# Hexadecimal digits

`hex_val` of `string.c`, and the digits that it reads.
-/

set_option autoImplicit false

namespace Hlibc

set_option maxRecDepth 2000 in
/-- `hex_val_table`. -/
def hexValTable : List ℤ := [
  -1, -1, -1, -1, -1, -1, -1, -1, -1, -1, -1, -1, -1, -1, -1, -1, -1, -1, -1,
  -1, -1, -1, -1, -1, -1, -1, -1, -1, -1, -1, -1, -1, -1, -1, -1, -1, -1, -1,
  -1, -1, -1, -1, -1, -1, -1, -1, -1, -1, 0, 1, 2, 3, 4, 5, 6, 7, 8,
  9, -1, -1, -1, -1, -1, -1, -1, 10, 11, 12, 13, 14, 15, -1, -1, -1, -1, -1,
  -1, -1, -1, -1, -1, -1, -1, -1, -1, -1, -1, -1, -1, -1, -1, -1, -1, -1, -1,
  -1, -1, 10, 11, 12, 13, 14, 15, -1, -1, -1, -1, -1, -1, -1, -1, -1, -1, -1,
  -1, -1, -1, -1, -1, -1, -1, -1, -1, -1, -1, -1, -1, -1, -1, -1, -1, -1, -1,
  -1, -1, -1, -1, -1, -1, -1, -1, -1, -1, -1, -1, -1, -1, -1, -1, -1, -1, -1,
  -1, -1, -1, -1, -1, -1, -1, -1, -1, -1, -1, -1, -1, -1, -1, -1, -1, -1, -1,
  -1, -1, -1, -1, -1, -1, -1, -1, -1, -1, -1, -1, -1, -1, -1, -1, -1, -1, -1,
  -1, -1, -1, -1, -1, -1, -1, -1, -1, -1, -1, -1, -1, -1, -1, -1, -1, -1, -1,
  -1, -1, -1, -1, -1, -1, -1, -1, -1, -1, -1, -1, -1, -1, -1, -1, -1, -1, -1,
  -1, -1, -1, -1, -1, -1, -1, -1, -1, -1, -1, -1, -1, -1, -1, -1, -1, -1, -1,
  -1, -1, -1, -1, -1, -1, -1, -1, -1]

/-- `hex_val`. -/
def hexVal (c : UInt8) : ℤ := hexValTable.getD c.toNat (-1)

/-- The digits have values below 16, the other characters negative ones. -/
theorem hexVal_bounds (c : UInt8) : (hexVal c < 0 ↔ isxdigit c = false) ∧ hexVal c < 16 :=
  forall_entry (P := fun c v => (v < 0 ↔ isxdigit c = false) ∧ v < 16) (by decide +kernel) (-1) c

theorem hexVal_neg_iff (c : UInt8) : hexVal c < 0 ↔ isxdigit c = false := (hexVal_bounds c).1

theorem hexVal_lt (c : UInt8) : (hexVal c).toNat < 16 := by
  have hlt := (hexVal_bounds c).2
  omega

theorem hexVal_nonneg {c : UInt8} (hc : isxdigit c = true) : 0 ≤ hexVal c := by
  rw [← Int.not_lt, hexVal_neg_iff, hc]
  decide

/-- `hex_cset`. -/
def hexCset : List UInt8 := ascii "0123456789ABCDEF"

/-- The digits of a byte are read back, and the digit of a value is in upper case. -/
theorem hexCset_spec (c : UInt8) : (isxdigit (hexCset.getD (c.toNat / 16) 0) = true ∧
    isxdigit (hexCset.getD (c.toNat % 16) 0) = true ∧
    UInt8.ofNat (16 * (hexVal (hexCset.getD (c.toNat / 16) 0)).toNat +
      (hexVal (hexCset.getD (c.toNat % 16) 0)).toNat) = c) ∧
    (isxdigit c = true → hexCset.getD (hexVal c).toNat 0 = toupper c) := by
  revert c
  refine forall_byte ?_
  decide +kernel

end Hlibc
