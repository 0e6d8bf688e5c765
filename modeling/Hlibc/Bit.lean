import Hlibc.Support.Memory
import Hlibc.Support.Words

/-!
# `bit.h`

The bits of an array, at indices that are not negative, the rotations, and the unaligned
loads and stores, as they behave on a little-endian machine.
-/

set_option autoImplicit false

namespace Hlibc

/-- The byte at `idx` as the `int` it is promoted to. -/
def readInt (base : List UInt8) (idx : ℕ) : Exec (BitVec 32) :=
  (fun byte => byte.toBitVec.setWidth 32) <$> readByte base idx

/-- The byte at `idx`, assigned what an operation on `int` makes of it. -/
def assignByte (base : List UInt8) (idx : ℕ) (op : BitVec 32 → BitVec 32) :
    Exec (List UInt8) := do
  let value ← readInt base idx
  writeByte base idx (UInt8.ofBitVec ((op value).setWidth 8))

/-- `bit_test`. -/
def bitTest (base : List UInt8) (i : ℕ) : Exec Bool := do
  let value ← readInt base (i >>> 3)
  .ok ((value >>> (7 - (i &&& 7))) &&& 1 != 0)

/-- `bit_set`. -/
def bitSet (base : List UInt8) (i : ℕ) : Exec (List UInt8) :=
  assignByte base (i >>> 3) (· ||| (1 : BitVec 32) <<< (i % 8))

/-- `bit_clear`. -/
def bitClear (base : List UInt8) (i : ℕ) : Exec (List UInt8) :=
  assignByte base (i >>> 3) (· &&& ~~~((1 : BitVec 32) <<< (i % 8)))

/-- `bit_flip`. -/
def bitFlip (base : List UInt8) (i : ℕ) : Exec (List UInt8) :=
  assignByte base (i >>> 3) (· ^^^ (1 : BitVec 32) <<< (i % 8))

/-- `bit_test_and_set`: the value returned, and the array. -/
def bitTestAndSet (base : List UInt8) (i : ℕ) : Exec (Bool × List UInt8) := do
  let old ← bitTest base i
  let base ← bitSet base i
  .ok (old, base)

/-- `bit_test_and_clear`. -/
def bitTestAndClear (base : List UInt8) (i : ℕ) : Exec (Bool × List UInt8) := do
  let old ← bitTest base i
  let base ← bitClear base i
  .ok (old, base)

/-- `bit_test_and_flip`. -/
def bitTestAndFlip (base : List UInt8) (i : ℕ) : Exec (Bool × List UInt8) := do
  let old ← bitTest base i
  let base ← bitFlip base i
  .ok (old, base)

/-- `rotl32`, for `n` from 1 to 31. -/
def rotl32 (x : BitVec 32) (n : ℕ) : BitVec 32 :=
  x <<< n ||| x >>> (32 - n)

/-- `rotl64`, for `n` from 1 to 63. -/
def rotl64 (x : BitVec 64) (n : ℕ) : BitVec 64 :=
  x <<< n ||| x >>> (64 - n)

theorem rotl32_eq_rotateLeft (x : BitVec 32) {n : ℕ} (hn : n < 32) :
    rotl32 x n = x.rotateLeft n := by
  rw [rotl32, BitVec.rotateLeft_def, Nat.mod_eq_of_lt hn]

theorem rotl64_eq_rotateLeft (x : BitVec 64) {n : ℕ} (hn : n < 64) :
    rotl64 x n = x.rotateLeft n := by
  rw [rotl64, BitVec.rotateLeft_def, Nat.mod_eq_of_lt hn]

def getUnalignedLe32 (src : List UInt8) (off : ℕ) : Exec (BitVec 32) :=
  leWord 32 <$> readBytes src off 4

def getUnalignedLe64 (src : List UInt8) (off : ℕ) : Exec (BitVec 64) :=
  leWord 64 <$> readBytes src off 8

def putUnalignedLe32 (val : BitVec 32) (dst : List UInt8) (off : ℕ) :
    Exec (List UInt8) :=
  writeBytes dst off (leBytes 4 val)

def putUnalignedLe64 (val : BitVec 64) (dst : List UInt8) (off : ℕ) :
    Exec (List UInt8) :=
  writeBytes dst off (leBytes 8 val)

/-- `get_unaligned_be32`, for a word inside its object. -/
def getUnalignedBe32 (src : List UInt8) (off : ℕ) : BitVec 32 :=
  beWord 32 ((src.drop off).take 4)

def putUnalignedBe32 (val : BitVec 32) (dst : List UInt8) (off : ℕ) :
    Exec (List UInt8) :=
  writeBytes dst off (beBytes 4 val)

theorem getUnalignedLe32_of_le {src : List UInt8} {off : ℕ}
    (h : off + 4 ≤ src.length) :
    getUnalignedLe32 src off = .ok (leWord 32 ((src.drop off).take 4)) := by
  rw [getUnalignedLe32, readBytes_of_le h, Exec.map_ok]

theorem getUnalignedLe64_of_le {src : List UInt8} {off : ℕ}
    (h : off + 8 ≤ src.length) :
    getUnalignedLe64 src off = .ok (leWord 64 ((src.drop off).take 8)) := by
  rw [getUnalignedLe64, readBytes_of_le h, Exec.map_ok]

section Put

variable {done dest : List UInt8} {off : ℕ}

theorem putUnalignedLe32_drop (x : BitVec 32) (hoff : off = done.length)
    (h : off + 4 ≤ dest.length) :
    putUnalignedLe32 x (done ++ dest.drop off) off =
      .ok (done ++ leBytes 4 x ++ dest.drop (off + 4)) := by
  rw [putUnalignedLe32, writeBytes_drop hoff (by rwa [length_leBytes]), length_leBytes]

theorem putUnalignedBe32_drop (x : BitVec 32) (hoff : off = done.length)
    (h : off + 4 ≤ dest.length) :
    putUnalignedBe32 x (done ++ dest.drop off) off =
      .ok (done ++ beBytes 4 x ++ dest.drop (off + 4)) := by
  rw [putUnalignedBe32, writeBytes_drop hoff (by rwa [length_beBytes]), length_beBytes]

end Put

end Hlibc
