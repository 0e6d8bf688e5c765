import Hlibc.Crypto.MdFinish
import Mathlib.Data.List.Basic

/-!
# What MD4 and MD5 ask for

The standards of MD4 and MD5 give their compression as steps on four registers
that take turns: every step names the registers in the order `ABCD`, `DABC`,
`CDAB` or `BCDA`, and assigns the first of them.  They pad a message with a one
bit, zeros and its length in bits, and fold the compression over the blocks.
-/

set_option autoImplicit false

namespace Hlibc.Md

/-! ## Registers that take turns -/

/-- The register that step `i` names in place `j`. -/
def role (i j : ℕ) : Fin 4 := ⟨(3 * i + j) % 4, Nat.mod_lt _ (Nat.zero_lt_succ 3)⟩

/-- Step `i`. -/
def step (f : Mix) (i : ℕ) (r : Registers) : Registers :=
  assign f r (role i 0) (role i 1) (role i 2) (role i 3)

/-! ## The padded message -/

/-- What the standards put behind a message: the byte 128, zeros up to eight bytes
before the end of a block, and the length in bits modulo `2 ^ 64`. -/
def bitPadding (m : List UInt8) : List UInt8 :=
  (128 : UInt8) :: List.replicate ((119 - m.length % 64) % 64) 0 ++
    leBytes 8 (BitVec.ofNat 64 (8 * m.length))

/-- Four words as bytes, least significant first. -/
def Words.bytes (w : Words) : List UInt8 :=
  leBytes 4 w.a ++ leBytes 4 w.b ++ leBytes 4 w.c ++ leBytes 4 w.d

/-- The initial registers. -/
def initialWords : Words where
  a := leWord 32 [0x01, 0x23, 0x45, 0x67]
  b := leWord 32 [0x89, 0xab, 0xcd, 0xef]
  c := leWord 32 [0xfe, 0xdc, 0xba, 0x98]
  d := leWord 32 [0x76, 0x54, 0x32, 0x10]

/-- The words that `md4_init` and `md5_init` store. -/
theorem initialWords_eq : initialWords =
    { a := 0x67452301, b := 0xEFCDAB89, c := 0x98BADCFE, d := 0x10325476 } := by
  decide

/-- The digest of a message for a compression function. -/
def standardDigest (compress : Words → List UInt8 → Words) (m : List UInt8) : List UInt8 :=
  ((blocksOf 64 (m ++ bitPadding m)).foldl compress initialWords).bytes

theorem ofNat_shiftLeft_three (n : ℕ) :
    BitVec.ofNat 64 n <<< 3 = BitVec.ofNat 64 (8 * n) := by
  apply BitVec.eq_of_toNat_eq
  rw [BitVec.toNat_shiftLeft, BitVec.toNat_ofNat, BitVec.toNat_ofNat, Nat.shiftLeft_eq]
  omega

/-- The padding of the last blocks is that of the message. -/
theorem lengthPadding_eq (m : List UInt8) :
    lengthPadding (m.length % 64) (BitVec.ofNat 64 m.length) = bitPadding m := by
  have hzeros : (if m.length % 64 < 56 then 55 - m.length % 64 else 119 - m.length % 64) =
      (119 - m.length % 64) % 64 := by
    split
    · omega
    · omega
  rw [lengthPadding, bitPadding, hzeros, ofNat_shiftLeft_three]

/-- A fresh context, one update and the last blocks fold the compression over the
blocks of the padded message. -/
theorem update_finish (process : Words → List UInt8 → Words) {ctx : Context Words 64}
    (hsize : ctx.size = 0) (m : List UInt8) :
    ∃ ctx', update geometry64 process ctx m m.length = .ok ctx' ∧
      finish process ctx' =
        .ok ((blocksOf 64 (m ++ bitPadding m)).foldl process ctx.chain) := by
  obtain ⟨ctx', hrun, hholds, hchain⟩ := update_spec process (holds_nil (g := geometry64) hsize) m
  rw [List.nil_append] at hholds
  have hused : (ctx'.size &&& 63).toNat = m.length % 64 := hholds.used
  have htail : ctx'.tail.bytes.take (m.length % 64) = leftover 64 m := hholds.tail_eq
  refine ⟨ctx', hrun, ?_⟩
  rw [finish_eq, hused, htail, hholds.size_eq, lengthPadding_eq, hchain, List.length_nil,
    handed_zero, ← List.foldl_append, ← blocksOf_append_leftover (by decide)]

end Hlibc.Md
