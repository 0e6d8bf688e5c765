import Hlibc.Crypto.Md4
import Hlibc.Crypto.MdStandard

/-!
# The MD4 digest

The standard gives the 48 steps in three rounds: function, word of the block,
constant and rotation follow from the step number.  `md4_process_chunk` writes
them out, and `md4_finalize` ends with the digest of the padded message.
-/

set_option autoImplicit false

namespace Hlibc.Md

/-! ## The compression of the standard -/

/-- The function of step `i`. -/
def md4Function (i : ℕ) : BitVec 32 → BitVec 32 → BitVec 32 → BitVec 32 :=
  if i < 16 then fun x y z => x &&& y ||| ~~~x &&& z
  else if i < 32 then fun x y z => x &&& y ||| x &&& z ||| y &&& z
  else fun x y z => x ^^^ y ^^^ z

/-- The word of the block that step `i` takes: in the second round by columns, in the
third with the bits of the number reversed. -/
def md4Index (i : ℕ) : ℕ :=
  if i < 16 then i
  else if i < 32 then 4 * (i % 4) + i % 16 / 4
  else 8 * (i % 2) + 4 * (i / 2 % 2) + 2 * (i / 4 % 2) + i / 8 % 2

/-- The constant of step `i`: none, the root of two, the root of three. -/
def md4Constant (i : ℕ) : BitVec 32 :=
  if i < 16 then 0 else if i < 32 then 0x5A827999 else 0x6ED9EBA1

/-- The rotation of step `i`. -/
def md4Rotation (i : ℕ) : ℕ :=
  ([[3, 7, 11, 19], [3, 5, 9, 13], [3, 9, 11, 15]].getD (i / 16) []).getD (i % 4) 0

/-- `a = (a + F(b, c, d) + X[k] + K) <<< s`. -/
def md4Mix (data : List UInt8) (i : ℕ) : Mix := fun a b c d =>
  (a + md4Function i b c d + getWord data (md4Index i) + md4Constant i).rotateLeft (md4Rotation i)

/-- The compression of the standard. -/
def md4Compress (w : Words) (data : List UInt8) : Words :=
  w.add (registersWords ((List.range 48).foldl (fun r i => step (md4Mix data i) i r)
    w.registers))

example : standardDigest md4Compress (ascii "abc") =
    [0xa4, 0x48, 0x01, 0x7a, 0xaf, 0x21, 0xd8, 0x52, 0x5f, 0xc1, 0x0a, 0xe8, 0x7a, 0xa6, 0x72,
      0x9d] := by decide +kernel

/-! ## The rounds of the source -/

/-- The call that the standard makes step `i`. -/
def md4StandardCall (i : ℕ) : RoundCall where
  fn := md4Function i
  a := role i 0
  b := role i 1
  c := role i 2
  d := role i 3
  idx := md4Index i
  t := md4Constant i
  s := md4Rotation i

set_option maxRecDepth 4000 in
theorem md4Calls_eq : md4Calls = (List.range 48).map md4StandardCall := rfl

theorem md4Rotation_lt (i : ℕ) (hi : i < 48) : md4Rotation i < 32 := by
  have hall : ∀ i < 48, md4Rotation i < 32 := by decide
  exact hall i hi

/-! ## The code computes the standard -/

/-- `md4_process_chunk` is the compression of the standard. -/
theorem md4ProcessChunk_eq (w : Words) (data : List UInt8) :
    md4ProcessChunk w data = md4Compress w data := by
  have hcall : ∀ r : Registers, ∀ i ∈ List.range 48,
      md4Round data r (md4StandardCall i) = step (md4Mix data i) i r := by
    intro r i hi
    have hrot : ∀ x, rotl32 x (md4Rotation i) = x.rotateLeft (md4Rotation i) := fun x =>
      rotl32_eq_rotateLeft x (md4Rotation_lt i (List.mem_range.mp hi))
    simp only [step, assign, md4Round, md4StandardCall, md4Mix, hrot]
  rw [md4ProcessChunk, md4Calls_eq, List.foldl_map, List.foldl_ext _ _ w.registers hcall,
    md4Compress]

/-- `md4_init`, one `md4_update` and `md4_finalize` write the digest of the standard,
whatever the context memory held. -/
theorem md4_writes_digest (ctx : Md4Context) (m dest : List UInt8)
    (hdest : digestLen ≤ dest.length) :
    (do
      let ctx ← md4Update (md4Init ctx) m m.length
      md4Finalize ctx dest) =
        .ok (standardDigest md4Compress m ++ dest.drop digestLen) := by
  obtain ⟨ctx', hupdate, hfinish⟩ := update_finish md4ProcessChunk
    (rfl : (md4Init ctx).size = 0) m
  have hprocess : md4ProcessChunk = md4Compress :=
    funext fun w => funext fun data => md4ProcessChunk_eq w data
  have hinit : (md4Init ctx).chain = initialWords := initialWords_eq.symm
  rw [hinit, hprocess] at hfinish
  rw [md4Update, hupdate, Exec.ok_bind, md4Finalize, md4Finish_eq, hprocess, hfinish,
    Exec.ok_bind, Words.store_ok _ hdest]
  rfl

/-- The message `abc`, with nothing behind the digest. -/
theorem md4_writes_digest_abc :
    (do
      let ctx ← md4Update (md4Init ⟨⟨0, 0, 0, 0⟩, 0, ⟨List.replicate 64 0, rfl⟩⟩) (ascii "abc") 3
      md4Finalize ctx (List.replicate 16 0)) =
        .ok (standardDigest md4Compress (ascii "abc") ++ []) :=
  md4_writes_digest ⟨⟨0, 0, 0, 0⟩, 0, ⟨List.replicate 64 0, rfl⟩⟩ (ascii "abc")
    (List.replicate 16 0) (Nat.le_refl 16)

end Hlibc.Md
