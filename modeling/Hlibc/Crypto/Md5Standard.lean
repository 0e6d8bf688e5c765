import Hlibc.Crypto.Md5
import Hlibc.Crypto.MdStandard

/-!
# The MD5 digest

The standard gives the 64 steps by the step number: function, word of the
block, constant and rotation.  `md5_process_chunk` writes them out, and
`md5_finalize` ends with the digest of the padded message.
-/

set_option autoImplicit false

namespace Hlibc.Md

/-! ## The compression of the standard -/

/-- The constant of step `i` is the integer part of `2 ^ 32 * |sin (i + 1)|`. -/
def md5Sines : List ℕ := [
  3614090360, 3905402710, 606105819, 3250441966, 4118548399, 1200080426,
  2821735955, 4249261313, 1770035416, 2336552879, 4294925233, 2304563134,
  1804603682, 4254626195, 2792965006, 1236535329, 4129170786, 3225465664,
  643717713, 3921069994, 3593408605, 38016083, 3634488961, 3889429448,
  568446438, 3275163606, 4107603335, 1163531501, 2850285829, 4243563512,
  1735328473, 2368359562, 4294588738, 2272392833, 1839030562, 4259657740,
  2763975236, 1272893353, 4139469664, 3200236656, 681279174, 3936430074,
  3572445317, 76029189, 3654602809, 3873151461, 530742520, 3299628645,
  4096336452, 1126891415, 2878612391, 4237533241, 1700485571, 2399980690,
  4293915773, 2240044497, 1873313359, 4264355552, 2734768916, 1309151649,
  4149444226, 3174756917, 718787259, 3951481745]

/-- The function of step `i`. -/
def md5Function (i : ℕ) : BitVec 32 → BitVec 32 → BitVec 32 → BitVec 32 :=
  if i < 16 then fun x y z => x &&& y ||| ~~~x &&& z
  else if i < 32 then fun x y z => x &&& z ||| y &&& ~~~z
  else if i < 48 then fun x y z => x ^^^ y ^^^ z
  else fun x y z => y ^^^ (x ||| ~~~z)

/-- The word of the block that step `i` takes. -/
def md5Index (i : ℕ) : ℕ :=
  if i < 16 then i
  else if i < 32 then (5 * i + 1) % 16
  else if i < 48 then (3 * i + 5) % 16
  else 7 * i % 16

/-- The rotation of step `i`. -/
def md5Rotation (i : ℕ) : ℕ :=
  ([[7, 12, 17, 22], [5, 9, 14, 20], [4, 11, 16, 23], [6, 10, 15, 21]].getD (i / 16) []).getD
    (i % 4) 0

/-- `a = b + ((a + F(b, c, d) + X[k] + T[i]) <<< s)`. -/
def md5Mix (data : List UInt8) (i : ℕ) : Mix := fun a b c d =>
  b + (a + md5Function i b c d + getWord data (md5Index i) +
    BitVec.ofNat 32 (md5Sines.getD i 0)).rotateLeft (md5Rotation i)

/-- The compression of the standard. -/
def md5Compress (w : Words) (data : List UInt8) : Words :=
  w.add (registersWords ((List.range 64).foldl (fun r i => step (md5Mix data i) i r)
    w.registers))

example : standardDigest md5Compress (ascii "abc") =
    [0x90, 0x01, 0x50, 0x98, 0x3c, 0xd2, 0x4f, 0xb0, 0xd6, 0x96, 0x3f, 0x7d, 0x28, 0xe1, 0x7f,
      0x72] := by decide +kernel

/-! ## The rounds of the source -/

/-- The call that the standard makes step `i`. -/
def md5StandardCall (i : ℕ) : RoundCall where
  fn := md5Function i
  a := role i 0
  b := role i 1
  c := role i 2
  d := role i 3
  idx := md5Index i
  t := BitVec.ofNat 32 (md5Sines.getD i 0)
  s := md5Rotation i

set_option maxRecDepth 4000 in
theorem md5Calls_eq : md5Calls = (List.range 64).map md5StandardCall := rfl

theorem md5Rotation_lt (i : ℕ) (hi : i < 64) : md5Rotation i < 32 := by
  have hall : ∀ i < 64, md5Rotation i < 32 := by decide
  exact hall i hi

/-! ## The code computes the standard -/

/-- `md5_process_chunk` is the compression of the standard. -/
theorem md5ProcessChunk_eq (w : Words) (data : List UInt8) :
    md5ProcessChunk w data = md5Compress w data := by
  have hcall : ∀ r : Registers, ∀ i ∈ List.range 64,
      md5Round data r (md5StandardCall i) = step (md5Mix data i) i r := by
    intro r i hi
    have hrot : ∀ x, rotl32 x (md5Rotation i) = x.rotateLeft (md5Rotation i) := fun x =>
      rotl32_eq_rotateLeft x (md5Rotation_lt i (List.mem_range.mp hi))
    simp only [step, assign, md5Round, md5StandardCall, md5Mix, hrot]
  rw [md5ProcessChunk, md5Calls_eq, List.foldl_map, List.foldl_ext _ _ w.registers hcall,
    md5Compress]

/-- `md5_init`, one `md5_update` and `md5_finalize` write the digest of the standard,
whatever the context memory held. -/
theorem md5_writes_digest (ctx : Md5Context) (m dest : List UInt8)
    (hdest : digestLen ≤ dest.length) :
    (do
      let ctx ← md5Update (md5Init ctx) m m.length
      md5Finalize ctx dest) =
        .ok (standardDigest md5Compress m ++ dest.drop digestLen) := by
  obtain ⟨ctx', hupdate, hfinish⟩ := update_finish md5ProcessChunk
    (rfl : (md5Init ctx).size = 0) m
  have hprocess : md5ProcessChunk = md5Compress :=
    funext fun w => funext fun data => md5ProcessChunk_eq w data
  have hinit : (md5Init ctx).chain = initialWords := initialWords_eq.symm
  rw [hinit, hprocess] at hfinish
  rw [md5Update, hupdate, Exec.ok_bind, md5Finalize, hprocess, hfinish, Exec.ok_bind,
    Words.store_ok _ hdest]
  rfl

/-- The message `abc`, with nothing behind the digest. -/
theorem md5_writes_digest_abc :
    (do
      let ctx ← md5Update (md5Init ⟨⟨0, 0, 0, 0⟩, 0, ⟨List.replicate 64 0, rfl⟩⟩) (ascii "abc") 3
      md5Finalize ctx (List.replicate 16 0)) =
        .ok (standardDigest md5Compress (ascii "abc") ++ []) :=
  md5_writes_digest ⟨⟨0, 0, 0, 0⟩, 0, ⟨List.replicate 64 0, rfl⟩⟩ (ascii "abc")
    (List.replicate 16 0) (Nat.le_refl 16)

end Hlibc.Md
