import Hlibc.Crypto.MdFinish

/-!
# MD4

`md4.c`: the compression of a block, and the functions on a context.
-/

set_option autoImplicit false

namespace Hlibc.Md

/-- `struct md4_context`. -/
abbrev Md4Context := Context Words 64

def md4F (x y z : BitVec 32) : BitVec 32 := (x &&& y) ||| (~~~x &&& z)

def md4G (x y z : BitVec 32) : BitVec 32 := (x &&& y) ||| (x &&& z) ||| (y &&& z)

def md4H (x y z : BitVec 32) : BitVec 32 := x ^^^ y ^^^ z

/-- `MD4_ROUND`, on the word of the block that `MD4_GET` reads. -/
def md4Round (data : List UInt8) (r : Registers) (call : RoundCall) : Registers :=
  assign (fun a b c d => rotl32 (a + call.fn b c d + getWord data call.idx + call.t) call.s) r
    call.a call.b call.c call.d

set_option maxRecDepth 2000 in
/-- The rounds of `md4_process_chunk`, with the variables as the source names them. -/
def md4Calls : List RoundCall :=
  let a := registerA
  let b := registerB
  let c := registerC
  let d := registerD
  [
    ⟨md4F, a, b, c, d, 0, 0, 3⟩,
    ⟨md4F, d, a, b, c, 1, 0, 7⟩,
    ⟨md4F, c, d, a, b, 2, 0, 11⟩,
    ⟨md4F, b, c, d, a, 3, 0, 19⟩,
    ⟨md4F, a, b, c, d, 4, 0, 3⟩,
    ⟨md4F, d, a, b, c, 5, 0, 7⟩,
    ⟨md4F, c, d, a, b, 6, 0, 11⟩,
    ⟨md4F, b, c, d, a, 7, 0, 19⟩,
    ⟨md4F, a, b, c, d, 8, 0, 3⟩,
    ⟨md4F, d, a, b, c, 9, 0, 7⟩,
    ⟨md4F, c, d, a, b, 10, 0, 11⟩,
    ⟨md4F, b, c, d, a, 11, 0, 19⟩,
    ⟨md4F, a, b, c, d, 12, 0, 3⟩,
    ⟨md4F, d, a, b, c, 13, 0, 7⟩,
    ⟨md4F, c, d, a, b, 14, 0, 11⟩,
    ⟨md4F, b, c, d, a, 15, 0, 19⟩,
    ⟨md4G, a, b, c, d, 0, 0x5A827999, 3⟩,
    ⟨md4G, d, a, b, c, 4, 0x5A827999, 5⟩,
    ⟨md4G, c, d, a, b, 8, 0x5A827999, 9⟩,
    ⟨md4G, b, c, d, a, 12, 0x5A827999, 13⟩,
    ⟨md4G, a, b, c, d, 1, 0x5A827999, 3⟩,
    ⟨md4G, d, a, b, c, 5, 0x5A827999, 5⟩,
    ⟨md4G, c, d, a, b, 9, 0x5A827999, 9⟩,
    ⟨md4G, b, c, d, a, 13, 0x5A827999, 13⟩,
    ⟨md4G, a, b, c, d, 2, 0x5A827999, 3⟩,
    ⟨md4G, d, a, b, c, 6, 0x5A827999, 5⟩,
    ⟨md4G, c, d, a, b, 10, 0x5A827999, 9⟩,
    ⟨md4G, b, c, d, a, 14, 0x5A827999, 13⟩,
    ⟨md4G, a, b, c, d, 3, 0x5A827999, 3⟩,
    ⟨md4G, d, a, b, c, 7, 0x5A827999, 5⟩,
    ⟨md4G, c, d, a, b, 11, 0x5A827999, 9⟩,
    ⟨md4G, b, c, d, a, 15, 0x5A827999, 13⟩,
    ⟨md4H, a, b, c, d, 0, 0x6ED9EBA1, 3⟩,
    ⟨md4H, d, a, b, c, 8, 0x6ED9EBA1, 9⟩,
    ⟨md4H, c, d, a, b, 4, 0x6ED9EBA1, 11⟩,
    ⟨md4H, b, c, d, a, 12, 0x6ED9EBA1, 15⟩,
    ⟨md4H, a, b, c, d, 2, 0x6ED9EBA1, 3⟩,
    ⟨md4H, d, a, b, c, 10, 0x6ED9EBA1, 9⟩,
    ⟨md4H, c, d, a, b, 6, 0x6ED9EBA1, 11⟩,
    ⟨md4H, b, c, d, a, 14, 0x6ED9EBA1, 15⟩,
    ⟨md4H, a, b, c, d, 1, 0x6ED9EBA1, 3⟩,
    ⟨md4H, d, a, b, c, 9, 0x6ED9EBA1, 9⟩,
    ⟨md4H, c, d, a, b, 5, 0x6ED9EBA1, 11⟩,
    ⟨md4H, b, c, d, a, 13, 0x6ED9EBA1, 15⟩,
    ⟨md4H, a, b, c, d, 3, 0x6ED9EBA1, 3⟩,
    ⟨md4H, d, a, b, c, 11, 0x6ED9EBA1, 9⟩,
    ⟨md4H, c, d, a, b, 7, 0x6ED9EBA1, 11⟩,
    ⟨md4H, b, c, d, a, 15, 0x6ED9EBA1, 15⟩]

def md4ProcessChunk (ctx : Words) (data : List UInt8) : Words :=
  ctx.add (registersWords (md4Calls.foldl (md4Round data) ctx.registers))

/-- `md4_init`; the tail keeps its bytes. -/
def md4Init (ctx : Md4Context) : Md4Context :=
  { ctx with
    chain := { a := 0x67452301, b := 0xEFCDAB89, c := 0x98BADCFE, d := 0x10325476 }
    size := 0 }

def md4Update (ctx : Md4Context) (src : List UInt8) (size : ℕ) : Exec Md4Context :=
  update geometry64 md4ProcessChunk ctx src size

/-- The padding of `md4_finalize`, which counts from the last byte written. -/
def md4Finish (process : Words → List UInt8 → Words) (ctx : Md4Context) :
    Exec Words := do
  let mod : ℤ := (ctx.size &&& 63).toNat
  let tail ← ctx.tail.write mod.toNat [128]
  let (chain, tail, mod) ←
    (if mod ≥ 56 then do
      let tail ← tail.zero (mod + 1).toNat (63 - mod).toNat
      .ok (process ctx.chain tail.bytes, tail, -1)
    else .ok (ctx.chain, tail, mod) : Exec (Words × Buffer 64 × ℤ))
  let tail ← tail.zero (mod + 1).toNat (55 - mod).toNat
  let tail ← tail.write 56 (leBytes 8 (ctx.size <<< 3))
  .ok (process chain tail.bytes)

def md4Finalize (ctx : Md4Context) (dest : List UInt8) : Exec (List UInt8) := do
  let chain ← md4Finish md4ProcessChunk ctx
  chain.store dest

/-- Counting from the last byte written comes to the same as counting the bytes
used. -/
theorem md4Finish_eq (process : Words → List UInt8 → Words) (ctx : Md4Context) :
    md4Finish process ctx = finish process ctx := by
  set used := (ctx.size &&& 63).toNat with hused
  have hmod : (used : ℤ).toNat = used := Int.toNat_natCast used
  have hnext : ((used : ℤ) + 1).toNat = used + 1 := by omega
  have hrest : (63 - (used : ℤ)).toNat = 64 - (used + 1) := by omega
  have hgap : (55 - (used : ℤ)).toNat = 56 - (used + 1) := by omega
  have hstart : ((-1 : ℤ) + 1).toNat = 0 := by omega
  have hwhole : (55 - (-1 : ℤ)).toNat = 56 := by omega
  simp only [md4Finish, finish, ← hused, hmod]
  cases ctx.tail.write used [128] with
  | error e => simp only [Exec.error_bind]
  | ok tail =>
      by_cases hlong : used + 1 > 56
      · have hlong' : (used : ℤ) ≥ 56 := by omega
        simp only [Exec.ok_bind, if_pos hlong, if_pos hlong', hnext, hrest]
        cases tail.zero (used + 1) (64 - (used + 1)) with
        | error e => simp only [Exec.error_bind]
        | ok first => simp only [Exec.ok_bind, hstart, hwhole]
      · have hlong' : ¬ (used : ℤ) ≥ 56 := by omega
        simp only [Exec.ok_bind, if_neg hlong, if_neg hlong', hnext, hgap]

end Hlibc.Md
