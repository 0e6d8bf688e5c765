import Hlibc.Crypto.MdFinish

/-!
# MD5

`md5.c`: the compression of a block, and the functions on a context.
-/

set_option autoImplicit false

namespace Hlibc.Md

/-- `struct md5_context`. -/
abbrev Md5Context := Context Words 64

def md5F (x y z : BitVec 32) : BitVec 32 := (x &&& y) ||| (~~~x &&& z)

def md5G (x y z : BitVec 32) : BitVec 32 := (x &&& z) ||| (y &&& ~~~z)

def md5H (x y z : BitVec 32) : BitVec 32 := x ^^^ y ^^^ z

def md5I (x y z : BitVec 32) : BitVec 32 := y ^^^ (x ||| ~~~z)

/-- `MD5_ROUND`, on the word of the block that `MD5_GET` reads. -/
def md5Round (data : List UInt8) (r : Registers) (call : RoundCall) : Registers :=
  assign (fun a b c d => b + rotl32 (a + call.fn b c d + getWord data call.idx + call.t) call.s) r
    call.a call.b call.c call.d

set_option maxRecDepth 2000 in
/-- The rounds of `md5_process_chunk`, with the variables as the source names them. -/
def md5Calls : List RoundCall :=
  let a := registerA
  let b := registerB
  let c := registerC
  let d := registerD
  [
    ⟨md5F, a, b, c, d, 0, 0xD76AA478, 7⟩,
    ⟨md5F, d, a, b, c, 1, 0xE8C7B756, 12⟩,
    ⟨md5F, c, d, a, b, 2, 0x242070DB, 17⟩,
    ⟨md5F, b, c, d, a, 3, 0xC1BDCEEE, 22⟩,
    ⟨md5F, a, b, c, d, 4, 0xF57C0FAF, 7⟩,
    ⟨md5F, d, a, b, c, 5, 0x4787C62A, 12⟩,
    ⟨md5F, c, d, a, b, 6, 0xA8304613, 17⟩,
    ⟨md5F, b, c, d, a, 7, 0xFD469501, 22⟩,
    ⟨md5F, a, b, c, d, 8, 0x698098D8, 7⟩,
    ⟨md5F, d, a, b, c, 9, 0x8B44F7AF, 12⟩,
    ⟨md5F, c, d, a, b, 10, 0xFFFF5BB1, 17⟩,
    ⟨md5F, b, c, d, a, 11, 0x895CD7BE, 22⟩,
    ⟨md5F, a, b, c, d, 12, 0x6B901122, 7⟩,
    ⟨md5F, d, a, b, c, 13, 0xFD987193, 12⟩,
    ⟨md5F, c, d, a, b, 14, 0xA679438E, 17⟩,
    ⟨md5F, b, c, d, a, 15, 0x49B40821, 22⟩,
    ⟨md5G, a, b, c, d, 1, 0xF61E2562, 5⟩,
    ⟨md5G, d, a, b, c, 6, 0xC040B340, 9⟩,
    ⟨md5G, c, d, a, b, 11, 0x265E5A51, 14⟩,
    ⟨md5G, b, c, d, a, 0, 0xE9B6C7AA, 20⟩,
    ⟨md5G, a, b, c, d, 5, 0xD62F105D, 5⟩,
    ⟨md5G, d, a, b, c, 10, 0x2441453, 9⟩,
    ⟨md5G, c, d, a, b, 15, 0xD8A1E681, 14⟩,
    ⟨md5G, b, c, d, a, 4, 0xE7D3FBC8, 20⟩,
    ⟨md5G, a, b, c, d, 9, 0x21E1CDE6, 5⟩,
    ⟨md5G, d, a, b, c, 14, 0xC33707D6, 9⟩,
    ⟨md5G, c, d, a, b, 3, 0xF4D50D87, 14⟩,
    ⟨md5G, b, c, d, a, 8, 0x455A14ED, 20⟩,
    ⟨md5G, a, b, c, d, 13, 0xA9E3E905, 5⟩,
    ⟨md5G, d, a, b, c, 2, 0xFCEFA3F8, 9⟩,
    ⟨md5G, c, d, a, b, 7, 0x676F02D9, 14⟩,
    ⟨md5G, b, c, d, a, 12, 0x8D2A4C8A, 20⟩,
    ⟨md5H, a, b, c, d, 5, 0xFFFA3942, 4⟩,
    ⟨md5H, d, a, b, c, 8, 0x8771F681, 11⟩,
    ⟨md5H, c, d, a, b, 11, 0x6D9D6122, 16⟩,
    ⟨md5H, b, c, d, a, 14, 0xFDE5380C, 23⟩,
    ⟨md5H, a, b, c, d, 1, 0xA4BEEA44, 4⟩,
    ⟨md5H, d, a, b, c, 4, 0x4BDECFA9, 11⟩,
    ⟨md5H, c, d, a, b, 7, 0xF6BB4B60, 16⟩,
    ⟨md5H, b, c, d, a, 10, 0xBEBFBC70, 23⟩,
    ⟨md5H, a, b, c, d, 13, 0x289B7EC6, 4⟩,
    ⟨md5H, d, a, b, c, 0, 0xEAA127FA, 11⟩,
    ⟨md5H, c, d, a, b, 3, 0xD4EF3085, 16⟩,
    ⟨md5H, b, c, d, a, 6, 0x4881D05, 23⟩,
    ⟨md5H, a, b, c, d, 9, 0xD9D4D039, 4⟩,
    ⟨md5H, d, a, b, c, 12, 0xE6DB99E5, 11⟩,
    ⟨md5H, c, d, a, b, 15, 0x1FA27CF8, 16⟩,
    ⟨md5H, b, c, d, a, 2, 0xC4AC5665, 23⟩,
    ⟨md5I, a, b, c, d, 0, 0xF4292244, 6⟩,
    ⟨md5I, d, a, b, c, 7, 0x432AFF97, 10⟩,
    ⟨md5I, c, d, a, b, 14, 0xAB9423A7, 15⟩,
    ⟨md5I, b, c, d, a, 5, 0xFC93A039, 21⟩,
    ⟨md5I, a, b, c, d, 12, 0x655B59C3, 6⟩,
    ⟨md5I, d, a, b, c, 3, 0x8F0CCC92, 10⟩,
    ⟨md5I, c, d, a, b, 10, 0xFFEFF47D, 15⟩,
    ⟨md5I, b, c, d, a, 1, 0x85845DD1, 21⟩,
    ⟨md5I, a, b, c, d, 8, 0x6FA87E4F, 6⟩,
    ⟨md5I, d, a, b, c, 15, 0xFE2CE6E0, 10⟩,
    ⟨md5I, c, d, a, b, 6, 0xA3014314, 15⟩,
    ⟨md5I, b, c, d, a, 13, 0x4E0811A1, 21⟩,
    ⟨md5I, a, b, c, d, 4, 0xF7537E82, 6⟩,
    ⟨md5I, d, a, b, c, 11, 0xBD3AF235, 10⟩,
    ⟨md5I, c, d, a, b, 2, 0x2AD7D2BB, 15⟩,
    ⟨md5I, b, c, d, a, 9, 0xEB86D391, 21⟩]

def md5ProcessChunk (ctx : Words) (data : List UInt8) : Words :=
  ctx.add (registersWords (md5Calls.foldl (md5Round data) ctx.registers))

/-- `md5_init`; the tail keeps its bytes. -/
def md5Init (ctx : Md5Context) : Md5Context :=
  { ctx with
    chain := { a := 0x67452301, b := 0xEFCDAB89, c := 0x98BADCFE, d := 0x10325476 }
    size := 0 }

def md5Update (ctx : Md5Context) (src : List UInt8) (size : ℕ) : Exec Md5Context :=
  update geometry64 md5ProcessChunk ctx src size

def md5Finalize (ctx : Md5Context) (dest : List UInt8) : Exec (List UInt8) := do
  let chain ← finish md5ProcessChunk ctx
  chain.store dest

end Hlibc.Md
