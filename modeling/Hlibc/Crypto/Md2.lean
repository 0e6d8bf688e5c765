import Hlibc.Crypto.MdUpdate

/-!
# MD2

`md2.c`: the checksum, the state, and the functions on a context.
-/

set_option autoImplicit false

namespace Hlibc.Md

set_option maxRecDepth 4000 in
/-- Substitution table. -/
def md2Subst : Vector UInt8 256 := #v[
  0x29, 0x2E, 0x43, 0xC9, 0xA2, 0xD8, 0x7C, 0x01, 0x3D, 0x36, 0x54, 0xA1,
  0xEC, 0xF0, 0x06, 0x13, 0x62, 0xA7, 0x05, 0xF3, 0xC0, 0xC7, 0x73, 0x8C,
  0x98, 0x93, 0x2B, 0xD9, 0xBC, 0x4C, 0x82, 0xCA, 0x1E, 0x9B, 0x57, 0x3C,
  0xFD, 0xD4, 0xE0, 0x16, 0x67, 0x42, 0x6F, 0x18, 0x8A, 0x17, 0xE5, 0x12,
  0xBE, 0x4E, 0xC4, 0xD6, 0xDA, 0x9E, 0xDE, 0x49, 0xA0, 0xFB, 0xF5, 0x8E,
  0xBB, 0x2F, 0xEE, 0x7A, 0xA9, 0x68, 0x79, 0x91, 0x15, 0xB2, 0x07, 0x3F,
  0x94, 0xC2, 0x10, 0x89, 0x0B, 0x22, 0x5F, 0x21, 0x80, 0x7F, 0x5D, 0x9A,
  0x5A, 0x90, 0x32, 0x27, 0x35, 0x3E, 0xCC, 0xE7, 0xBF, 0xF7, 0x97, 0x03,
  0xFF, 0x19, 0x30, 0xB3, 0x48, 0xA5, 0xB5, 0xD1, 0xD7, 0x5E, 0x92, 0x2A,
  0xAC, 0x56, 0xAA, 0xC6, 0x4F, 0xB8, 0x38, 0xD2, 0x96, 0xA4, 0x7D, 0xB6,
  0x76, 0xFC, 0x6B, 0xE2, 0x9C, 0x74, 0x04, 0xF1, 0x45, 0x9D, 0x70, 0x59,
  0x64, 0x71, 0x87, 0x20, 0x86, 0x5B, 0xCF, 0x65, 0xE6, 0x2D, 0xA8, 0x02,
  0x1B, 0x60, 0x25, 0xAD, 0xAE, 0xB0, 0xB9, 0xF6, 0x1C, 0x46, 0x61, 0x69,
  0x34, 0x40, 0x7E, 0x0F, 0x55, 0x47, 0xA3, 0x23, 0xDD, 0x51, 0xAF, 0x3A,
  0xC3, 0x5C, 0xF9, 0xCE, 0xBA, 0xC5, 0xEA, 0x26, 0x2C, 0x53, 0x0D, 0x6E,
  0x85, 0x28, 0x84, 0x09, 0xD3, 0xDF, 0xCD, 0xF4, 0x41, 0x81, 0x4D, 0x52,
  0x6A, 0xDC, 0x37, 0xC8, 0x6C, 0xC1, 0xAB, 0xFA, 0x24, 0xE1, 0x7B, 0x08,
  0x0C, 0xBD, 0xB1, 0x4A, 0x78, 0x88, 0x95, 0x8B, 0xE3, 0x63, 0xE8, 0x6D,
  0xE9, 0xCB, 0xD5, 0xFE, 0x3B, 0x00, 0x1D, 0x39, 0xF2, 0xEF, 0xB7, 0x0E,
  0x66, 0x58, 0xD0, 0xE4, 0xA6, 0x77, 0x72, 0xF8, 0xEB, 0x75, 0x4B, 0x0A,
  0x31, 0x44, 0x50, 0xB4, 0x8F, 0xED, 0x1F, 0x1A, 0xDB, 0x99, 0x8D, 0x33,
  0x9F, 0x11, 0x83, 0x14]

/-- The state and the checksum of a context. -/
structure Md2Chain where
  state : Vector UInt8 16
  checksum : Vector UInt8 16
  deriving DecidableEq

/-- `struct md2_context`. -/
abbrev Md2Context := Context Md2Chain 16

/-- The loop of `md2_update_checksum`. -/
def md2UpdateChecksum (checksum : Vector UInt8 16) (data : List UInt8) :
    Vector UInt8 16 :=
  ((List.finRange 16).foldl
    (fun (checksum, last) i =>
      let byte := checksum.get i ^^^ md2Subst.get (data.getD i 0 ^^^ last).toFin
      (checksum.set i byte, byte))
    (checksum, checksum.get 15)).1

/-- One pass over an array of `md2_update_state`; `tmp`, an `int` of the source,
always holds a byte. -/
def md2Pass {n : ℕ} (array : Vector UInt8 n) (tmp : UInt8) : Vector UInt8 n × UInt8 :=
  (List.finRange n).foldl
    (fun (array, tmp) j =>
      let byte := array.get j ^^^ md2Subst.get tmp.toFin
      (array.set j byte, byte))
    (array, tmp)

/-- `md2_update_state`, with seventeen whole rounds and a last one that leaves
the buffer alone. -/
def md2UpdateState (state : Vector UInt8 16) (data : List UInt8) : Vector UInt8 16 :=
  let buffer : Vector UInt8 32 := Vector.ofFn fun i =>
    if h : i < 16 then data.getD i 0
    else state.get ⟨i - 16, by omega⟩ ^^^ data.getD (i - 16) 0
  let (state, _, tmp) := (List.range 17).foldl
    (fun (state, buffer, tmp) i =>
      let (state, tmp) := md2Pass state tmp
      let (buffer, tmp) := md2Pass buffer tmp
      (state, buffer, tmp + UInt8.ofNat i))
    (state, buffer, 0)
  (md2Pass state tmp).1

/-- What the loop of `md2_update` does with a block. -/
def md2ProcessChunk (chain : Md2Chain) (data : List UInt8) : Md2Chain where
  state := md2UpdateState chain.state data
  checksum := md2UpdateChecksum chain.checksum data

/-- The block size of MD2, and the mask 15. -/
abbrev geometry16 : Geometry where
  block := 16
  mask := 15
  block_pos := Nat.zero_lt_succ 15
  block_dvd := by decide
  used_eq := by
    intro size
    rw [BitVec.toNat_and]
    exact Nat.and_two_pow_sub_one_eq_mod size.toNat 4

/-- `md2_init` zeroes the whole context. -/
def md2Init (_ctx : Md2Context) : Md2Context where
  chain := { state := Vector.replicate 16 0, checksum := Vector.replicate 16 0 }
  size := 0
  tail := ⟨List.replicate 16 0, List.length_replicate⟩

def md2Update (ctx : Md2Context) (src : List UInt8) (size : ℕ) : Exec Md2Context :=
  update geometry16 md2ProcessChunk ctx src size

def md2Finalize (ctx : Md2Context) (dest : List UInt8) : Exec (List UInt8) := do
  let used := (ctx.size &&& 15).toNat
  let comp := 16 - used
  let tail ← (List.range' used comp).foldlM
    (fun tail i => tail.write i [UInt8.ofNat comp]) ctx.tail
  let chain := md2ProcessChunk ctx.chain tail.bytes
  let state := md2UpdateState chain.state chain.checksum.toList
  memcpy dest 0 state.toList 0 16

/-- The padding loop writes up to the end of the tail. -/
theorem foldlM_write {tail : Buffer 16} {done : List UInt8} {used k : ℕ} (byte : UInt8)
    (hdone : tail.bytes.take used = done) (hk : used + k ≤ 16) :
    ∃ tail', (List.range' used k).foldlM
        (fun (tail : Buffer 16) i => tail.write i [byte]) tail = .ok tail' ∧
      tail'.bytes.take (used + k) = done ++ List.replicate k byte := by
  induction k generalizing tail done used with
  | zero => exact ⟨tail, rfl, by rw [List.replicate_zero, List.append_nil]; exact hdone⟩
  | succ k ih =>
      have hroom : used + [byte].length ≤ 16 := by
        rw [List.length_singleton]
        omega
      obtain ⟨next, hwrite, hnext⟩ := Buffer.write_append hdone (by omega) hroom
      obtain ⟨tail', hrest, htail'⟩ := ih hnext (by rw [List.length_singleton]; omega)
      refine ⟨tail', ?_, ?_⟩
      · rw [List.range'_succ, List.foldlM_cons, hwrite, Exec.ok_bind]
        exact hrest
      · rw [List.length_singleton] at htail'
        rw [Nat.add_comm k 1, ← Nat.add_assoc, htail', List.append_assoc, Nat.add_comm 1 k,
          List.replicate_succ, List.singleton_append]

/-- The state after the last bytes of the stream: they are padded with the
number of missing bytes, and the checksum comes as one more block. -/
def md2LastState (chain : Md2Chain) (pend : List UInt8) : Vector UInt8 16 :=
  let comp := 16 - pend.length
  let chain := md2ProcessChunk chain (pend ++ List.replicate comp (UInt8.ofNat comp))
  md2UpdateState chain.state chain.checksum.toList

theorem md2Finalize_eq (ctx : Md2Context) (dest : List UInt8) :
    md2Finalize ctx dest = writeBytes dest 0
      (md2LastState ctx.chain (ctx.tail.bytes.take (ctx.size &&& 15).toNat)).toList := by
  have hused : (ctx.size &&& 15).toNat < 16 := by
    have hmod := geometry16.used_eq ctx.size
    change (ctx.size &&& 15).toNat = ctx.size.toNat % 16 at hmod
    omega
  set used := (ctx.size &&& 15).toNat with hdef
  have hpend : (ctx.tail.bytes.take used).length = used := by
    rw [List.length_take, ctx.tail.length_bytes]
    omega
  have hsum : used + (16 - used) = 16 := Nat.add_sub_cancel' (Nat.le_of_lt hused)
  obtain ⟨tail, hfill, htail⟩ := foldlM_write (UInt8.ofNat (16 - used))
    (rfl : ctx.tail.bytes.take used = _) (Nat.le_of_eq hsum)
  rw [hsum] at htail
  have hread : ∀ v : Vector UInt8 16, readBytes v.toList 0 16 = .ok v.toList := by
    intro v
    have hlen : v.toList.length = 16 := v.length_toList
    rw [readBytes_of_le (by omega), List.drop_zero, List.take_of_length_le (by omega)]
  simp only [md2Finalize, md2LastState, ← hdef, hfill, Exec.ok_bind, memcpy, hread, hpend,
    Buffer.bytes_eq_of_take htail]

end Hlibc.Md
