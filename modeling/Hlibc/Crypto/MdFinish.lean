import Hlibc.Bit
import Hlibc.Crypto.MdUpdate

/-!
# What MD4 and MD5 have in common

Both write out their rounds as assignments to four variables that take turns.  They end a
message with a one bit, zeros and the length in bits, and write out the four words of the
chaining state.
-/

set_option autoImplicit false

namespace Hlibc.Md

/-- The chaining state of MD4 and MD5. -/
structure Words where
  a : BitVec 32
  b : BitVec 32
  c : BitVec 32
  d : BitVec 32
  deriving DecidableEq

/-- `MD4_GET` and `MD5_GET`: word `idx` of a block. -/
def getWord (data : List UInt8) (idx : ℕ) : BitVec 32 :=
  leWord 32 ((data.drop (4 * idx)).take 4)

/-- The words are added to those at the start of the block. -/
def Words.add (w v : Words) : Words where
  a := w.a + v.a
  b := w.b + v.b
  c := w.c + v.c
  d := w.d + v.d

/-! ## Rounds -/

/-- The variables `a`, `b`, `c` and `d`. -/
abbrev Registers := Vector (BitVec 32) 4

def registerA : Fin 4 := 0
def registerB : Fin 4 := 1
def registerC : Fin 4 := 2
def registerD : Fin 4 := 3

/-- The words in the variables. -/
def Words.registers (w : Words) : Registers := #v[w.a, w.b, w.c, w.d]

/-- The four words that are in the variables. -/
def registersWords (r : Registers) : Words where
  a := r.get 0
  b := r.get 1
  c := r.get 2
  d := r.get 3

/-- The new value of the variable named first, from the four in the order named. -/
abbrev Mix := BitVec 32 → BitVec 32 → BitVec 32 → BitVec 32 → BitVec 32

/-- An assignment to the variable `a`. -/
def assign (f : Mix) (r : Registers) (a b c d : Fin 4) : Registers :=
  r.set a (f (r.get a) (r.get b) (r.get c) (r.get d))

/-- A call of `MD4_ROUND` or `MD5_ROUND`: the function, the variables in the order
named, the word of the block, the constant and the rotation. -/
structure RoundCall where
  fn : BitVec 32 → BitVec 32 → BitVec 32 → BitVec 32
  a : Fin 4
  b : Fin 4
  c : Fin 4
  d : Fin 4
  idx : ℕ
  t : BitVec 32
  s : ℕ

/-! ## The last blocks -/

/-- `MD4_DIGEST_LEN` and `MD5_DIGEST_LEN`. -/
def digestLen : ℕ := 16

/-- The words of the chaining state, written out. -/
def Words.store (w : Words) (dest : List UInt8) : Exec (List UInt8) := do
  let dest ← putUnalignedLe32 w.a dest 0
  let dest ← putUnalignedLe32 w.b dest 4
  let dest ← putUnalignedLe32 w.c dest 8
  putUnalignedLe32 w.d dest 12

/-- The block size of MD4 and MD5, and the mask `0x3F`. -/
abbrev geometry64 : Geometry where
  block := 64
  mask := 0x3F
  block_pos := Nat.zero_lt_succ 63
  block_dvd := by decide
  used_eq := by
    intro size
    rw [BitVec.toNat_and]
    exact Nat.and_two_pow_sub_one_eq_mod size.toNat 6

/-- The padding of MD5: the chaining state after the last blocks. -/
def finish (process : Words → List UInt8 → Words) (ctx : Context Words 64) :
    Exec Words := do
  let used := (ctx.size &&& 63).toNat
  let tail ← ctx.tail.write used [128]
  let used := used + 1
  if used > 56 then do
    let tail ← tail.zero used (64 - used)
    let chain := process ctx.chain tail.bytes
    let tail ← tail.zero 0 56
    let tail ← tail.write 56 (leBytes 8 (ctx.size <<< 3))
    .ok (process chain tail.bytes)
  else do
    let tail ← tail.zero used (56 - used)
    let tail ← tail.write 56 (leBytes 8 (ctx.size <<< 3))
    .ok (process ctx.chain tail.bytes)

/-- The one bit, the zeros and the length behind a last block of `used` bytes. -/
def lengthPadding (used : ℕ) (size : BitVec 64) : List UInt8 :=
  (128 : UInt8) :: List.replicate (if used < 56 then 55 - used else 119 - used) 0 ++
    leBytes 8 (size <<< 3)

/-- The length closes a block whose first 56 bytes are known. -/
theorem write_length {tail : Buffer 64} {front : List UInt8}
    (hfront : tail.bytes.take 56 = front) (size : BitVec 64) :
    ∃ tail' : Buffer 64, tail.write 56 (leBytes 8 (size <<< 3)) = .ok tail' ∧
      tail'.bytes = front ++ leBytes 8 (size <<< 3) := by
  obtain ⟨tail', hwrite, hbytes⟩ := Buffer.write_append hfront (by decide)
    (by rw [length_leBytes] : 56 + (leBytes 8 (size <<< 3)).length ≤ 64)
  rw [length_leBytes] at hbytes
  exact ⟨tail', hwrite, Buffer.bytes_eq_of_take hbytes⟩

/-- The last bytes of the stream, padded, are the last one or two blocks. -/
theorem finish_eq (process : Words → List UInt8 → Words) (ctx : Context Words 64) :
    finish process ctx =
      .ok ((blocksOf 64 (ctx.tail.bytes.take (ctx.size &&& 63).toNat ++
        lengthPadding (ctx.size &&& 63).toNat ctx.size)).foldl process ctx.chain) := by
  have hused : (ctx.size &&& 63).toNat < 64 := by
    have hmod := geometry64.used_eq ctx.size
    change (ctx.size &&& 63).toNat = ctx.size.toNat % 64 at hmod
    omega
  set used := (ctx.size &&& 63).toNat with hdef
  set pend := ctx.tail.bytes.take used with hpend
  have hlen : pend.length = used := by
    rw [hpend, List.length_take, ctx.tail.length_bytes]
    omega
  have hbit : used + [(128 : UInt8)].length ≤ 64 := hused
  obtain ⟨tail, hone, htail⟩ := Buffer.write_append hpend.symm (Nat.le_of_lt hused) hbit
  have hplus : used + [(128 : UInt8)].length = used + 1 := rfl
  rw [hplus] at htail
  by_cases hlong : used + 1 > 56
  · obtain ⟨first, hfill, hfirst⟩ := Buffer.zero_append htail hused
      (by omega : used + 1 + (64 - (used + 1)) ≤ 64)
    rw [Nat.add_sub_cancel' hused] at hfirst
    obtain ⟨zeroed, hclear, hzeroed⟩ := Buffer.zero_append
      (List.take_zero : first.bytes.take 0 = []) (Nat.zero_le _)
      (by decide : 0 + 56 ≤ 64)
    obtain ⟨last, hlength, hlast⟩ := write_length hzeroed ctx.size
    have hsplit : pend ++ lengthPadding used ctx.size =
        first.bytes ++ (last.bytes ++ []) := by
      have hzeros : 119 - used = (64 - (used + 1)) + 56 := by omega
      rw [Buffer.bytes_eq_of_take hfirst, hlast, lengthPadding, if_neg (by omega), hzeros,
        ← List.replicate_append_replicate]
      simp
    rw [hsplit, blocksOf_block (by decide) first.length_bytes,
      blocksOf_block (by decide) last.length_bytes]
    simp only [finish, ← hdef, hone, Exec.ok_bind, if_pos hlong, hfill, hclear, hlength]
    rfl
  · obtain ⟨zeroed, hclear, hzeroed⟩ := Buffer.zero_append htail hused
      (by omega : used + 1 + (56 - (used + 1)) ≤ 64)
    rw [Nat.add_sub_cancel' (by omega)] at hzeroed
    obtain ⟨last, hlength, hlast⟩ := write_length hzeroed ctx.size
    have hsplit : pend ++ lengthPadding used ctx.size = last.bytes ++ [] := by
      have hzeros : 55 - used = 56 - (used + 1) := by omega
      rw [hlast, lengthPadding, if_pos (by omega), hzeros]
      simp
    rw [hsplit, blocksOf_block (by decide) last.length_bytes]
    simp only [finish, ← hdef, hone, Exec.ok_bind, if_neg hlong, hclear, hlength]
    rfl

/-- The last blocks depend only on what `Agree` compares. -/
theorem finish_agree (process : Words → List UInt8 → Words)
    {ctx ctx' : Context Words 64} (h : Agree geometry64 ctx ctx') :
    finish process ctx = finish process ctx' := by
  have htail : ctx.tail.bytes.take (ctx.size &&& 63).toNat =
      ctx'.tail.bytes.take (ctx'.size &&& 63).toNat := h.tail_eq
  rw [finish_eq, finish_eq, htail, h.size_eq, h.chain_eq]

/-- A destination of at least `digestLen` bytes takes the four words. -/
theorem Words.store_ok (w : Words) {dest : List UInt8} (h : digestLen ≤ dest.length) :
    w.store dest = .ok (leBytes 4 w.a ++ leBytes 4 w.b ++ leBytes 4 w.c ++
      leBytes 4 w.d ++ dest.drop 16) := by
  have hlen : ∀ x : BitVec 32, (leBytes 4 x).length = 4 := fun x => length_leBytes 4 x
  change 16 ≤ dest.length at h
  have ha : putUnalignedLe32 w.a dest 0 = .ok (leBytes 4 w.a ++ dest.drop 4) :=
    putUnalignedLe32_drop w.a (List.length_nil).symm (by omega)
  have hb := putUnalignedLe32_drop w.b (hlen w.a).symm (by omega : 4 + 4 ≤ dest.length)
  have hc := putUnalignedLe32_drop w.c
    (by simp only [List.length_append, hlen] : 8 = (leBytes 4 w.a ++ leBytes 4 w.b).length)
    (by omega : 8 + 4 ≤ dest.length)
  have hd := putUnalignedLe32_drop w.d
    (by simp only [List.length_append, hlen] :
      12 = (leBytes 4 w.a ++ leBytes 4 w.b ++ leBytes 4 w.c).length)
    (by omega : 12 + 4 ≤ dest.length)
  rw [Words.store, ha, Exec.ok_bind, hb, Exec.ok_bind, hc, Exec.ok_bind, hd]

end Hlibc.Md
