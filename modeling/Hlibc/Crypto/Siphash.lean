import Hlibc.Crypto.WordHash
import Mathlib.Logic.Function.Iterate

/-!
# SipHash

`siphash` adds the bytes behind the last full word to a word that holds the length.  The
specification pads the input with zero bytes and a byte for the length, and knows words
only.
-/

set_option autoImplicit false

namespace Hlibc.Siphash

/-- The variables `v0` to `v3`. -/
structure State where
  v0 : BitVec 64
  v1 : BitVec 64
  v2 : BitVec 64
  v3 : BitVec 64
  deriving DecidableEq

/-! ## The functions of the source -/

/-- `SIPROUND`. -/
def sipround (st : State) : State :=
  let ⟨v0, v1, v2, v3⟩ := st
  let v0 := v0 + v1
  let v2 := v2 + v3
  let v1 := rotl64 v1 13
  let v3 := rotl64 v3 16
  let v1 := v1 ^^^ v0
  let v3 := v3 ^^^ v2
  let v0 := rotl64 v0 32
  let v2 := v2 + v1
  let v0 := v0 + v3
  let v1 := rotl64 v1 17
  let v3 := rotl64 v3 21
  let v1 := v1 ^^^ v2
  let v3 := v3 ^^^ v0
  let v2 := rotl64 v2 32
  ⟨v0, v1, v2, v3⟩

/-- What is done with a block, and with `last`. -/
def sipBlock (st : State) (block : BitVec 64) : State :=
  let st := { st with v3 := st.v3 ^^^ block }
  let st := sipround st
  let st := sipround st
  { st with v0 := st.v0 ^^^ block }

/-- `siphash`. -/
def siphash (input : List UInt8) (size : ℕ) (key out : List UInt8) : Exec (List UInt8) := do
  let tailSize := size &&& 7
  let tail := size - tailSize
  let k0 ← getUnalignedLe64 key 0
  let k1 ← getUnalignedLe64 key 8
  let st : State :=
    { v0 := k0 ^^^ 0x736F6D6570736575
      v1 := k1 ^^^ 0x646F72616E646F6D
      v2 := k0 ^^^ 0x6C7967656E657261
      v3 := k1 ^^^ 0x7465646279746573 }
  let last := BitVec.ofNat 64 size <<< 56
  let st ← loop (wordPass (getUnalignedLe64 input) 8 sipBlock tail) (size + 1) (0, st)
  let last ← tailCases input tail tailSize last
  let st := sipBlock st last
  let st := { st with v2 := st.v2 ^^^ 0xFF }
  let st := sipround st
  let st := sipround st
  let st := sipround st
  let st := sipround st
  let hash := st.v0 ^^^ st.v1 ^^^ st.v2 ^^^ st.v3
  putUnalignedLe64 hash out 0

/-! ## The specification -/

/-- The SipRound of the specification, half by half. -/
def sipRound (v : State) : State :=
  let v := { v with v0 := v.v0 + v.v1 }
  let v := { v with v1 := v.v1.rotateLeft 13 }
  let v := { v with v1 := v.v1 ^^^ v.v0 }
  let v := { v with v0 := v.v0.rotateLeft 32 }
  let v := { v with v2 := v.v2 + v.v3 }
  let v := { v with v3 := v.v3.rotateLeft 16 }
  let v := { v with v3 := v.v3 ^^^ v.v2 }
  let v := { v with v0 := v.v0 + v.v3 }
  let v := { v with v3 := v.v3.rotateLeft 21 }
  let v := { v with v3 := v.v3 ^^^ v.v0 }
  let v := { v with v2 := v.v2 + v.v1 }
  let v := { v with v1 := v.v1.rotateLeft 17 }
  let v := { v with v1 := v.v1 ^^^ v.v2 }
  { v with v2 := v.v2.rotateLeft 32 }

/-- The state that a key of two words begins with. -/
def initialState (k0 k1 : BitVec 64) : State where
  v0 := k0 ^^^ 0x736F6D6570736575
  v1 := k1 ^^^ 0x646F72616E646F6D
  v2 := k0 ^^^ 0x6C7967656E657261
  v3 := k1 ^^^ 0x7465646279746573

/-- Compression of a word with `c` rounds. -/
def compress (c : ℕ) (v : State) (m : BitVec 64) : State :=
  let v := sipRound^[c] { v with v3 := v.v3 ^^^ m }
  { v with v0 := v.v0 ^^^ m }

/-- Finalisation with `d` rounds. -/
def finalize (d : ℕ) (v : State) : BitVec 64 :=
  let v := sipRound^[d] { v with v2 := v.v2 ^^^ 0xFF }
  v.v0 ^^^ v.v1 ^^^ v.v2 ^^^ v.v3

/-- The input with zero bytes up to 7 modulo 8 bytes, and its length modulo 256. -/
def padded (m : List UInt8) : List UInt8 :=
  m ++ (List.replicate (7 - m.length % 8) 0 ++ [UInt8.ofNat (m.length % 256)])

/-- SipHash-c-d. -/
def sipHash (c d : ℕ) (key m : List UInt8) : BitVec 64 :=
  finalize d ((wordsOf 64 8 (padded m)).foldl (compress c)
    (initialState (leWord 64 (key.take 8)) (leWord 64 (key.drop 8))))

/-! ## Rounds -/

theorem sipround_eq (st : State) : sipround st = sipRound st := by
  obtain ⟨v0, v1, v2, v3⟩ := st
  simp only [sipround, sipRound, rotl64_eq_rotateLeft _ (by decide : 13 < 64),
    rotl64_eq_rotateLeft _ (by decide : 16 < 64), rotl64_eq_rotateLeft _ (by decide : 32 < 64),
    rotl64_eq_rotateLeft _ (by decide : 17 < 64), rotl64_eq_rotateLeft _ (by decide : 21 < 64)]

theorem sipBlock_eq : sipBlock = compress 2 := by
  funext st block
  simp only [sipBlock, compress, sipround_eq, Function.iterate_succ, Function.iterate_zero,
    Function.comp_apply, id_eq]

/-! ## The last word -/

/-- The byte of the length, where it stands in the last word. -/
theorem lengthByte_eq (n : ℕ) :
    (UInt8.ofNat (n % 256)).toBitVec.setWidth 64 <<< 56 = BitVec.ofNat 64 n <<< 56 := by
  apply BitVec.eq_of_toNat_eq
  have hbyte : (UInt8.ofNat (n % 256)).toBitVec.toNat = n % 256 := by
    rw [UInt8.toNat_toBitVec, UInt8.toNat_ofNat', Nat.mod_mod]
  simp only [BitVec.toNat_shiftLeft, BitVec.toNat_setWidth, BitVec.toNat_ofNat, hbyte,
    Nat.shiftLeft_eq]
  omega

theorem length_padding (m : List UInt8) :
    (leftover 8 m ++ (List.replicate (7 - m.length % 8) 0 ++
      [UInt8.ofNat (m.length % 256)])).length = 8 := by
  have hmod := Nat.mod_lt m.length (by decide : 8 > 0)
  simp only [List.length_append, length_leftover, List.length_replicate, List.length_singleton]
  omega

/-- The padded input has one word more than the input, and it is made of the bytes behind
its last full word and of the length. -/
theorem wordsOf_padded (m : List UInt8) :
    wordsOf 64 8 (padded m) =
      wordsOf 64 8 m ++ [BitVec.ofNat 64 m.length <<< 56 ||| leWord 64 (leftover 8 m)] := by
  have hmod := Nat.mod_lt m.length (by decide : 8 > 0)
  have hblocks : blocksOf 8 (padded m) = blocksOf 8 m ++ [leftover 8 m ++
      (List.replicate (7 - m.length % 8) 0 ++ [UInt8.ofNat (m.length % 256)])] := by
    have hone := blocksOf_block (by decide : 0 < 8) (length_padding m) []
    rw [List.append_nil, blocksOf_nil] at hone
    rw [padded, blocksOf_append_leftover (by decide), hone]
  have hseven : 8 * (leftover 8 m).length + 8 * (7 - m.length % 8) = 56 := by
    rw [length_leftover]
    omega
  have hbyte : leWord 64 [UInt8.ofNat (m.length % 256)] =
      (UInt8.ofNat (m.length % 256)).toBitVec.setWidth 64 := by
    simp [leWord]
  have hlast : leWord 64 (leftover 8 m ++ (List.replicate (7 - m.length % 8) 0 ++
      [UInt8.ofNat (m.length % 256)])) =
      BitVec.ofNat 64 m.length <<< 56 ||| leWord 64 (leftover 8 m) := by
    rw [leWord_append, leWord_append, leWord_zeros, BitVec.zero_or, List.length_replicate,
      ← BitVec.shiftLeft_add, Nat.add_comm (8 * (7 - m.length % 8)), hseven, hbyte,
      lengthByte_eq, BitVec.or_comm]
  rw [wordsOf, hblocks, List.map_append, List.map_singleton, hlast, wordsOf]

/-! ## The whole hash -/

/-- `siphash` writes the SipHash-2-4 of its input in little-endian order. -/
theorem siphash_writes_sipHash (input key out : List UInt8) (hkey : key.length = 16)
    (hout : 8 ≤ out.length) :
    siphash input input.length key out =
      .ok (leBytes 8 (sipHash 2 4 key input) ++ out.drop 8) := by
  have htail : input.length &&& 7 = input.length % 8 := Nat.and_two_pow_sub_one_eq_mod _ 3
  have hk0 : getUnalignedLe64 key 0 = .ok (leWord 64 (key.take 8)) :=
    getUnalignedLe64_of_le (by omega)
  have hk1 : getUnalignedLe64 key 8 = .ok (leWord 64 (key.drop 8)) := by
    rw [getUnalignedLe64_of_le (by omega),
      List.take_of_length_le (by rw [List.length_drop]; omega)]
  have hloop := word_loop (by decide : 0 < 8)
    (fun pos hpos => @getUnalignedLe64_of_le input pos hpos) sipBlock
    (initialState (leWord 64 (key.take 8)) (leWord 64 (key.drop 8)))
  have hcases := tailCases_leftover (B := 8) input (BitVec.ofNat 64 input.length <<< 56)
  have hput : ∀ x : BitVec 64, putUnalignedLe64 x out 0 = .ok (leBytes 8 x ++ out.drop 8) := by
    intro x
    rw [putUnalignedLe64, writeBytes_of_le (by rw [length_leBytes]; omega), length_leBytes]
    rfl
  rw [siphash, htail, hk0, hk1]
  simp only [Exec.ok_bind]
  rw [← initialState.eq_1, hloop, hcases]
  simp only [Exec.ok_bind, hput, sipBlock_eq, sipround_eq]
  rw [sipHash, wordsOf_padded, List.foldl_append]
  rfl

/-- The fifteen bytes from 0 on under the key of the sixteen bytes from 0 on. -/
theorem siphash_writes_sipHash_fifteen :
    siphash ((List.range 15).map UInt8.ofNat) 15 ((List.range 16).map UInt8.ofNat)
      (List.replicate 9 0xFF) =
        .ok [0xE5, 0x45, 0xBE, 0x49, 0x61, 0xCA, 0x29, 0xA1, 0xFF] := by
  have hhash : leBytes 8 (sipHash 2 4 ((List.range 16).map UInt8.ofNat)
      ((List.range 15).map UInt8.ofNat)) =
        [0xE5, 0x45, 0xBE, 0x49, 0x61, 0xCA, 0x29, 0xA1] := by decide +kernel
  have hwrites := siphash_writes_sipHash ((List.range 15).map UInt8.ofNat)
    ((List.range 16).map UInt8.ofNat) (List.replicate 9 0xFF) rfl (by decide)
  rw [hhash] at hwrites
  exact hwrites

end Hlibc.Siphash
