import Hlibc.Support.Feistel
import Hlibc.Crypto.Des.Tables

/-!
# The DES block cipher

`desEncrypt` and `desDecrypt` are the unrolled sixteen rounds of the source.
They are read as Feistel networks on the halves of a word, with the round keys
in the one order and in the other; the initial permutation and its inverse
cancel between them.
-/

set_option autoImplicit false

namespace Hlibc.Des

/-- `struct des_context`: any sixteen round keys. -/
structure DesContext where
  ks : Vector (BitVec 64) 16
  deriving DecidableEq

/-- One box of `S_table` at the six low bits of `bits`, as the `int` it is
promoted to. -/
def sBox (box : ℕ) (bits : BitVec 64) : BitVec 32 :=
  BitVec.ofNat 32 ((sTable.getD box []).getD (bits &&& 0x3F).toNat 0)

/-- `S`.  The or is taken on `int`, so that its conversion to `uint64_t`
extends the sign. -/
def s (input : BitVec 64) : BitVec 64 :=
  (sBox 0 (input >>> 42) <<< 28 |||
    sBox 1 (input >>> 36) <<< 24 |||
    sBox 2 (input >>> 30) <<< 20 |||
    sBox 3 (input >>> 24) <<< 16 |||
    sBox 4 (input >>> 18) <<< 12 |||
    sBox 5 (input >>> 12) <<< 8 |||
    sBox 6 (input >>> 6) <<< 4 ||| sBox 7 input).signExtend 64

def ip (input : BitVec 64) : BitVec 64 := moveBits ipMoves input

def ipInv (input : BitVec 64) : BitVec 64 := moveBits ipInvMoves input

def p (input : BitVec 64) : BitVec 64 := moveBits pMoves input

def e (input : BitVec 64) : BitVec 64 := moveBits eMoves input

def f (block key : BitVec 64) : BitVec 64 := p (s (e block ^^^ key))

def desEncrypt (ctx : DesContext) (block : BitVec 64) : BitVec 64 :=
  let block := ip block
  let L := block >>> 32
  let R := block &&& 0xFFFFFFFF
  let L := L ^^^ f R ctx.ks[0]
  let R := R ^^^ f L ctx.ks[1]
  let L := L ^^^ f R ctx.ks[2]
  let R := R ^^^ f L ctx.ks[3]
  let L := L ^^^ f R ctx.ks[4]
  let R := R ^^^ f L ctx.ks[5]
  let L := L ^^^ f R ctx.ks[6]
  let R := R ^^^ f L ctx.ks[7]
  let L := L ^^^ f R ctx.ks[8]
  let R := R ^^^ f L ctx.ks[9]
  let L := L ^^^ f R ctx.ks[10]
  let R := R ^^^ f L ctx.ks[11]
  let L := L ^^^ f R ctx.ks[12]
  let R := R ^^^ f L ctx.ks[13]
  let L := L ^^^ f R ctx.ks[14]
  let R := R ^^^ f L ctx.ks[15]
  ipInv (R <<< 32 ||| L)

def desDecrypt (ctx : DesContext) (block : BitVec 64) : BitVec 64 :=
  let block := ip block
  let L := block >>> 32
  let R := block &&& 0xFFFFFFFF
  let L := L ^^^ f R ctx.ks[15]
  let R := R ^^^ f L ctx.ks[14]
  let L := L ^^^ f R ctx.ks[13]
  let R := R ^^^ f L ctx.ks[12]
  let L := L ^^^ f R ctx.ks[11]
  let R := R ^^^ f L ctx.ks[10]
  let L := L ^^^ f R ctx.ks[9]
  let R := R ^^^ f L ctx.ks[8]
  let L := L ^^^ f R ctx.ks[7]
  let R := R ^^^ f L ctx.ks[6]
  let L := L ^^^ f R ctx.ks[5]
  let R := R ^^^ f L ctx.ks[4]
  let L := L ^^^ f R ctx.ks[3]
  let R := R ^^^ f L ctx.ks[2]
  let L := L ^^^ f R ctx.ks[1]
  let R := R ^^^ f L ctx.ks[0]
  ipInv (R <<< 32 ||| L)

/-! ## Permutations -/

theorem ipInv_ip (x : BitVec 64) : ipInv (ip x) = x :=
  moveBits_moveBits (by decide) (by decide) (by decide) x

theorem ip_ipInv (x : BitVec 64) : ip (ipInv x) = x :=
  moveBits_moveBits (by decide) (by decide) (by decide) x

/-! ## Halves -/

/-- A word all of whose bits lie in its low half. -/
def LowHalf (x : BitVec 64) : Prop := ∀ i, 32 ≤ i → x.getLsbD i = false

/-- The halves of a block as the ciphers read them. -/
def halves (block : BitVec 64) : BitVec 64 × BitVec 64 :=
  (block >>> 32, block &&& 0xFFFFFFFF)

/-- The block the ciphers write from their last halves. -/
def joinHalves (h : BitVec 64 × BitVec 64) : BitVec 64 := h.2 <<< 32 ||| h.1

theorem getLsbD_lowMask (i : ℕ) :
    (0xFFFFFFFF : BitVec 64).getLsbD i = decide (i < 32) := by
  by_cases hi : i < 64
  · have hall : ∀ j < 64, (0xFFFFFFFF : BitVec 64).getLsbD j = decide (j < 32) := by
      decide
    exact hall i hi
  · rw [BitVec.getLsbD_of_ge _ _ (by omega), eq_comm, decide_eq_false_iff_not]
    omega

theorem lowHalf_halves (block : BitVec 64) :
    LowHalf (halves block).1 ∧ LowHalf (halves block).2 := by
  constructor
  · intro i hi
    simp only [halves, BitVec.getLsbD_ushiftRight]
    exact BitVec.getLsbD_of_ge _ _ (by omega)
  · intro i hi
    have hi' : ¬ i < 32 := by omega
    simp only [halves, BitVec.getLsbD_and]
    rw [getLsbD_lowMask, decide_eq_false hi', Bool.and_false]

theorem lowHalf_xor (a b : BitVec 64) (ha : LowHalf a) (hb : LowHalf b) :
    LowHalf (a ^^^ b) := by
  intro i hi
  simp [ha i hi, hb i hi]

/-- The round function has no bit above bit 31, although `S` extends a sign:
`P` moves nothing there. -/
theorem lowHalf_f (block key : BitVec 64) : LowHalf (f block key) := by
  intro i hi
  apply getLsbD_moveBits_of_no_source
  have hlow : ∀ q ∈ pMoves, q.2 < 32 := by decide
  intro q hq heq
  have hq' := hlow q hq
  omega

/-- The halves of a joined block, read again, are the halves exchanged. -/
theorem halves_joinHalves {h : BitVec 64 × BitVec 64}
    (h1 : LowHalf h.1) (h2 : LowHalf h.2) :
    halves (joinHalves h) = h.swap := by
  apply Prod.ext
  · apply BitVec.eq_of_getLsbD_eq
    intro i hi
    have hshift : 32 + i - 32 = i := by omega
    simp only [halves, joinHalves, Prod.fst_swap, BitVec.getLsbD_ushiftRight,
      BitVec.getLsbD_or, BitVec.getLsbD_shiftLeft, hshift]
    rw [h1 (32 + i) (by omega)]
    by_cases hi32 : 32 + i < 64
    · simp [hi32]
    · rw [h2 i (by omega)]
      simp
  · apply BitVec.eq_of_getLsbD_eq
    intro i hi
    simp only [halves, joinHalves, Prod.snd_swap, BitVec.getLsbD_and,
      BitVec.getLsbD_or, BitVec.getLsbD_shiftLeft]
    rw [getLsbD_lowMask]
    by_cases hi32 : i < 32
    · simp [hi32]
    · rw [h1 i (by omega)]
      simp [hi32]

/-- Writing the halves of a block in exchanged order gives the block. -/
theorem joinHalves_swap_halves (block : BitVec 64) :
    joinHalves (halves block).swap = block := by
  apply BitVec.eq_of_getLsbD_eq
  intro i hi
  simp only [joinHalves, halves, Prod.fst_swap, Prod.snd_swap, BitVec.getLsbD_or,
    BitVec.getLsbD_shiftLeft, BitVec.getLsbD_ushiftRight, BitVec.getLsbD_and]
  rw [getLsbD_lowMask]
  by_cases hi32 : i < 32
  · simp [hi32]
  · have hback : 32 + (i - 32) = i := by omega
    simp [hi32, hi, hback]

/-! ## The two directions -/

/-- The common form of the two ciphers: the network of a list of round keys
between the permutations. -/
def desRounds (keys : List (BitVec 64)) (block : BitVec 64) : BitVec 64 :=
  ipInv (joinHalves (feistel (· ^^^ ·) f keys (halves (ip block))))

/-- The round keys in the order in which encryption uses them. -/
def roundKeys (ctx : DesContext) : List (BitVec 64) :=
  [ctx.ks[0], ctx.ks[1], ctx.ks[2], ctx.ks[3], ctx.ks[4], ctx.ks[5],
    ctx.ks[6], ctx.ks[7], ctx.ks[8], ctx.ks[9], ctx.ks[10], ctx.ks[11],
    ctx.ks[12], ctx.ks[13], ctx.ks[14], ctx.ks[15]]

theorem desEncrypt_eq_desRounds (ctx : DesContext) (block : BitVec 64) :
    desEncrypt ctx block = desRounds (roundKeys ctx) block := rfl

theorem desDecrypt_eq_desRounds (ctx : DesContext) (block : BitVec 64) :
    desDecrypt ctx block = desRounds (roundKeys ctx).reverse block := rfl

/-- Running a list of round keys and then the same list backwards gives the
block back. -/
theorem desRounds_reverse (keys : List (BitVec 64)) (block : BitVec 64) :
    desRounds keys.reverse (desRounds keys block) = block := by
  obtain ⟨hl, hr⟩ := lowHalf_halves (ip block)
  have hlow : LowHalf (feistel (· ^^^ ·) f keys (halves (ip block))).1 ∧
      LowHalf (feistel (· ^^^ ·) f keys (halves (ip block))).2 :=
    feistel_halves lowHalf_f lowHalf_xor keys (halves (ip block)) hl hr
  have hmix : ∀ a b : BitVec 64, a ^^^ b ^^^ b = a := by
    intro a b
    rw [BitVec.xor_assoc, BitVec.xor_self, BitVec.xor_zero]
  calc
    desRounds keys.reverse (desRounds keys block) =
        ipInv (joinHalves (feistel (· ^^^ ·) f keys.reverse
          (feistel (· ^^^ ·) f keys (halves (ip block))).swap)) := by
      simp only [desRounds, ip_ipInv]
      rw [halves_joinHalves hlow.1 hlow.2]
    _ = ipInv (joinHalves (halves (ip block)).swap) := by
      rw [feistel_reverse_swap hmix]
    _ = block := by
      rw [joinHalves_swap_halves, ipInv_ip]

theorem desDecrypt_desEncrypt (ctx : DesContext) (block : BitVec 64) :
    desDecrypt ctx (desEncrypt ctx block) = block := by
  rw [desEncrypt_eq_desRounds, desDecrypt_eq_desRounds]
  exact desRounds_reverse _ block

theorem desEncrypt_desDecrypt (ctx : DesContext) (block : BitVec 64) :
    desEncrypt ctx (desDecrypt ctx block) = block := by
  rw [desEncrypt_eq_desRounds, desDecrypt_eq_desRounds]
  simpa using desRounds_reverse (roundKeys ctx).reverse block

/-- Encryption and decryption undo one another, in both orders, under every
context. -/
theorem des_inverse (ctx : DesContext) (block : BitVec 64) :
    desDecrypt ctx (desEncrypt ctx block) = block ∧
      desEncrypt ctx (desDecrypt ctx block) = block :=
  ⟨desDecrypt_desEncrypt ctx block, desEncrypt_desDecrypt ctx block⟩

end Hlibc.Des
