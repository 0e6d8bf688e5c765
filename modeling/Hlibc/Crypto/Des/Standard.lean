import Hlibc.Support.BitTable
import Hlibc.Crypto.Des.KeySchedule
import Mathlib.Data.List.Rotate

/-!
# The DES of the standard

The standard works on strings of bits numbered from the left.  Its tables are
given here as it prints them; the boxes are read by row and column, and the
round keys are chosen from halves that are rotated round by round.  The words
of the source hold the same bits.
-/

set_option autoImplicit false

namespace Hlibc.Des

/-! ## Tables -/

/-- Initial permutation. -/
def ipTable : List ℕ := [
  58, 50, 42, 34, 26, 18, 10, 2, 60, 52, 44, 36, 28, 20, 12, 4,
  62, 54, 46, 38, 30, 22, 14, 6, 64, 56, 48, 40, 32, 24, 16, 8,
  57, 49, 41, 33, 25, 17, 9, 1, 59, 51, 43, 35, 27, 19, 11, 3,
  61, 53, 45, 37, 29, 21, 13, 5, 63, 55, 47, 39, 31, 23, 15, 7]

/-- Final permutation. -/
def ipInvTable : List ℕ := [
  40, 8, 48, 16, 56, 24, 64, 32, 39, 7, 47, 15, 55, 23, 63, 31,
  38, 6, 46, 14, 54, 22, 62, 30, 37, 5, 45, 13, 53, 21, 61, 29,
  36, 4, 44, 12, 52, 20, 60, 28, 35, 3, 43, 11, 51, 19, 59, 27,
  34, 2, 42, 10, 50, 18, 58, 26, 33, 1, 41, 9, 49, 17, 57, 25]

/-- Expansion. -/
def eTable : List ℕ := [
  32, 1, 2, 3, 4, 5, 4, 5, 6, 7, 8, 9,
  8, 9, 10, 11, 12, 13, 12, 13, 14, 15, 16, 17,
  16, 17, 18, 19, 20, 21, 20, 21, 22, 23, 24, 25,
  24, 25, 26, 27, 28, 29, 28, 29, 30, 31, 32, 1]

def pTable : List ℕ := [
  16, 7, 20, 21, 29, 12, 28, 17, 1, 15, 23, 26, 5, 18, 31, 10,
  2, 8, 24, 14, 32, 27, 3, 9, 19, 13, 30, 6, 22, 11, 4, 25]

/-- Permuted choice 1: the rows of `C` and then of `D`. -/
def pc1 : List ℕ := [
  57, 49, 41, 33, 25, 17, 9, 1, 58, 50, 42, 34, 26, 18,
  10, 2, 59, 51, 43, 35, 27, 19, 11, 3, 60, 52, 44, 36,
  63, 55, 47, 39, 31, 23, 15, 7, 62, 54, 46, 38, 30, 22,
  14, 6, 61, 53, 45, 37, 29, 21, 13, 5, 28, 20, 12, 4]

/-- Permuted choice 2. -/
def pc2 : List ℕ := [
  14, 17, 11, 24, 1, 5, 3, 28, 15, 6, 21, 10,
  23, 19, 12, 4, 26, 8, 16, 7, 27, 20, 13, 2,
  41, 52, 31, 37, 47, 55, 30, 40, 51, 45, 33, 48,
  44, 49, 39, 56, 34, 53, 46, 42, 50, 36, 29, 32]

/-- By how many places each round rotates the halves of the key. -/
def leftShifts : List ℕ := [1, 1, 2, 2, 2, 2, 2, 2, 1, 2, 2, 2, 2, 2, 2, 1]

/-- The boxes `S1` to `S8`, each four rows of sixteen. -/
def boxes : List (List (List ℕ)) := [
    [[14, 4, 13, 1, 2, 15, 11, 8, 3, 10, 6, 12, 5, 9, 0, 7],
      [0, 15, 7, 4, 14, 2, 13, 1, 10, 6, 12, 11, 9, 5, 3, 8],
      [4, 1, 14, 8, 13, 6, 2, 11, 15, 12, 9, 7, 3, 10, 5, 0],
      [15, 12, 8, 2, 4, 9, 1, 7, 5, 11, 3, 14, 10, 0, 6, 13]],
    [[15, 1, 8, 14, 6, 11, 3, 4, 9, 7, 2, 13, 12, 0, 5, 10],
      [3, 13, 4, 7, 15, 2, 8, 14, 12, 0, 1, 10, 6, 9, 11, 5],
      [0, 14, 7, 11, 10, 4, 13, 1, 5, 8, 12, 6, 9, 3, 2, 15],
      [13, 8, 10, 1, 3, 15, 4, 2, 11, 6, 7, 12, 0, 5, 14, 9]],
    [[10, 0, 9, 14, 6, 3, 15, 5, 1, 13, 12, 7, 11, 4, 2, 8],
      [13, 7, 0, 9, 3, 4, 6, 10, 2, 8, 5, 14, 12, 11, 15, 1],
      [13, 6, 4, 9, 8, 15, 3, 0, 11, 1, 2, 12, 5, 10, 14, 7],
      [1, 10, 13, 0, 6, 9, 8, 7, 4, 15, 14, 3, 11, 5, 2, 12]],
    [[7, 13, 14, 3, 0, 6, 9, 10, 1, 2, 8, 5, 11, 12, 4, 15],
      [13, 8, 11, 5, 6, 15, 0, 3, 4, 7, 2, 12, 1, 10, 14, 9],
      [10, 6, 9, 0, 12, 11, 7, 13, 15, 1, 3, 14, 5, 2, 8, 4],
      [3, 15, 0, 6, 10, 1, 13, 8, 9, 4, 5, 11, 12, 7, 2, 14]],
    [[2, 12, 4, 1, 7, 10, 11, 6, 8, 5, 3, 15, 13, 0, 14, 9],
      [14, 11, 2, 12, 4, 7, 13, 1, 5, 0, 15, 10, 3, 9, 8, 6],
      [4, 2, 1, 11, 10, 13, 7, 8, 15, 9, 12, 5, 6, 3, 0, 14],
      [11, 8, 12, 7, 1, 14, 2, 13, 6, 15, 0, 9, 10, 4, 5, 3]],
    [[12, 1, 10, 15, 9, 2, 6, 8, 0, 13, 3, 4, 14, 7, 5, 11],
      [10, 15, 4, 2, 7, 12, 9, 5, 6, 1, 13, 14, 0, 11, 3, 8],
      [9, 14, 15, 5, 2, 8, 12, 3, 7, 0, 4, 10, 1, 13, 11, 6],
      [4, 3, 2, 12, 9, 5, 15, 10, 11, 14, 1, 7, 6, 0, 8, 13]],
    [[4, 11, 2, 14, 15, 0, 8, 13, 3, 12, 9, 7, 5, 10, 6, 1],
      [13, 0, 11, 7, 4, 9, 1, 10, 14, 3, 5, 12, 2, 15, 8, 6],
      [1, 4, 11, 13, 12, 3, 7, 14, 10, 15, 6, 8, 0, 5, 9, 2],
      [6, 11, 13, 8, 1, 4, 10, 7, 9, 5, 0, 15, 14, 2, 3, 12]],
    [[13, 2, 8, 4, 6, 15, 11, 1, 10, 9, 3, 14, 5, 0, 12, 7],
      [1, 15, 13, 8, 10, 3, 7, 4, 12, 5, 6, 11, 0, 14, 9, 2],
      [7, 11, 4, 1, 9, 12, 14, 2, 0, 6, 10, 13, 15, 3, 5, 8],
      [2, 1, 14, 7, 4, 10, 8, 13, 15, 12, 9, 0, 3, 5, 6, 11]]]

/-! ## The cipher -/

/-- The number that a string of bits writes. -/
def bitsValue (bits : List Bool) : ℕ := bits.foldl (fun v b => 2 * v + b.toNat) 0

/-- The four bits of the entry of a box whose row the outer bits give, and whose column
the inner bits give. -/
def boxEntry (box : List (List ℕ)) (bits : List Bool) : List Bool :=
  let row := bitsValue (choose [1, 6] bits)
  let column := bitsValue (choose [2, 3, 4, 5] bits)
  (List.range 4).reverse.map ((box.getD row []).getD column 0).testBit

/-- The eight groups of six bits, each through its box. -/
def selections (bits : List Bool) : List Bool :=
  (List.range 8).flatMap fun k => boxEntry (boxes.getD k []) ((bits.drop (6 * k)).take 6)

/-- The cipher function `f` of half a block and a round key. -/
def cipherFunction (r k : List Bool) : List Bool :=
  choose pTable (selections (List.zipWith xor (choose eTable r) k))

/-- The round keys from the halves of the chosen key, rotated by these numbers of places
one after the other. -/
def rotatedKeys {α : Type*} : List ℕ → List α × List α → List (List α)
  | [], _ => []
  | n :: ns, (c, d) =>
      choose pc2 (c.rotate n ++ d.rotate n) :: rotatedKeys ns (c.rotate n, d.rotate n)

/-- The sixteen round keys of a key. -/
def roundKeyBits {α : Type*} (key : List α) : List (List α) :=
  rotatedKeys leftShifts ((choose pc1 key).take 28, (choose pc1 key).drop 28)

/-- Encryption of a block of 64 bits under a key of 64 bits. -/
def desStandard (key block : List Bool) : List Bool :=
  let permuted := choose ipTable block
  let last := feistel (List.zipWith xor) cipherFunction (roundKeyBits key)
    (permuted.take 32, permuted.drop 32)
  choose ipInvTable (last.2 ++ last.1)

example : desStandard (bitsOf 64 (0x07A1133E4A0B2686 : BitVec 64))
    (bitsOf 64 (0x0248D43806F67172 : BitVec 64)) =
    bitsOf 64 (0x868EBB51CAB4599A : BitVec 64) := by decide +kernel

/-! ## Permutations -/

/-- The moves of the code are those of the tables. -/
theorem moves_eq : ipMoves = tableMoves 64 64 ipTable ∧ ipInvMoves = tableMoves 64 64 ipInvTable ∧
    eMoves = tableMoves 32 48 eTable ∧ pMoves = tableMoves 32 32 pTable := by
  decide +kernel

theorem bitsOf_ip (x : BitVec 64) : bitsOf 64 (ip x) = choose ipTable (bitsOf 64 x) := by
  rw [ip, moves_eq.1]
  exact bitsOf_tableMoves (Nat.le_refl 64) rfl (by decide) x

theorem bitsOf_ipInv (x : BitVec 64) : bitsOf 64 (ipInv x) = choose ipInvTable (bitsOf 64 x) := by
  rw [ipInv, moves_eq.2.1]
  exact bitsOf_tableMoves (Nat.le_refl 64) rfl (by decide) x

theorem bitsOf_e (x : BitVec 64) : bitsOf 48 (e x) = choose eTable (bitsOf 32 x) := by
  rw [e, moves_eq.2.2.1]
  exact bitsOf_tableMoves (by decide) rfl (by decide) x

theorem bitsOf_p (x : BitVec 64) : bitsOf 32 (p x) = choose pTable (bitsOf 32 x) := by
  rw [p, moves_eq.2.2.2]
  exact bitsOf_tableMoves (by decide) rfl (by decide) x

/-! ## Boxes -/

/-- An entry has four bits, and the six bits of its index are the bits of the row around those
of the column. -/
theorem sTable_entry : ∀ box < 8, ∀ n < 64, (sTable.getD box []).getD n 0 < 16 ∧
    (List.range 4).reverse.map ((sTable.getD box []).getD n 0).testBit =
      boxEntry (boxes.getD box []) ((List.range 6).reverse.map n.testBit) := by
  decide +kernel

theorem getLsbD_sixMask {x : BitVec 64} {i : ℕ} (hi : i < 6) :
    (x &&& 0x3F).getLsbD i = x.getLsbD i := by
  have hmask : ∀ j < 6, (0x3F : BitVec 64).getLsbD j = true := by decide
  rw [BitVec.getLsbD_and, hmask i hi, Bool.and_true]

theorem sixMask_lt (x : BitVec 64) : (x &&& 0x3F).toNat < 64 := by
  rw [BitVec.toNat_and]
  exact Nat.lt_of_le_of_lt Nat.and_le_right (by decide)

theorem bitsOf_sBox {box : ℕ} (hbox : box < 8) (x : BitVec 64) :
    bitsOf 4 (sBox box x) = boxEntry (boxes.getD box []) (bitsOf 6 x) := by
  have hindex : bitsOf 6 x = (List.range 6).reverse.map (x &&& 0x3F).toNat.testBit := by
    have hmask : bitsOf 6 x = bitsOf 6 (x &&& 0x3F) :=
      bitsOf_congr fun i hi => (getLsbD_sixMask hi).symm
    rw [hmask]
    rfl
  rw [hindex, ← (sTable_entry box hbox _ (sixMask_lt x)).2]
  apply List.map_congr_left
  intro i hi
  have hlt : i < 32 := by
    have hfour := List.mem_range.mp (List.mem_reverse.mp hi)
    omega
  rw [sBox, BitVec.getLsbD_ofNat, decide_eq_true hlt, Bool.true_and]

theorem sBox_high {box : ℕ} (hbox : box < 8) (x : BitVec 64) {i : ℕ} (hi : 4 ≤ i) :
    (sBox box x).getLsbD i = false := by
  have hlt : (sTable.getD box []).getD (x &&& 0x3F).toNat 0 < 2 ^ i :=
    Nat.lt_of_lt_of_le (sTable_entry box hbox _ (sixMask_lt x)).1
      (Nat.pow_le_pow_right (by decide) hi : 2 ^ 4 ≤ 2 ^ i)
  rw [sBox, BitVec.getLsbD_ofNat, Nat.testBit_lt_two_pow hlt, Bool.and_false]

/-- The eight entries of `S`, from the left. -/
def sEntries (input : BitVec 64) : List (BitVec 32) :=
  (List.range 8).map fun k => sBox k (input >>> (42 - 6 * k))

theorem s_eq_packDigits (input : BitVec 64) :
    s input = (packDigits 4 (sEntries input)).signExtend 64 := by
  simp [s, sEntries, packDigits, List.range_succ, BitVec.or_assoc]

/-- The sign that `S` extends into the high half is in no bit that is read. -/
theorem bitsOf_s (input : BitVec 64) : bitsOf 32 (s input) = selections (bitsOf 48 input) := by
  have hdigits : ∀ x ∈ sEntries input, ∀ i, 4 ≤ i → x.getLsbD i = false := by
    intro x hx i hi
    obtain ⟨k, hk, rfl⟩ := List.mem_map.mp hx
    exact sBox_high (List.mem_range.mp hk) _ hi
  have hlow : bitsOf 32 (s input) = bitsOf 32 (packDigits 4 (sEntries input)) := by
    rw [s_eq_packDigits]
    apply bitsOf_congr
    intro i hi
    have hwide : i < 64 := by omega
    rw [BitVec.getLsbD_signExtend, if_pos hi, decide_eq_true hwide, Bool.true_and]
  have hpacked : bitsOf 32 (packDigits 4 (sEntries input)) =
      (sEntries input).flatMap (bitsOf 4) := bitsOf_packDigits hdigits (Nat.le_refl 32)
  rw [hlow, hpacked, sEntries, List.flatMap_map, selections]
  apply List.flatMap_congr
  intro k hk
  have hk8 : k < 8 := List.mem_range.mp hk
  have hsplit : 48 = 6 * k + (6 + (42 - 6 * k)) := by omega
  have hgroup : ((bitsOf 48 input).drop (6 * k)).take 6 = bitsOf 6 (input >>> (42 - 6 * k)) := by
    rw [congrArg (fun n => bitsOf n input) hsplit, drop_bitsOf, take_bitsOf]
  rw [hgroup, bitsOf_sBox hk8]

theorem bitsOf_f (block key : BitVec 64) :
    bitsOf 32 (f block key) = cipherFunction (bitsOf 32 block) (bitsOf 48 key) := by
  rw [f, bitsOf_p, bitsOf_s, bitsOf_xor, bitsOf_e, cipherFunction]

/-! ## Round keys -/

theorem rotatedKeys_map {α β : Type*} (g : α → β) (ns : List ℕ) (c d : List α) :
    rotatedKeys ns (c.map g, d.map g) = (rotatedKeys ns (c, d)).map (List.map g) := by
  induction ns generalizing c d with
  | nil => rfl
  | cons n ns ih =>
      rw [rotatedKeys, rotatedKeys, List.map_cons, ← List.map_rotate, ← List.map_rotate, ih,
        ← List.map_append, choose_map]

/-- The round keys only place bits: they can be computed on the numbers of the bits. -/
theorem roundKeyBits_map {α β : Type*} (g : α → β) (key : List α) :
    roundKeyBits (key.map g) = (roundKeyBits key).map (List.map g) := by
  rw [roundKeyBits, roundKeyBits, choose_map, ← List.map_take, ← List.map_drop, rotatedKeys_map]

/-- The moves of `KS_0` to `KS_15`. -/
def ksMoves : List (List (ℕ × ℕ)) :=
  [ks0Moves, ks1Moves, ks2Moves, ks3Moves, ks4Moves, ks5Moves, ks6Moves, ks7Moves,
    ks8Moves, ks9Moves, ks10Moves, ks11Moves, ks12Moves, ks13Moves, ks14Moves, ks15Moves]

/-- Which bits of the key each round takes. -/
def keyTables : List (List ℕ) := roundKeyBits (List.range' 1 64)

theorem keyTables_spec : ksMoves = keyTables.map (tableMoves 64 48) ∧
    ∀ table ∈ keyTables, table.length = 48 ∧ ∀ i ∈ table, 0 < i ∧ i ≤ 64 := by
  decide +kernel

theorem roundKeys_desInit (ctx : DesContext) (key : BitVec 64) :
    (roundKeys (desInit ctx key).2).map (bitsOf 48) = roundKeyBits (bitsOf 64 key) := by
  have hkeys : roundKeys (desInit ctx key).2 = ksMoves.map fun moves => moveBits moves key := rfl
  rw [hkeys, keyTables_spec.1, List.map_map, List.map_map, bitsOf_eq_map, roundKeyBits_map]
  apply List.map_congr_left
  intro table htable
  obtain ⟨hlength, hnumbers⟩ := keyTables_spec.2 table htable
  show bitsOf 48 (moveBits (tableMoves 64 48 table) key) = _
  rw [bitsOf_tableMoves (by decide) hlength hnumbers, choose_bitsOf hnumbers]

/-! ## Encryption -/

theorem bitsOf_halves (block : BitVec 64) :
    (halves block).map (bitsOf 32) (bitsOf 32) =
      ((bitsOf 64 block).take 32, (bitsOf 64 block).drop 32) := by
  have hright : bitsOf 32 (block &&& 0xFFFFFFFF) = bitsOf 32 block := by
    apply bitsOf_congr
    intro i hi
    rw [BitVec.getLsbD_and, getLsbD_lowMask, decide_eq_true hi, Bool.and_true]
  rw [halves, Prod.map_apply, hright]
  exact Prod.ext (take_bitsOf 32 32 block).symm (drop_bitsOf 32 32 block).symm

theorem bitsOf_joinHalves {h : BitVec 64 × BitVec 64} (hleft : LowHalf h.1) :
    bitsOf 64 (joinHalves h) = bitsOf 32 h.2 ++ bitsOf 32 h.1 :=
  bitsOf_shiftLeft_or (Nat.le_refl 64) hleft

/-- The rounds of a list of round keys, between the permutations. -/
def standardRounds (keys : List (List Bool)) (block : List Bool) : List Bool :=
  let permuted := choose ipTable block
  let last := feistel (List.zipWith xor) cipherFunction keys
    (permuted.take 32, permuted.drop 32)
  choose ipInvTable (last.2 ++ last.1)

theorem bitsOf_desRounds (keys : List (BitVec 64)) (block : BitVec 64) :
    bitsOf 64 (desRounds keys block) =
      standardRounds (keys.map (bitsOf 48)) (bitsOf 64 block) := by
  obtain ⟨hl, hr⟩ := lowHalf_halves (ip block)
  set last := feistel (· ^^^ ·) f keys (halves (ip block)) with hlast
  have hlow : LowHalf last.1 :=
    (feistel_halves lowHalf_f lowHalf_xor keys (halves (ip block)) hl hr).1
  have hrounds : last.map (bitsOf 32) (bitsOf 32) =
      feistel (List.zipWith xor) cipherFunction (keys.map (bitsOf 48))
        ((choose ipTable (bitsOf 64 block)).take 32,
          (choose ipTable (bitsOf 64 block)).drop 32) := by
    rw [hlast, feistel_map bitsOf_xor bitsOf_f, bitsOf_halves, bitsOf_ip]
  calc
    bitsOf 64 (desRounds keys block) =
        choose ipInvTable (bitsOf 32 last.2 ++ bitsOf 32 last.1) := by
      rw [desRounds, bitsOf_ipInv, ← hlast, bitsOf_joinHalves hlow]
    _ = standardRounds (keys.map (bitsOf 48)) (bitsOf 64 block) := by
      simp only [standardRounds]
      rw [← hrounds]
      rfl

/-- `des_init` and `des_encrypt` compute the encryption of the standard. -/
theorem desEncrypt_standard (ctx : DesContext) (key block : BitVec 64) :
    bitsOf 64 (desEncrypt (desInit ctx key).2 block) =
      desStandard (bitsOf 64 key) (bitsOf 64 block) := by
  rw [desEncrypt_eq_desRounds, bitsOf_desRounds, roundKeys_desInit]
  rfl

end Hlibc.Des
