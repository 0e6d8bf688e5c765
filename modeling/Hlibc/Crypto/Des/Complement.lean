import Hlibc.Crypto.Des.Standard

/-!
# Complements

Everything that DES does to bits but for the boxes passes a complement on, and in front of
the boxes the complements of the half and of the round key cancel.
-/

set_option autoImplicit false

namespace Hlibc.Des

/-! ## Bits -/

theorem map_not_zipWith_xor (a b : List Bool) :
    (List.zipWith xor a b).map not = List.zipWith xor (a.map not) b := by
  rw [List.zipWith_map_left, List.map_zipWith]
  simp only [Bool.not_xor]

theorem zipWith_xor_not_not (a b : List Bool) :
    List.zipWith xor (a.map not) (b.map not) = List.zipWith xor a b := by
  rw [List.zipWith_map]
  simp only [Bool.not_xor_not]

/-! ## Rounds -/

theorem cipherFunction_complement (r k : List Bool) :
    cipherFunction (r.map not) (k.map not) = cipherFunction r k := by
  rw [cipherFunction, cipherFunction, choose_map, zipWith_xor_not_not]

theorem standardRounds_complement (keys : List (List Bool)) (block : List Bool) :
    standardRounds (keys.map (List.map not)) (block.map not) =
      (standardRounds keys block).map not := by
  have hrounds := feistel_twist map_not_zipWith_xor cipherFunction_complement keys
    ((choose ipTable block).take 32, (choose ipTable block).drop 32)
  simp only [standardRounds]
  rw [choose_map, ← List.map_take, ← List.map_drop, ← choose_map, List.map_append]
  exact congrArg (fun h => choose ipInvTable (h.2 ++ h.1)) hrounds

/-- Every bit of a round key is a bit of the key. -/
theorem roundKeys_complement (ctx ctx' : DesContext) (key : BitVec 64) :
    (roundKeys (desInit ctx' (~~~key)).2).map (bitsOf 48) =
      ((roundKeys (desInit ctx key).2).map (bitsOf 48)).map (List.map not) := by
  rw [roundKeys_desInit, roundKeys_desInit, bitsOf_not (Nat.le_refl 64), roundKeyBits_map]

/-- The complement of a block is encrypted under the complement of a key to the complement. -/
theorem desEncrypt_complement (ctx ctx' : DesContext) (key block : BitVec 64) :
    desEncrypt (desInit ctx' (~~~key)).2 (~~~block) =
      ~~~desEncrypt (desInit ctx key).2 block := by
  apply bitsOf_inj
  rw [desEncrypt_eq_desRounds, desEncrypt_eq_desRounds, bitsOf_not (Nat.le_refl 64),
    bitsOf_desRounds, bitsOf_desRounds, roundKeys_complement ctx ctx',
    bitsOf_not (Nat.le_refl 64), standardRounds_complement]

end Hlibc.Des
