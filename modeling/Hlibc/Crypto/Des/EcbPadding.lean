import Hlibc.Crypto.Des.Ecb

/-!
# The padded last block

`des_ecb_encrypt` against the encryption of the message with its PKCS#7 padding
as full blocks.  The two loaders read the padded last block from opposite ends.
-/

set_option autoImplicit false

namespace Hlibc.Des

/-- The PKCS#7 padding of a message of `n` bytes. -/
def pkcs7 (n : ℕ) : List UInt8 := List.replicate (8 - n % 8) (UInt8.ofNat (8 - n % 8))

/-- The last bytes of a message and its padding. -/
def lastBlock (m : List UInt8) : List UInt8 := lastBytes m ++ pkcs7 m.length

/-- Into destinations large enough, `des_ecb_encrypt` writes for the message what
it writes in front of the last block for the padded message. -/
def EncryptsPadding (ctx : DesContext) (m : List UInt8) : Prop :=
  ∀ c₀ p₀ : List UInt8, 8 * (m.length / 8 + 1) ≤ c₀.length →
    8 * (m.length / 8 + 2) ≤ p₀.length →
      ∃ c p, desEcbEncrypt ctx m m.length c₀ = .ok c ∧
        desEcbEncrypt ctx (m ++ pkcs7 m.length) (m ++ pkcs7 m.length).length p₀ = .ok p ∧
        c.take (m ++ pkcs7 m.length).length = p.take (m ++ pkcs7 m.length).length

theorem length_pkcs7 (n : ℕ) : (pkcs7 n).length = 8 - n % 8 := List.length_replicate

theorem length_lastBlock (m : List UInt8) : (lastBlock m).length = 8 := by
  rw [lastBlock, List.length_append, length_lastBytes, length_pkcs7]
  omega

theorem length_padded (m : List UInt8) :
    (m ++ pkcs7 m.length).length = 8 * (m.length / 8 + 1) := by
  rw [List.length_append, length_pkcs7]
  omega

/-- The bytes that `get_padded` packs, from the least significant up, are those of the
padded block from its end. -/
theorem paddedByte_eq (m : List UInt8) {j : ℕ} (hj : j < 8) :
    (lastBlock m).reverse[j]? = some (paddedByte (lastBytes m) j) := by
  have hlen := length_lastBytes m
  rw [lastBlock, List.reverse_append, pkcs7, List.reverse_replicate, paddedByte, hlen]
  by_cases hlt : j < 8 - m.length % 8
  · rw [if_pos hlt, List.getElem?_append_left (by rwa [List.length_replicate]),
      List.getElem?_replicate_of_lt hlt]
  · have hback : 7 - j < (lastBytes m).length := by omega
    have hplace : (lastBytes m).length - 1 - (j - (8 - m.length % 8)) = 7 - j := by omega
    rw [if_neg hlt, List.getElem?_append_right (by rw [List.length_replicate]; omega),
      List.length_replicate, List.getElem?_reverse (by omega), hplace,
      List.getD_eq_getElem _ _ hback, List.getElem?_eq_getElem hback]

/-- The word of `get_padded` holds the padded block from its end. -/
theorem leBytes_padded {m : List UInt8} {v : BitVec 64}
    (hv : ∀ j < 8, wordByte v j = paddedByte (lastBytes m) j) :
    leBytes 8 v = (lastBlock m).reverse := by
  apply List.ext_getElem?
  intro j
  by_cases hj : j < 8
  · have hmap : (leBytes 8 v)[j]? = some (wordByte v j) := by
      rw [leBytes, List.getElem?_map, List.getElem?_range hj, Option.map_some]
    rw [hmap, paddedByte_eq m hj, hv j hj]
  · rw [List.getElem?_eq_none (by rw [length_leBytes]; omega),
      List.getElem?_eq_none (by rw [List.length_reverse, length_lastBlock]; omega)]

/-- The full blocks of the message are blocks of the padded message. -/
theorem cipherBlocks_append (cipher : BitVec 64 → BitVec 64) (m rest : List UInt8) {n : ℕ}
    (hn : 8 * n ≤ m.length) : cipherBlocks cipher (m ++ rest) n = cipherBlocks cipher m n := by
  induction n with
  | zero => rfl
  | succ n ih =>
      have hblock : blockAt (m ++ rest) n = blockAt m n := by
        rw [blockAt, blockAt, List.drop_append_of_le_length (by omega),
          List.take_append_of_le_length (by rw [List.length_drop]; omega)]
      rw [cipherBlocks_succ, cipherBlocks_succ, ih (by omega), hblock]

/-- The block behind them is the padded last block. -/
theorem blockAt_padded (m : List UInt8) :
    blockAt (m ++ pkcs7 m.length) (m.length / 8) = leWord 64 (lastBlock m) := by
  rw [blockAt, List.drop_append_of_le_length (by omega), ← lastBytes, ← lastBlock,
    List.take_of_length_le (Nat.le_of_eq (length_lastBlock m))]

theorem desEncrypt_bytes_inj (ctx : DesContext) {v w : BitVec 64} :
    leBytes 8 (desEncrypt ctx v) = leBytes 8 (desEncrypt ctx w) ↔ v = w := by
  constructor
  · intro h
    have hcipher : desEncrypt ctx v = desEncrypt ctx w := by
      rw [← leWord_leBytes (n := 8) rfl (desEncrypt ctx v), h, leWord_leBytes rfl]
    rw [← desDecrypt_desEncrypt ctx v, hcipher, desDecrypt_desEncrypt]
  · intro h
    rw [h]

/-- What is written for the message, and in front of the last block for the padded
message, differ in the last block at most. -/
theorem desEcbEncrypt_both (ctx : DesContext) (m c₀ p₀ : List UInt8)
    (hc₀ : 8 * (m.length / 8 + 1) ≤ c₀.length) (hp₀ : 8 * (m.length / 8 + 2) ≤ p₀.length) :
    ∃ c p v, desEcbEncrypt ctx m m.length c₀ = .ok c ∧
      desEcbEncrypt ctx (m ++ pkcs7 m.length) (m ++ pkcs7 m.length).length p₀ = .ok p ∧
      leBytes 8 v = (lastBlock m).reverse ∧
      c.take (m ++ pkcs7 m.length).length =
        cipherBlocks (desEncrypt ctx) m (m.length / 8) ++ leBytes 8 (desEncrypt ctx v) ∧
      p.take (m ++ pkcs7 m.length).length =
        cipherBlocks (desEncrypt ctx) m (m.length / 8) ++
          leBytes 8 (desEncrypt ctx (leWord 64 (lastBlock m))) := by
  have hblocks : (m ++ pkcs7 m.length).length / 8 = m.length / 8 + 1 := by
    rw [length_padded, Nat.mul_div_cancel_left _ (by norm_num)]
  obtain ⟨v, hv, hc⟩ := desEcbEncrypt_result ctx m c₀ hc₀
  obtain ⟨w, -, hp⟩ := desEcbEncrypt_result ctx (m ++ pkcs7 m.length) p₀ (by rwa [hblocks])
  have hbody := length_cipherBlocks (desEncrypt ctx) m (m.length / 8)
  have hfront := cipherBlocks_append (desEncrypt ctx) m (pkcs7 m.length)
    (Nat.mul_div_le m.length 8)
  refine ⟨_, _, v, hc, hp, leBytes_padded hv, ?_, ?_⟩
  · rw [length_padded, ← List.append_assoc]
    exact List.take_left' (by rw [List.length_append, hbody, length_leBytes]; omega)
  · rw [hblocks, length_padded, cipherBlocks_succ, hfront, blockAt_padded]
    exact List.take_left' (by rw [List.length_append, hbody, length_leBytes]; omega)

/-- The padded last block is encrypted like the full blocks exactly when it reads the
same from both ends. -/
theorem encryptsPadding_iff (ctx : DesContext) (m : List UInt8) :
    EncryptsPadding ctx m ↔ (lastBlock m).reverse = lastBlock m := by
  have hword : ∀ v : BitVec 64, leBytes 8 v = (lastBlock m).reverse →
      (v = leWord 64 (lastBlock m) ↔ (lastBlock m).reverse = lastBlock m) := by
    intro v hv
    have hlast : leBytes 8 (leWord 64 (lastBlock m)) = lastBlock m :=
      leBytes_leWord (Nat.le_refl 64) (length_lastBlock m)
    constructor
    · intro h
      rw [← hv, h, hlast]
    · intro h
      rw [← leWord_leBytes (n := 8) rfl v, hv, h]
  constructor
  · intro h
    obtain ⟨c, p, hc, hp, htake⟩ := h (List.replicate (8 * (m.length / 8 + 1)) 0)
      (List.replicate (8 * (m.length / 8 + 2)) 0) (by simp) (by simp)
    obtain ⟨c', p', v, hc', hp', hv, htakec, htakep⟩ := desEcbEncrypt_both ctx m
      (List.replicate (8 * (m.length / 8 + 1)) 0)
      (List.replicate (8 * (m.length / 8 + 2)) 0) (by simp) (by simp)
    obtain rfl := Except.ok.inj (hc.symm.trans hc')
    obtain rfl := Except.ok.inj (hp.symm.trans hp')
    rw [htakec, htakep] at htake
    exact (hword v hv).mp ((desEncrypt_bytes_inj ctx).mp (List.append_cancel_left htake))
  · intro h c₀ p₀ hc₀ hp₀
    obtain ⟨c, p, v, hc, hp, hv, htakec, htakep⟩ := desEcbEncrypt_both ctx m c₀ p₀ hc₀ hp₀
    refine ⟨c, p, hc, hp, ?_⟩
    rw [htakec, htakep, (hword v hv).mpr h]

/-- One byte that is not the value of its own padding. -/
theorem encryptsPadding_oneByte :
    ¬ ∀ (ctx : DesContext) (m : List UInt8), EncryptsPadding ctx m := by
  intro h
  obtain ⟨c, p, hc, hp, htake⟩ := h { ks := Vector.replicate 16 0 } [0x61]
    (List.replicate 8 0) (List.replicate 16 0) (by decide) (by decide)
  have hrun : (desEcbEncrypt { ks := Vector.replicate 16 0 } [0x61] 1
      (List.replicate 8 0) >>= fun c =>
        desEcbEncrypt { ks := Vector.replicate 16 0 } [0x61, 7, 7, 7, 7, 7, 7, 7] 8
          (List.replicate 16 0) >>= fun p => .ok (decide (c.take 8 = p.take 8))) =
        .ok false := by
    decide +kernel
  have hpadded : [0x61] ++ pkcs7 [(0x61 : UInt8)].length =
      [0x61, 7, 7, 7, 7, 7, 7, 7] := by decide
  rw [hpadded] at hp htake
  change desEcbEncrypt _ [0x61] 1 _ = _ at hc
  change desEcbEncrypt _ _ 8 _ = _ at hp
  change c.take 8 = p.take 8 at htake
  rw [hc, Exec.ok_bind, hp, Exec.ok_bind, htake, decide_eq_true rfl] at hrun
  exact absurd hrun (by decide)

end Hlibc.Des
