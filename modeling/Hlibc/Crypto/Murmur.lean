import Hlibc.Crypto.WordHash
import Hlibc.Support.WordMaps

/-!
# MurmurHash3

Every step of `murmurhash3_x86_32` is a bijection of the state for a given word, and of the
word for a given state.  So a difference in the seed, in one word or in the tail is carried
to the hash.
-/

set_option autoImplicit false

namespace Hlibc.Murmur

/-! ## The functions of the source -/

/-- `murmur_fmix32`. -/
def murmurFmix32 (h : BitVec 32) : BitVec 32 :=
  let h := h ^^^ h >>> 16
  let h := h * 0x85EBCA6B
  let h := h ^^^ h >>> 13
  let h := h * 0xC2B2AE35
  h ^^^ h >>> 16

/-- What is done with `k` before it meets the state. -/
def mixWord (k : BitVec 32) : BitVec 32 :=
  let k := k * 0xCC9E2D51
  let k := rotl32 k 15
  k * 0x1B873593

/-- What is done with a word in the loop. -/
def mixBlock (h k : BitVec 32) : BitVec 32 :=
  let h := h ^^^ mixWord k
  let h := rotl32 h 13
  h * 5 + 0xE6546B64

/-- `murmurhash3_x86_32`.  The switch has no case for a tail of no bytes. -/
def murmurhash3X86_32 (input : List UInt8) (size : ℕ) (seed : BitVec 32) (out : List UInt8) :
    Exec (List UInt8) := do
  let tailSize := size &&& 3
  let tail := size - tailSize
  let h ← loop (wordPass (getUnalignedLe32 input) 4 mixBlock tail) (size + 1) (0, seed)
  let h ← (if tailSize = 0 then .ok h
    else do
      let k ← tailCases input tail tailSize 0
      .ok (h ^^^ mixWord k) : Exec (BitVec 32))
  let h := h ^^^ BitVec.ofNat 32 size
  putUnalignedLe32 (murmurFmix32 h) out 0

/-! ## The value of the hash -/

/-- The hash as a value. -/
def murmurHash (m : List UInt8) (seed : BitVec 32) : BitVec 32 :=
  murmurFmix32 ((wordsOf 32 4 m).foldl mixBlock seed ^^^ mixWord (leWord 32 (leftover 4 m)) ^^^
    BitVec.ofNat 32 m.length)

example : murmurHash (ascii "Hello, world!") 1234 = 0xFAF6CDB3 := by decide +kernel

theorem murmurhash3X86_32_eq (input : List UInt8) (seed : BitVec 32) {out : List UInt8}
    (hout : 4 ≤ out.length) :
    murmurhash3X86_32 input input.length seed out =
      .ok (leBytes 4 (murmurHash input seed) ++ out.drop 4) := by
  have htail : input.length &&& 3 = input.length % 4 := Nat.and_two_pow_sub_one_eq_mod _ 2
  have hloop := word_loop (by decide : 0 < 4)
    (fun pos hpos => @getUnalignedLe32_of_le input pos hpos) mixBlock seed
  have hcases := tailCases_leftover (w := 32) (B := 4) input 0
  have hswitch : ∀ h : BitVec 32, (if input.length % 4 = 0 then .ok h
      else (do
        let k ← tailCases input (input.length - input.length % 4) (input.length % 4) 0
        .ok (h ^^^ mixWord k)) : Exec (BitVec 32)) =
      .ok (h ^^^ mixWord (leWord 32 (leftover 4 input))) := by
    intro h
    by_cases hnone : input.length % 4 = 0
    · have hnil : leftover 4 input = [] := by
        apply List.eq_nil_of_length_eq_zero
        rw [length_leftover, hnone]
      have hzero : mixWord (leWord 32 []) = 0#32 := by decide
      rw [if_pos hnone, hnil, hzero, BitVec.xor_zero]
    · rw [if_neg hnone, hcases, Exec.ok_bind]
      exact congrArg (fun k => Except.ok (h ^^^ mixWord k)) BitVec.zero_or
  rw [murmurhash3X86_32, htail]
  simp only [hloop, Exec.ok_bind, hswitch]
  rw [putUnalignedLe32, writeBytes_of_le (by rw [length_leBytes]; omega), length_leBytes]
  rfl

/-! ## Nothing is lost -/

theorem murmurFmix32_injective : Function.Injective murmurFmix32 := by
  have hshift16 := xor_ushiftRight_injective (w := 32) (by decide : 0 < 16)
  have hshift13 := xor_ushiftRight_injective (w := 32) (by decide : 0 < 13)
  have hfirst : Function.Injective fun h : BitVec 32 => h * 0x85EBCA6B :=
    mul_injective (d := 0xA5CB9243) (by decide)
  have hsecond : Function.Injective fun h : BitVec 32 => h * 0xC2B2AE35 :=
    mul_injective (d := 0x7ED1B41D) (by decide)
  exact hshift16.comp (hsecond.comp (hshift13.comp (hfirst.comp hshift16)))

theorem rotl32_injective {n : ℕ} (hn : n < 32) : Function.Injective fun x => rotl32 x n := by
  have hrotate := rotateLeft_injective hn
  intro x y hxy
  apply hrotate
  simpa only [rotl32_eq_rotateLeft _ hn] using hxy

theorem mixWord_injective : Function.Injective mixWord := by
  have hrotl := rotl32_injective (by decide : 15 < 32)
  have hfirst : Function.Injective fun k : BitVec 32 => k * 0xCC9E2D51 :=
    mul_injective (d := 0xDEE13BB1) (by decide)
  have hsecond : Function.Injective fun k : BitVec 32 => k * 0x1B873593 :=
    mul_injective (d := 0x56ED309B) (by decide)
  exact hsecond.comp (hrotl.comp hfirst)

/-- What the loop does with the xor of state and word. -/
theorem stir_injective : Function.Injective fun h : BitVec 32 => rotl32 h 13 * 5 + 0xE6546B64 := by
  have hrotl := rotl32_injective (by decide : 13 < 32)
  have hmul : Function.Injective fun h : BitVec 32 => h * 5 :=
    mul_injective (d := 0xCCCCCCCD) (by decide)
  have hadd : Function.Injective fun h : BitVec 32 => h + 0xE6546B64 := by
    intro x y hxy
    exact (BitVec.add_left_inj _).mp hxy
  exact hadd.comp (hmul.comp hrotl)

theorem mixBlock_injective_left (k : BitVec 32) : Function.Injective fun h => mixBlock h k := by
  intro h h' heq
  exact (BitVec.xor_left_inj _).mp (stir_injective heq)

theorem mixBlock_injective_right (h : BitVec 32) : Function.Injective (mixBlock h) := by
  intro k k' heq
  exact mixWord_injective ((BitVec.xor_right_inj _).mp (stir_injective heq))

/-! ## Two inputs -/

/-- Two strings of one length that differ, and only from `lo` up to `hi`. -/
structure DifferWithin (x y : List UInt8) (lo hi : ℕ) : Prop where
  length_eq : x.length = y.length
  ne : x ≠ y
  same : ∀ j, j < lo ∨ hi ≤ j → x[j]? = y[j]?

variable {x y : List UInt8} {lo hi i : ℕ}

/-- What stands in front of a difference, or behind it, is the same. -/
theorem DifferWithin.window (h : DifferWithin x y lo hi) {a n : ℕ} (ha : a + n ≤ lo ∨ hi ≤ a) :
    (x.drop a).take n = (y.drop a).take n := by
  apply List.ext_getElem?
  intro j
  rw [List.getElem?_take, List.getElem?_take, List.getElem?_drop, List.getElem?_drop]
  by_cases hj : j < n
  · rw [if_pos hj, if_pos hj]
    refine h.same _ ?_
    omega
  · rw [if_neg hj, if_neg hj]

/-- The difference is seen in the bytes from `lo` on. -/
theorem DifferWithin.window_ne (h : DifferWithin x y lo hi) (hle : lo ≤ hi) :
    (x.drop lo).take (hi - lo) ≠ (y.drop lo).take (hi - lo) := by
  intro heq
  apply h.ne
  apply List.ext_getElem?
  intro j
  by_cases hj : j < lo ∨ hi ≤ j
  · exact h.same j hj
  · have hget := congrArg (fun l : List UInt8 => l[j - lo]?) heq
    have hback : lo + (j - lo) = j := by omega
    have hin : j - lo < hi - lo := by omega
    simpa only [List.getElem?_take, if_pos hin, List.getElem?_drop, hback] using hget

theorem getElem?_wordsOf (m : List UInt8) (j : ℕ) :
    (wordsOf 32 4 m)[j]? =
      if j < m.length / 4 then some (leWord 32 ((m.drop (4 * j)).take 4)) else none := by
  by_cases hj : j < m.length / 4
  · simp [wordsOf, blocksOf, hj]
  · simp [wordsOf, blocksOf, hj]

/-- A difference in one word leaves the other words and the tail as they are. -/
theorem murmurHash_ne_of_block (seed : BitVec 32) (hi : 4 * i + 4 ≤ x.length)
    (h : DifferWithin x y (4 * i) (4 * i + 4)) : murmurHash x seed ≠ murmurHash y seed := by
  have hlen := h.length_eq
  have hlt : i < x.length / 4 := by omega
  have hleft : leftover 4 x = leftover 4 y := by
    have hall := h.window (a := 4 * (x.length / 4)) (n := x.length) (Or.inr (by omega))
    rw [List.take_of_length_le (by rw [List.length_drop]; omega),
      List.take_of_length_le (by rw [List.length_drop]; omega)] at hall
    rw [leftover, leftover, ← hlen, hall]
  have hwords : (wordsOf 32 4 x).foldl mixBlock seed ≠ (wordsOf 32 4 y).foldl mixBlock seed := by
    apply foldl_ne (i := i) mixBlock_injective_left mixBlock_injective_right
    · intro j hj
      rw [getElem?_wordsOf, getElem?_wordsOf, ← hlen]
      by_cases hjlt : j < x.length / 4
      · rw [if_pos hjlt, if_pos hjlt, h.window (by omega)]
      · rw [if_neg hjlt, if_neg hjlt]
    · rw [getElem?_wordsOf, getElem?_wordsOf, ← hlen, if_pos hlt, if_pos hlt]
      intro heq
      have hne := h.window_ne (Nat.le_add_right _ 4)
      rw [Nat.add_sub_cancel_left] at hne
      apply hne
      apply leWord_inj ?_ ?_ (Option.some.inj heq)
      · rw [List.length_take]
        omega
      · simp only [List.length_take, List.length_drop, hlen]
    · simp only [wordsOf, List.length_map, length_blocksOf, hlen]
  intro heq
  have hstate := murmurFmix32_injective heq
  rw [hleft, hlen] at hstate
  exact hwords ((BitVec.xor_left_inj _).mp ((BitVec.xor_left_inj _).mp hstate))

/-- A difference in the tail leaves the words as they are. -/
theorem murmurHash_ne_of_tail (seed : BitVec 32)
    (h : DifferWithin x y (x.length - x.length % 4) x.length) :
    murmurHash x seed ≠ murmurHash y seed := by
  have hlen := h.length_eq
  have hstart : x.length - x.length % 4 = 4 * (x.length / 4) := by omega
  have hwords : wordsOf 32 4 x = wordsOf 32 4 y := by
    apply List.ext_getElem?
    intro j
    rw [getElem?_wordsOf, getElem?_wordsOf, ← hlen]
    by_cases hj : j < x.length / 4
    · rw [if_pos hj, if_pos hj, h.window (by omega)]
    · rw [if_neg hj, if_neg hj]
  have hleft : leftover 4 x ≠ leftover 4 y := by
    have hne := h.window_ne (Nat.sub_le _ _)
    rw [hstart, List.take_of_length_le (by rw [List.length_drop]),
      List.take_of_length_le (by rw [List.length_drop, hlen])] at hne
    rwa [leftover, leftover, ← hlen]
  intro heq
  have hstate := murmurFmix32_injective heq
  rw [hwords, hlen] at hstate
  have hword := (BitVec.xor_right_inj _).mp ((BitVec.xor_left_inj _).mp hstate)
  apply hleft
  apply leWord_inj ?_ ?_ (mixWord_injective hword)
  · rw [length_leftover]
    omega
  · rw [length_leftover, length_leftover, hlen]

theorem murmurHash_ne_of_seed (m : List UInt8) {seed seed' : BitVec 32} (hne : seed ≠ seed') :
    murmurHash m seed ≠ murmurHash m seed' := by
  intro heq
  have hstate := murmurFmix32_injective heq
  exact hne (foldl_injective mixBlock_injective_left _
    ((BitVec.xor_left_inj _).mp ((BitVec.xor_left_inj _).mp hstate)))

/-- The two runs write different hashes. -/
def HashesDiffer (x y : List UInt8) (seed seed' : BitVec 32) : Prop :=
  ∀ out : List UInt8, 4 ≤ out.length → ∃ r r',
    murmurhash3X86_32 x x.length seed out = .ok r ∧
      murmurhash3X86_32 y y.length seed' out = .ok r' ∧ r.take 4 ≠ r'.take 4

theorem hashesDiffer_of_ne {seed seed' : BitVec 32}
    (hne : murmurHash x seed ≠ murmurHash y seed') : HashesDiffer x y seed seed' := by
  intro out hout
  refine ⟨_, _, murmurhash3X86_32_eq x seed hout, murmurhash3X86_32_eq y seed' hout, ?_⟩
  rw [List.take_left' (length_leBytes _ _), List.take_left' (length_leBytes _ _)]
  exact fun heq => hne (leBytes_inj rfl heq)

/-- Different seeds give different hashes, and so do inputs that differ in one word only or
in the tail only. -/
theorem murmur_separates :
    (∀ m seed seed', seed ≠ seed' → HashesDiffer m m seed seed') ∧
      (∀ seed x y i, 4 * i + 4 ≤ x.length → DifferWithin x y (4 * i) (4 * i + 4) →
        HashesDiffer x y seed seed) ∧
      ∀ seed x y, DifferWithin x y (x.length - x.length % 4) x.length →
        HashesDiffer x y seed seed := by
  refine ⟨?_, ?_, ?_⟩
  · exact fun m _ _ hne => hashesDiffer_of_ne (murmurHash_ne_of_seed m hne)
  · exact fun seed _ _ _ hi h => hashesDiffer_of_ne (murmurHash_ne_of_block seed hi h)
  · exact fun seed _ _ h => hashesDiffer_of_ne (murmurHash_ne_of_tail seed h)

/-- Two seeds; two inputs of six bytes that differ in their word; two that differ in their
tail. -/
theorem murmur_separates_sixBytes :
    HashesDiffer [] [] 0 1 ∧ HashesDiffer [1, 2, 3, 4, 5, 6] [1, 2, 3, 0, 5, 6] 0 0 ∧
      HashesDiffer [1, 2, 3, 4, 5, 6] [1, 2, 3, 4, 5, 0] 0 0 := by
  obtain ⟨hseed, hblock, htail⟩ := murmur_separates
  refine ⟨hseed [] 0 1 (by decide), hblock 0 _ _ 0 (by decide) ⟨rfl, by decide, ?_⟩,
    htail 0 _ _ ⟨rfl, by decide, ?_⟩⟩
  · intro j hj
    match j, hj with
    | 4, _ => rfl
    | 5, _ => rfl
    | j + 6, _ => rfl
  · intro j hj
    match j, hj with
    | 0, _ => rfl
    | 1, _ => rfl
    | 2, _ => rfl
    | 3, _ => rfl
    | j + 6, _ => rfl

end Hlibc.Murmur
