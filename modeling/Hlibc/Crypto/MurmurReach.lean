import Hlibc.Crypto.Murmur
import Hlibc.Support.Memory
import Mathlib.Data.FinEnum
import Mathlib.Data.Fintype.BigOperators
import Mathlib.SetTheory.Cardinal.Finite

/-!
# What MurmurHash3 reaches

The maps from the seed to the hash, and from one word to the hash, lose nothing, so they
reach every hash.  A word of an input can be chosen to give any hash, and every hash has the
same number of inputs of a length.
-/

set_option autoImplicit false

namespace Hlibc.Murmur

variable {m front back : List UInt8} {seed : BitVec 32} {n : ℕ}

/-- The hash that a run writes. -/
def Writes (m : List UInt8) (seed : BitVec 32) (hash : Buffer 4) : Prop :=
  ∀ out : List UInt8, 4 ≤ out.length →
    murmurhash3X86_32 m m.length seed out = .ok (hash.bytes ++ out.drop 4)

theorem writes_iff {hash : Buffer 4} :
    Writes m seed hash ↔ murmurHash m seed = leWord 32 hash.bytes := by
  have hlen : (leBytes 4 (murmurHash m seed)).length = hash.bytes.length := by
    rw [length_leBytes, hash.length_bytes]
  constructor
  · intro h
    have hout := h (List.replicate 4 0) (by simp)
    rw [murmurhash3X86_32_eq m seed (by simp)] at hout
    rw [← (List.append_inj (Except.ok.inj hout) hlen).1, leWord_leBytes (w := 32) (n := 4) rfl]
  · intro h out hout
    rw [murmurhash3X86_32_eq m seed hout, h, leBytes_leWord (by decide) hash.length_bytes]

/-! ## Words and seeds -/

/-- A word between whole words and a rest meets the state behind the words in front. -/
theorem murmurHash_block (hfront : 4 ∣ front.length) (block : Buffer 4) :
    murmurHash (front ++ (block.bytes ++ back)) seed =
      murmurFmix32 ((wordsOf 32 4 back).foldl mixBlock
          (mixBlock ((wordsOf 32 4 front).foldl mixBlock seed) (leWord 32 block.bytes)) ^^^
        mixWord (leWord 32 (leftover 4 back)) ^^^
        BitVec.ofNat 32 (front.length + (4 + back.length))) := by
  obtain ⟨k, hk⟩ := hfront
  have hwords : wordsOf 32 4 (front ++ (block.bytes ++ back)) =
      wordsOf 32 4 front ++ leWord 32 block.bytes :: wordsOf 32 4 back := by
    rw [wordsOf, blocksOf_append (by decide) hk, blocksOf_block (by decide) block.length_bytes,
      List.map_append, List.map_cons]
    rfl
  have hleft : leftover 4 (front ++ (block.bytes ++ back)) = leftover 4 back := by
    rw [leftover_append_of_dvd (by decide) (by rw [hk, Nat.mul_mod_right]),
      leftover_append_of_dvd (by decide) (by rw [block.length_bytes])]
  rw [murmurHash, hwords, hleft, List.foldl_append, List.foldl_cons, List.length_append,
    List.length_append, block.length_bytes]

theorem murmurHash_block_bijective (seed : BitVec 32) (front back : List UInt8) (size : BitVec 32) :
    Function.Bijective fun k => murmurFmix32 ((wordsOf 32 4 back).foldl mixBlock
        (mixBlock ((wordsOf 32 4 front).foldl mixBlock seed) k) ^^^
      mixWord (leWord 32 (leftover 4 back)) ^^^ size) := by
  refine Finite.injective_iff_bijective.mp fun k k' heq => ?_
  have hstate := murmurFmix32_injective heq
  exact mixBlock_injective_right _ (foldl_injective mixBlock_injective_left _
    ((BitVec.xor_left_inj _).mp ((BitVec.xor_left_inj _).mp hstate)))

theorem murmurHash_seed_bijective (m : List UInt8) : Function.Bijective (murmurHash m) := by
  refine Finite.injective_iff_bijective.mp fun seed seed' heq => ?_
  by_contra hne
  exact murmurHash_ne_of_seed m hne heq

theorem existsUnique_seed (m : List UInt8) (hash : Buffer 4) : ∃! seed, Writes m seed hash := by
  simp only [writes_iff]
  exact (murmurHash_seed_bijective m).existsUnique _

/-- Every hash has one word between `front` and `back`. -/
theorem existsUnique_block (hfront : 4 ∣ front.length) (seed : BitVec 32) (back : List UInt8)
    (hash : Buffer 4) :
    ∃! block : Buffer 4, Writes (front ++ (block.bytes ++ back)) seed hash := by
  obtain ⟨k, hk, hunique⟩ := (murmurHash_block_bijective seed front back
    (BitVec.ofNat 32 (front.length + (4 + back.length)))).existsUnique (leWord 32 hash.bytes)
  simp only [writes_iff, murmurHash_block hfront]
  refine ⟨⟨leBytes 4 k, length_leBytes 4 k⟩, ?_, fun block hblock => ?_⟩
  · simp only [leWord_leBytes (w := 32) (n := 4) rfl]
    exact hk
  · apply Buffer.ext
    have hword : leWord 32 block.bytes = k := hunique _ hblock
    exact (leBytes_leWord (by decide) block.length_bytes).symm.trans (congrArg (leBytes 4) hword)

theorem Writes.block_eq (hfront : 4 ∣ front.length) {hash : Buffer 4} (block block' : Buffer 4)
    (h : Writes (front ++ (block.bytes ++ back)) seed hash)
    (h' : Writes (front ++ (block'.bytes ++ back)) seed hash) : block = block' :=
  (existsUnique_block hfront seed back hash).unique h h'

/-! ## Counting inputs -/

theorem card_buffer (n : ℕ) : Nat.card (Buffer n) = 256 ^ n := by
  have hvector : Buffer n ≃ List.Vector UInt8 n :=
    ⟨fun b => ⟨b.bytes, b.length_bytes⟩, fun v => ⟨v.1, v.2⟩, fun _ => rfl, fun _ => rfl⟩
  have hbyte : Fintype.card UInt8 = 256 := by
    rw [← FinEnum.card_eq_fintypeCard, FinEnum.card_UInt8]
    rfl
  rw [Nat.card_congr hvector, Nat.card_eq_fintype_card, card_vector, hbyte]

/-- An input with a hash is known from what stands behind its first word, and every rest is
behind such a word. -/
theorem drop_bijective (seed : BitVec 32) (n : ℕ) (hash : Buffer 4) :
    Function.Bijective fun m : {m : Buffer (n + 4) // Writes m.bytes seed hash} =>
      (⟨m.1.bytes.drop 4, by rw [List.length_drop, m.1.length_bytes, Nat.add_sub_cancel]⟩ :
        Buffer n) := by
  have hnone : 4 ∣ ([] : List UInt8).length := Nat.dvd_zero 4
  constructor
  · rintro ⟨m, hm⟩ ⟨m', hm'⟩ heq
    have hback : m.bytes.drop 4 = m'.bytes.drop 4 := congrArg Buffer.bytes heq
    have hfirst : ∀ b : Buffer (n + 4), (b.bytes.take 4).length = 4 := fun b => by
      rw [List.length_take, b.length_bytes]
      omega
    have hword := Writes.block_eq hnone ⟨m.bytes.take 4, hfirst m⟩
      ⟨m'.bytes.take 4, hfirst m'⟩ (by rwa [List.nil_append, List.take_append_drop])
      (by rwa [List.nil_append, hback, List.take_append_drop])
    have hfront : m.bytes.take 4 = m'.bytes.take 4 := congrArg Buffer.bytes hword
    apply Subtype.ext
    apply Buffer.ext
    rw [← List.take_append_drop 4 m.bytes, hfront, hback, List.take_append_drop]
  · intro back
    obtain ⟨block, hblock, -⟩ := existsUnique_block hnone seed back.bytes hash
    have hlen : (block.bytes ++ back.bytes).length = n + 4 := by
      rw [List.length_append, block.length_bytes, back.length_bytes, Nat.add_comm]
    refine ⟨⟨⟨block.bytes ++ back.bytes, hlen⟩, hblock⟩, ?_⟩
    apply Buffer.ext
    exact List.drop_left' block.length_bytes

/-- Every input has one seed for every hash.  Between whole words and anything behind them,
one word gives a chosen hash.  So every hash is that of the same number of inputs of a length
from four bytes on. -/
theorem murmur_reaches (hash : Buffer 4) :
    (∀ m, ∃! seed, Writes m seed hash) ∧
      (∀ seed front back, 4 ∣ front.length →
        ∃! block : Buffer 4, Writes (front ++ (block.bytes ++ back)) seed hash) ∧
      ∀ seed n, Nat.card {m : Buffer (n + 4) // Writes m.bytes seed hash} = 256 ^ n := by
  refine ⟨fun m => existsUnique_seed m hash, fun seed front back hfront =>
    existsUnique_block hfront seed back hash, fun seed n => ?_⟩
  rw [Nat.card_eq_of_bijective _ (drop_bijective seed n hash), card_buffer]

/-- The hash zero, at the end of four bytes. -/
theorem murmur_reaches_zero : ∃! block : Buffer 4,
    Writes ([1, 2, 3, 4] ++ (block.bytes ++ [])) 0 ⟨[0, 0, 0, 0], rfl⟩ :=
  (murmur_reaches ⟨[0, 0, 0, 0], rfl⟩).2.1 0 [1, 2, 3, 4] [] (by decide)

end Hlibc.Murmur
