import Mathlib.Data.List.GetD
import Mathlib.Data.Nat.Notation
import Mathlib.Tactic.Common

/-!
# Words and their bytes

The little-endian value of a list of bytes and the little-endian bytes of a
word, both read bit by bit.
-/

set_option autoImplicit false

namespace Hlibc

/-- The word whose bytes, least significant first, are the given ones. -/
def leWord (w : ℕ) : List UInt8 → BitVec w
  | [] => 0
  | b :: bs => b.toBitVec.setWidth w ||| leWord w bs <<< 8

/-- Byte `k` of a word, counted from the least significant. -/
def wordByte {w : ℕ} (x : BitVec w) (k : ℕ) : UInt8 :=
  UInt8.ofBitVec (x.extractLsb' (8 * k) 8)

/-- The `n` low bytes of a word, least significant first. -/
def leBytes {w : ℕ} (n : ℕ) (x : BitVec w) : List UInt8 :=
  (List.range n).map (wordByte x)

/-- The word whose bytes, most significant first, are the given ones. -/
def beWord (w : ℕ) (bs : List UInt8) : BitVec w := leWord w bs.reverse

/-- The `n` low bytes of a word, most significant first. -/
def beBytes {w : ℕ} (n : ℕ) (x : BitVec w) : List UInt8 := (leBytes n x).reverse

variable {w : ℕ}

@[simp] theorem length_leBytes (n : ℕ) (x : BitVec w) :
    (leBytes n x).length = n := by
  simp [leBytes]

theorem getLsbD_leWord (bs : List UInt8) (i : ℕ) :
    (leWord w bs).getLsbD i =
      (decide (i < w) && (bs.getD (i / 8) 0).toBitVec.getLsbD (i % 8)) := by
  induction bs generalizing i with
  | nil => simp [leWord]
  | cons b bs ih =>
      simp only [leWord, BitVec.getLsbD_or, BitVec.getLsbD_setWidth,
        BitVec.getLsbD_shiftLeft, ih]
      by_cases hi : i < 8
      · have hdiv : i / 8 = 0 := by omega
        have hmod : i % 8 = i := by omega
        simp [hi, hdiv, hmod]
      · have hdiv : i / 8 = (i - 8) / 8 + 1 := by omega
        have hmod : i % 8 = (i - 8) % 8 := by omega
        have hhigh : b.toBitVec.getLsbD i = false :=
          BitVec.getLsbD_of_ge _ _ (by omega)
        rw [hhigh, hdiv, hmod, List.getD_cons_succ]
        by_cases hw : i < w
        · have hw' : i - 8 < w := by omega
          simp [hw, hw', hi]
        · simp [hw]

theorem getLsbD_wordByte (x : BitVec w) {k i : ℕ} (hi : i < 8) :
    (wordByte x k).toBitVec.getLsbD i = x.getLsbD (8 * k + i) := by
  simp [wordByte, hi]

theorem leWord_append (a b : List UInt8) :
    leWord w (a ++ b) = leWord w a ||| leWord w b <<< (8 * a.length) := by
  induction a with
  | nil =>
      rw [List.nil_append, leWord, List.length_nil, Nat.mul_zero, BitVec.shiftLeft_zero]
      exact BitVec.zero_or.symm
  | cons c a ih =>
      rw [List.cons_append, leWord, leWord, ih, BitVec.shiftLeft_or_distrib,
        ← BitVec.shiftLeft_add, List.length_cons, Nat.mul_succ, BitVec.or_assoc]

@[simp] theorem leWord_zeros (n : ℕ) : leWord w (List.replicate n 0) = 0#w := by
  induction n with
  | zero => rfl
  | succ n ih =>
      rw [List.replicate_succ, leWord, ih]
      simp

/-- The bytes of the value of at most `w / 8` bytes are those bytes. -/
theorem leBytes_leWord {n : ℕ} {bs : List UInt8} (hw : 8 * n ≤ w)
    (hlen : bs.length = n) : leBytes n (leWord w bs) = bs := by
  apply List.ext_getElem
  · simp [hlen]
  · intro k hk hk'
    simp only [leBytes, List.getElem_map, List.getElem_range]
    apply UInt8.toBitVec_inj.mp
    apply BitVec.eq_of_getLsbD_eq
    intro i hi
    have hdiv : (8 * k + i) / 8 = k := by omega
    have hmod : (8 * k + i) % 8 = i := by omega
    have hlt : 8 * k + i < w := by omega
    rw [getLsbD_wordByte _ hi, getLsbD_leWord, hdiv, hmod,
      List.getD_eq_getElem _ _ hk']
    simp [hlt]

/-- At most `w / 8` bytes are known from their value. -/
theorem leWord_inj {a b : List UInt8} (hw : 8 * a.length ≤ w) (hlen : a.length = b.length)
    (h : leWord w a = leWord w b) : a = b := by
  rw [← leBytes_leWord hw rfl, h, leBytes_leWord hw hlen.symm]

/-- The value of the bytes of a word is the word. -/
theorem leWord_leBytes {n : ℕ} (hw : w = 8 * n) (x : BitVec w) :
    leWord w (leBytes n x) = x := by
  apply BitVec.eq_of_getLsbD_eq
  intro i hi
  have hlt : i / 8 < (leBytes n x).length := by
    rw [length_leBytes]
    omega
  have hsplit : 8 * (i / 8) + i % 8 = i := by omega
  rw [getLsbD_leWord, List.getD_eq_getElem _ _ hlt]
  simp only [leBytes, List.getElem_map, List.getElem_range]
  rw [getLsbD_wordByte _ (by omega), hsplit]
  simp [hi]

@[simp] theorem length_beBytes (n : ℕ) (x : BitVec w) : (beBytes n x).length = n := by
  simp [beBytes]

theorem leBytes_inj {n : ℕ} (hw : w = 8 * n) {x y : BitVec w} (h : leBytes n x = leBytes n y) :
    x = y := by
  rw [← leWord_leBytes hw x, ← leWord_leBytes hw y, h]

theorem beBytes_inj {n : ℕ} (hw : w = 8 * n) {x y : BitVec w} (h : beBytes n x = beBytes n y) :
    x = y :=
  leBytes_inj hw (List.reverse_inj.mp h)

@[simp] theorem wordByte_or (x y : BitVec w) (k : ℕ) :
    wordByte (x ||| y) k = wordByte x k ||| wordByte y k := by
  apply UInt8.toBitVec_inj.mp
  apply BitVec.eq_of_getLsbD_eq
  intro i hi
  rw [getLsbD_wordByte _ hi, UInt8.toBitVec_or, BitVec.getLsbD_or, BitVec.getLsbD_or,
    getLsbD_wordByte _ hi, getLsbD_wordByte _ hi]

/-- A byte shifted to a byte position is that byte of the word, and every other
byte of the word is zero. -/
theorem wordByte_shift (b : UInt8) {j k : ℕ} (hj : 8 * j + 8 ≤ w) :
    wordByte (b.toBitVec.setWidth w <<< (8 * j)) k = if k = j then b else 0 := by
  apply UInt8.toBitVec_inj.mp
  apply BitVec.eq_of_getLsbD_eq
  intro i hi
  rw [getLsbD_wordByte _ hi]
  simp only [BitVec.getLsbD_shiftLeft, BitVec.getLsbD_setWidth]
  rcases Nat.lt_trichotomy k j with hlt | rfl | hgt
  · have hbelow : 8 * k + i < 8 * j := by omega
    simp [hbelow, Nat.ne_of_lt hlt]
  · have hlt : 8 * k + i < w := by omega
    have hiw : i < w := by omega
    simp [hlt, hiw]
  · have hhigh : b.toBitVec.getLsbD (8 * k + i - 8 * j) = false :=
      BitVec.getLsbD_of_ge _ _ (by omega)
    simp [hhigh, Nat.ne_of_gt hgt]

end Hlibc
