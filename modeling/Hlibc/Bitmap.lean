import Hlibc.Bit

/-!
# Bits of an array

`bit_set`, `bit_clear` and `bit_flip` count the bits of a byte from its low end, and
`bit_test` from its high end.  So `bit_test` sees what they do to bit `i` at the index that
is mirrored in the same byte.
-/

set_option autoImplicit false

namespace Hlibc.Bitmap

/-! ## Bits -/

/-- Bit `k` of an array, counted from the low end of each byte. -/
def bitAt (base : List UInt8) (k : ℕ) : Bool := (base.getD (k / 8) 0).toBitVec.getLsbD (k % 8)

/-- The index of the bit that `bit_test` reads. -/
def mirror (i : ℕ) : ℕ := 8 * (i / 8) + (7 - i % 8)

theorem mirror_div (i : ℕ) : mirror i / 8 = i / 8 := by
  rw [mirror]
  omega

theorem mirror_mod (i : ℕ) : mirror i % 8 = 7 - i % 8 := by
  rw [mirror]
  omega

theorem mirror_mirror (i : ℕ) : mirror (mirror i) = i := by
  rw [mirror, mirror_div, mirror_mod]
  omega

theorem mirror_ne (i : ℕ) : mirror i ≠ i := by
  rw [mirror]
  omega

theorem mirror_eq_comm {i j : ℕ} : mirror j = i ↔ j = mirror i := by
  constructor
  · rintro rfl
    exact (mirror_mirror j).symm
  · rintro rfl
    exact mirror_mirror i

variable {base : List UInt8} {i j : ℕ}

theorem readInt_eq (hi : i < 8 * base.length) :
    readInt base (i >>> 3) = .ok ((base.getD (i / 8) 0).toBitVec.setWidth 32) := by
  have hlt : i / 8 < base.length := by omega
  rw [Nat.shiftRight_eq_div_pow, readInt, readByte_of_lt hlt, Exec.map_ok,
    List.getD_eq_getElem _ _ hlt]

theorem bitTest_eq (hi : i < 8 * base.length) : bitTest base i = .ok (bitAt base (mirror i)) := by
  have hseven : i &&& 7 = i % 8 := Nat.and_two_pow_sub_one_eq_mod i 3
  have hbit : ∀ (x : BitVec 32) k, (x >>> k &&& 1 != 0) = x.getLsbD k := by
    intro x k
    show (x >>> k &&& 1#32 != 0) = x.getLsbD k
    rw [BitVec.and_one_eq_setWidth_ofBool_getLsbD, BitVec.getLsbD_ushiftRight, Nat.add_zero]
    cases x.getLsbD k <;> rfl
  have hlow : 7 - i % 8 < 32 := by omega
  rw [bitTest, readInt_eq hi, Exec.ok_bind, hbit, hseven, bitAt, mirror_div, mirror_mod,
    BitVec.getLsbD_setWidth, decide_eq_true hlow, Bool.true_and]

/-! ## Updates -/

/-- The three updates. -/
inductive Update where
  | set
  | clear
  | flip
  deriving DecidableEq

namespace Update

/-- The function of an update. -/
def exec : Update → List UInt8 → ℕ → Exec (List UInt8)
  | set => bitSet
  | clear => bitClear
  | flip => bitFlip

/-- The function that also returns the value of the bit before. -/
def testAnd : Update → List UInt8 → ℕ → Exec (Bool × List UInt8)
  | set => bitTestAndSet
  | clear => bitTestAndClear
  | flip => bitTestAndFlip

/-- What an update makes of a bit. -/
def value : Update → Bool → Bool
  | set, _ => true
  | clear, _ => false
  | flip, b => !b

/-- The operation on the byte as an `int`. -/
def op (u : Update) (k : ℕ) (x : BitVec 32) : BitVec 32 :=
  match u with
  | set => x ||| (1 : BitVec 32) <<< k
  | clear => x &&& ~~~((1 : BitVec 32) <<< k)
  | flip => x ^^^ (1 : BitVec 32) <<< k

theorem exec_eq (u : Update) (base : List UInt8) (i : ℕ) :
    u.exec base i = assignByte base (i >>> 3) (u.op (i % 8)) := by
  cases u <;> rfl

theorem testAnd_eq (u : Update) (base : List UInt8) (i : ℕ) :
    u.testAnd base i = (do
      let old ← bitTest base i
      let base ← u.exec base i
      .ok (old, base)) := by
  cases u <;> rfl

theorem getLsbD_op (u : Update) (k : ℕ) (x : BitVec 32) {n : ℕ} (hn : n < 32) :
    (u.op k x).getLsbD n = if n = k then u.value (x.getLsbD n) else x.getLsbD n := by
  have hmask : ((1 : BitVec 32) <<< k).getLsbD n = decide (n = k) := by
    rw [BitVec.getLsbD_shiftLeft, decide_eq_true hn, Bool.true_and]
    rcases Nat.lt_trichotomy n k with hlt | rfl | hgt
    · rw [decide_eq_true hlt, decide_eq_false (Nat.ne_of_lt hlt)]
      rfl
    · rw [Nat.sub_self, decide_eq_false (Nat.lt_irrefl n), decide_eq_true rfl]
      rfl
    · have hone : (1 : BitVec 32).getLsbD (n - k) = false := by
        have hpos : ¬ n - k = 0 := by omega
        simp [hpos]
      rw [hone, Bool.and_false, decide_eq_false (Nat.ne_of_gt hgt)]
  by_cases hnk : n = k
  · rw [if_pos hnk]
    rw [decide_eq_true hnk] at hmask
    cases u with
    | set => rw [op, BitVec.getLsbD_or, hmask, Bool.or_true, value]
    | clear =>
        rw [op, BitVec.getLsbD_and, BitVec.getLsbD_not, hmask, Bool.not_true, Bool.and_false,
          Bool.and_false, value]
    | flip => rw [op, BitVec.getLsbD_xor, hmask, Bool.xor_true, value]
  · rw [if_neg hnk]
    rw [decide_eq_false hnk] at hmask
    cases u with
    | set => rw [op, BitVec.getLsbD_or, hmask, Bool.or_false]
    | clear =>
        rw [op, BitVec.getLsbD_and, BitVec.getLsbD_not, hmask, decide_eq_true hn, Bool.not_false,
          Bool.and_true, Bool.and_true]
    | flip => rw [op, BitVec.getLsbD_xor, hmask, Bool.xor_false]

theorem exec_ok (u : Update) (hi : i < 8 * base.length) :
    ∃ base', u.exec base i = .ok base' ∧ base'.length = base.length ∧
      ∀ k, k < 8 * base.length →
        bitAt base' k = if k = i then u.value (bitAt base k) else bitAt base k := by
  have hlt : i / 8 < base.length := by omega
  refine ⟨base.set (i / 8) (UInt8.ofBitVec ((u.op (i % 8)
    ((base.getD (i / 8) 0).toBitVec.setWidth 32)).setWidth 8)), ?_, List.length_set, ?_⟩
  · rw [exec_eq, assignByte, readInt_eq hi, Exec.ok_bind, Nat.shiftRight_eq_div_pow]
    exact writeByte_of_lt hlt _
  · intro k hk
    have hklt : k / 8 < base.length := by omega
    by_cases hbyte : k / 8 = i / 8
    · have hmod : k % 8 < 32 := by omega
      have hmod8 : k % 8 < 8 := by omega
      have hsame : k % 8 = i % 8 ↔ k = i := by omega
      rw [bitAt, bitAt, hbyte, List.getD_eq_getElem _ _ (by rwa [List.length_set]),
        List.getElem_set_self, UInt8.toBitVec_ofBitVec, BitVec.getLsbD_setWidth,
        u.getLsbD_op _ _ hmod,
        decide_eq_true hmod8, Bool.true_and, BitVec.getLsbD_setWidth, decide_eq_true hmod,
        Bool.true_and]
      simp only [hsame]
    · have hne : k ≠ i := fun heq => hbyte (congrArg (· / 8) heq)
      rw [if_neg hne, bitAt, bitAt, List.getD_eq_getElem _ _ (by rwa [List.length_set]),
        List.getElem_set_ne (Ne.symm hbyte), List.getD_eq_getElem _ _ hklt]

/-- After an update `bit_test` sees the change at the mirror image of the index. -/
theorem bitTest_exec (u : Update) (hi : i < 8 * base.length) (hj : j < 8 * base.length) :
    ∃ base', u.exec base i = .ok base' ∧
      bitTest base' j = .ok (if j = mirror i then u.value (bitAt base (mirror j))
        else bitAt base (mirror j)) := by
  obtain ⟨base', hexec, hlen, hbits⟩ := u.exec_ok hi
  have hj' : j < 8 * base'.length := by rwa [hlen]
  have hmirror : mirror j < 8 * base.length := by
    rw [mirror]
    omega
  refine ⟨base', hexec, ?_⟩
  rw [bitTest_eq hj', hbits _ hmirror]
  simp only [mirror_eq_comm]

end Update

/-! ## Reading what was written -/

/-- After the update at `i`, `bit_test` at `j` returns what the update makes of the bit if `j`
is `i`, and what it returned before otherwise; and the function that also returns a value
returns that of `bit_test` and does the same. -/
def ReadsBack (u : Update) (base : List UInt8) (i j : ℕ) : Prop :=
  ∃ base' x y, u.exec base i = .ok base' ∧ bitTest base i = .ok x ∧ bitTest base j = .ok y ∧
    bitTest base' j = .ok (if j = i then u.value x else y) ∧
    u.testAnd base i = .ok (x, base')

/-- `bit_test` does not tell the bit at `j` from what the update makes of it. -/
def Unseen (u : Update) (base : List UInt8) (j : ℕ) : Prop :=
  ∃ y, bitTest base j = .ok y ∧ u.value y = y

theorem unseen_iff (u : Update) (hj : j < 8 * base.length) :
    Unseen u base j ↔ u.value (bitAt base (mirror j)) = bitAt base (mirror j) := by
  constructor
  · rintro ⟨y, hy, hvalue⟩
    rw [bitTest_eq hj] at hy
    cases hy
    exact hvalue
  · exact fun hvalue => ⟨_, bitTest_eq hj, hvalue⟩

/-- The update is read back exactly at the indices other than `i` and its mirror image in the
byte, and where it would change nothing. -/
theorem readsBack_iff (u : Update) (hi : i < 8 * base.length) (hj : j < 8 * base.length) :
    ReadsBack u base i j ↔ (j = i ∨ j = mirror i → Unseen u base j) := by
  obtain ⟨base', hexec, hnew⟩ := u.bitTest_exec hi hj
  have hold : bitTest base j = .ok (bitAt base (mirror j)) := bitTest_eq hj
  have htest : u.testAnd base i = .ok (bitAt base (mirror i), base') := by
    rw [u.testAnd_eq, bitTest_eq hi, Exec.ok_bind, hexec]
    rfl
  have hreads : ReadsBack u base i j ↔
      (if j = mirror i then u.value (bitAt base (mirror j)) else bitAt base (mirror j)) =
        if j = i then u.value (bitAt base (mirror j)) else bitAt base (mirror j) := by
    constructor
    · rintro ⟨b, x, y, hb, hx, hy, hread, -⟩
      rw [hexec] at hb
      rw [bitTest_eq hi] at hx
      rw [hold] at hy
      cases hb
      cases hx
      cases hy
      rw [hnew] at hread
      refine (Except.ok.inj hread).trans ?_
      by_cases hji : j = i
      · rw [hji]
      · rw [if_neg hji, if_neg hji]
    · intro heq
      refine ⟨base', _, _, hexec, bitTest_eq hi, hold, ?_, htest⟩
      rw [hnew, heq]
      by_cases hji : j = i
      · rw [hji]
      · rw [if_neg hji, if_neg hji]
  rw [hreads, unseen_iff u hj]
  by_cases hji : j = i
  · have hne : ¬ j = mirror i := by
      rw [hji]
      exact (mirror_ne i).symm
    rw [if_neg hne, if_pos hji, eq_comm]
    exact ⟨fun h _ => h, fun h => h (Or.inl hji)⟩
  · by_cases hjm : j = mirror i
    · rw [if_pos hjm, if_neg hji]
      exact ⟨fun h _ => h, fun h => h (Or.inr hjm)⟩
    · rw [if_neg hjm, if_neg hji]
      exact ⟨fun _ h => absurd h (by tauto), fun _ => rfl⟩

/-- Another byte than that of `i`. -/
theorem readsBack_iff_otherByte :
    ReadsBack .flip [0, 0] 0 8 ↔ (8 = 0 ∨ 8 = mirror 0 → Unseen .flip [0, 0] 8) :=
  readsBack_iff .flip (by decide) (by decide)

/-- A bit that is set reads as clear. -/
theorem bitSet_notRead :
    ¬ ∀ u base i j, i < 8 * base.length → j < 8 * base.length → ReadsBack u base i j := by
  intro hall
  obtain ⟨base', x, y, hset, -, -, hread, -⟩ := hall .set [0] 0 0 (by decide) (by decide)
  have hset' : Update.set.exec [0] 0 = .ok [1] := by decide
  have hread' : bitTest [1] 0 = .ok false := by decide
  rw [hset'] at hset
  cases hset
  rw [hread'] at hread
  cases hread

end Hlibc.Bitmap
