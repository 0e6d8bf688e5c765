import Hlibc.Bit
import Hlibc.Support.Blocks

/-!
# Hashes that take words

`siphash` and `murmurhash3_x86_32` take the full words of their input in a loop, and the
bytes behind the last full word in a switch whose cases fall through.
-/

set_option autoImplicit false

namespace Hlibc

variable {w B : ℕ} {σ : Type}

/-! ## The functions of the source -/

/-- One pass of the loop over the words, which ends at `tail`. -/
def wordPass (load : ℕ → Exec (BitVec w)) (B : ℕ) (mix : σ → BitVec w → σ) (tail : ℕ)
    (st : ℕ × σ) : Exec (Pass (ℕ × σ) σ) :=
  let (pos, s) := st
  if pos < tail then do
    let block ← load pos
    .ok (.next (pos + B, mix s block))
  else .ok (.done s)

/-- The cases of the switch over the bytes from `tail` on, from case `n` down to case 1. -/
def tailCases (input : List UInt8) (tail : ℕ) : ℕ → BitVec w → Exec (BitVec w)
  | 0, last => .ok last
  | n + 1, last => do
      let byte ← readByte input (tail + n)
      tailCases input tail n (last ||| byte.toBitVec.setWidth w <<< (8 * n))

/-! ## What they take -/

/-- The words of the full blocks of a byte string. -/
def wordsOf (w B : ℕ) (m : List UInt8) : List (BitVec w) := (blocksOf B m).map (leWord w)

theorem word_loop {load : ℕ → Exec (BitVec w)} {input : List UInt8} (hB : 0 < B)
    (hload : ∀ pos, pos + B ≤ input.length →
      load pos = .ok (leWord w ((input.drop pos).take B))) (mix : σ → BitVec w → σ) (s : σ) :
    loop (wordPass load B mix (input.length - input.length % B)) (input.length + 1) (0, s) =
      .ok ((wordsOf w B input).foldl mix s) := by
  have hrun : ∀ budget pos s, input.length - pos < budget → pos ≤ input.length → B ∣ pos →
      loop (wordPass load B mix (input.length - input.length % B)) budget (pos, s) =
        .ok ((wordsOf w B (input.drop pos)).foldl mix s) := by
    intro budget
    induction budget with
    | zero => exact fun pos s hbudget _ _ => absurd hbudget (Nat.not_lt_zero _)
    | succ budget ih =>
        intro pos s hbudget hpos hdvd
        obtain ⟨k, rfl⟩ := hdvd
        have hdiv := Nat.div_add_mod input.length B
        have hmod := Nat.mod_lt input.length hB
        by_cases hlt : B * k < input.length - input.length % B
        · have hblock : k < input.length / B := by
            refine Nat.lt_of_mul_lt_mul_left (a := B) ?_
            omega
          have hroom : B * k + B ≤ input.length := by
            have hnext := Nat.mul_le_mul_left B (Nat.succ_le_of_lt hblock)
            rw [Nat.mul_succ] at hnext
            omega
          have hpass : wordPass load B mix (input.length - input.length % B) (B * k, s) =
              .ok (.next (B * k + B, mix s (leWord w ((input.drop (B * k)).take B)))) := by
            simp only [wordPass, if_pos hlt, hload _ hroom, Exec.ok_bind]
          have hsplit : input.drop (B * k) =
              (input.drop (B * k)).take B ++ input.drop (B * k + B) := by
            rw [← List.drop_drop, List.take_append_drop]
          have hlen : ((input.drop (B * k)).take B).length = B := by
            rw [List.length_take, List.length_drop]
            omega
          have hwords : wordsOf w B (input.drop (B * k)) =
              leWord w ((input.drop (B * k)).take B) ::
                wordsOf w B (input.drop (B * k + B)) := by
            rw [wordsOf, hsplit, blocksOf_block hB hlen, List.map_cons, ← hsplit]
            rfl
          rw [loop_next hpass, ih _ _ (by omega) hroom ⟨k + 1, by rw [Nat.mul_succ]⟩, hwords,
            List.foldl_cons]
        · have hpass : wordPass load B mix (input.length - input.length % B) (B * k, s) =
              .ok (.done s) := by
            simp only [wordPass, if_neg hlt]
          have hshort : (input.drop (B * k)).length < B := by
            rw [List.length_drop]
            omega
          rw [loop_done hpass, wordsOf, blocksOf_of_lt hshort]
          rfl
  have hall := hrun (input.length + 1) 0 s (by omega) (Nat.zero_le _) (Nat.dvd_zero B)
  rwa [List.drop_zero] at hall

theorem tailCases_eq {input : List UInt8} {tail n : ℕ} (h : tail + n ≤ input.length)
    (last : BitVec w) : tailCases input tail n last =
      .ok (last ||| leWord w ((input.drop tail).take n)) := by
  induction n generalizing last with
  | zero =>
      rw [List.take_zero, leWord]
      exact congrArg Except.ok BitVec.or_zero.symm
  | succ n ih =>
      have hlt : tail + n < input.length := by omega
      have hget : n < (input.drop tail).length := by
        rw [List.length_drop]
        omega
      have hbyte : (input.drop tail)[n] = input[tail + n] := List.getElem_drop
      have hlen : ((input.drop tail).take n).length = n := by
        rw [List.length_take]
        omega
      have hone : leWord w [input[tail + n]] = input[tail + n].toBitVec.setWidth w := by
        simp [leWord]
      rw [tailCases, readByte_of_lt hlt, Exec.ok_bind, ih (by omega), ← List.take_concat_get hget,
        List.concat_eq_append, hbyte, leWord_append, hlen, hone, BitVec.or_assoc,
        BitVec.or_comm (input[tail + n].toBitVec.setWidth w <<< (8 * n))]

/-- The switch takes the bytes behind the last full block. -/
theorem tailCases_leftover (input : List UInt8) (last : BitVec w) :
    tailCases input (input.length - input.length % B) (input.length % B) last =
      .ok (last ||| leWord w (leftover B input)) := by
  have hmod := Nat.mod_le input.length B
  have hdiv := Nat.div_add_mod input.length B
  have hstart : input.length - input.length % B = B * (input.length / B) := by omega
  rw [tailCases_eq (by omega), hstart, leftover, List.take_of_length_le]
  rw [List.length_drop]
  omega

end Hlibc
