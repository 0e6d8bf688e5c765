import Mathlib.Data.Nat.Notation
import Mathlib.Tactic.Common

/-!
# Words assembled from moved bits

A bit permutation, selection or expansion of a word is written in C as an or
of terms `((x >> from) & 1) << to`.  `moveBits` is that or for a list of pairs
`(from, to)`.  Its bits are read off the list, so that facts about such words
are facts about the lists.
-/

set_option autoImplicit false

namespace Hlibc

/-- The bit of `x` at `start`, moved to `stop`. -/
def moveBit {w : ℕ} (x : BitVec w) (start stop : ℕ) : BitVec w :=
  ((x >>> start) &&& 1) <<< stop

/-- The or of the moved bits of a list of pairs. -/
def moveBits {w : ℕ} (moves : List (ℕ × ℕ)) (x : BitVec w) : BitVec w :=
  moves.foldr (fun p acc => moveBit x p.1 p.2 ||| acc) 0

/-- Where the bit at `stop` comes from, if any bit is moved there. -/
def moveSource (moves : List (ℕ × ℕ)) (stop : ℕ) : Option ℕ :=
  (moves.find? fun p => p.2 == stop).map Prod.fst

variable {w : ℕ}

theorem getLsbD_moveBit (x : BitVec w) (start stop i : ℕ) :
    (moveBit x start stop).getLsbD i =
      (decide (i < w) && (stop == i) && x.getLsbD start) := by
  simp only [moveBit, BitVec.getLsbD_shiftLeft, BitVec.getLsbD_and,
    BitVec.getLsbD_ushiftRight]
  by_cases hi : i < w
  · rcases Nat.lt_trichotomy i stop with hlt | rfl | hgt
    · have hne : (stop == i) = false := by
        simpa using Nat.ne_of_gt hlt
      simp [hlt, hne]
    · have hone : (1#w).getLsbD 0 = true := by
        simpa using Nat.lt_of_le_of_lt (Nat.zero_le i) hi
      simp [hi, hone]
    · have hne : (stop == i) = false := by
        simpa using Nat.ne_of_lt hgt
      have hone : (1#w).getLsbD (i - stop) = false := by
        simp only [BitVec.getLsbD_one, Bool.and_eq_false_imp, decide_eq_false_iff_not]
        omega
      simp [hne, hone]
  · simp [hi]

/-- Bit `i` is the or over the pairs that end in `i`. -/
theorem getLsbD_moveBits (moves : List (ℕ × ℕ)) (x : BitVec w) (i : ℕ) :
    (moveBits moves x).getLsbD i =
      (decide (i < w) && moves.any fun p => p.2 == i && x.getLsbD p.1) := by
  induction moves with
  | nil => simp [moveBits]
  | cons p moves ih =>
      have hcons : moveBits (p :: moves) x =
          moveBit x p.1 p.2 ||| moveBits moves x := rfl
      rw [hcons, BitVec.getLsbD_or, getLsbD_moveBit, ih, List.any_cons]
      cases decide (i < w) <;> simp

/-- When no two bits are moved to the same place, bit `i` is the bit it comes
from. -/
theorem getLsbD_moveBits_of_nodup {moves : List (ℕ × ℕ)}
    (hnodup : (moves.map Prod.snd).Nodup) (x : BitVec w) {i : ℕ} (hi : i < w) :
    (moveBits moves x).getLsbD i =
      match moveSource moves i with
      | some start => x.getLsbD start
      | none => false := by
  rw [getLsbD_moveBits]
  simp only [hi, decide_true, Bool.true_and]
  induction moves with
  | nil => simp [moveSource]
  | cons p moves ih =>
      simp only [List.map_cons, List.nodup_cons] at hnodup
      by_cases hp : p.2 = i
      · have hrest : (moves.any fun q => q.2 == i && x.getLsbD q.1) = false := by
          rw [List.any_eq_false]
          intro q hq
          have hqi : q.2 ≠ i := fun heq =>
            hnodup.1 (List.mem_map.mpr ⟨q, hq, heq.trans hp.symm⟩)
          simp [hqi]
        simp [moveSource, hp, hrest]
      · have hp' : (p.2 == i) = false := by simpa using hp
        rw [List.any_cons, ih hnodup.2]
        simp [moveSource, hp']

/-- A moved word has no bit that no pair ends in. -/
theorem getLsbD_moveBits_of_no_source {moves : List (ℕ × ℕ)} (x : BitVec w)
    {i : ℕ} (hi : ∀ p ∈ moves, p.2 ≠ i) :
    (moveBits moves x).getLsbD i = false := by
  rw [getLsbD_moveBits, Bool.and_eq_false_imp]
  intro _
  rw [List.any_eq_false]
  intro p hp
  simp [hi p hp]

/-- Every place below `width` is reached from itself through both lists. -/
def movesCancel (width : ℕ) (there back : List (ℕ × ℕ)) : Bool :=
  (List.range width).all fun i =>
    match moveSource back i with
    | some j => decide (j < width) && moveSource there j == some i
    | none => false

/-- Two lists of moves undo one another when the source of every place through
both lists is the place itself. -/
theorem moveBits_moveBits {there back : List (ℕ × ℕ)}
    (hthere : (there.map Prod.snd).Nodup) (hback : (back.map Prod.snd).Nodup)
    (hcancel : movesCancel w there back = true) (x : BitVec w) :
    moveBits back (moveBits there x) = x := by
  apply BitVec.eq_of_getLsbD_eq
  intro i hi
  have hi' := List.all_eq_true.mp hcancel i (List.mem_range.mpr hi)
  rw [getLsbD_moveBits_of_nodup hback _ hi]
  cases hsource : moveSource back i with
  | none => simp [hsource] at hi'
  | some j =>
      simp only [hsource, Bool.and_eq_true, decide_eq_true_eq, beq_iff_eq] at hi'
      simp only
      rw [getLsbD_moveBits_of_nodup hthere _ hi'.1, hi'.2]

end Hlibc
