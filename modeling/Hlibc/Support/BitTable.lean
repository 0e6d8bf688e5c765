import Hlibc.Support.BitMove
import Mathlib.Data.List.Nodup

/-!
# Bits numbered from the left

Standards of ciphers number the bits of a word from its left end, beginning
with 1, and give permutations, selections and expansions as tables of such
numbers.  `choose` reads a table; the words that C assembles from moved bits
have the bits that their tables choose.
-/

set_option autoImplicit false

namespace Hlibc

variable {α β : Type*} {w n : ℕ}

/-- The `n` low bits of a word, from left to right. -/
def bitsOf (n : ℕ) (x : BitVec w) : List Bool := (List.range n).reverse.map x.getLsbD

/-- The entries that a table names by their numbers. -/
def choose (table : List ℕ) (l : List α) : List α := table.filterMap fun i => l[i - 1]?

/-- The moves that a table asks for, from words of `w` bits to words of `n` bits. -/
def tableMoves (w n : ℕ) (table : List ℕ) : List (ℕ × ℕ) :=
  (table.map (w - ·)).zip (List.range n).reverse

/-! ## Bits -/

@[simp] theorem length_bitsOf (x : BitVec w) : (bitsOf n x).length = n := by
  simp [bitsOf]

theorem bitsOf_congr {v : ℕ} {x : BitVec w} {y : BitVec v}
    (h : ∀ i < n, x.getLsbD i = y.getLsbD i) : bitsOf n x = bitsOf n y := by
  apply List.map_congr_left
  intro i hi
  exact h i (List.mem_range.mp (List.mem_reverse.mp hi))

/-- Bit number `i` from the left is bit `n - i` from the right. -/
theorem bitsOf_eq_map (x : BitVec w) :
    bitsOf n x = (List.range' 1 n).map fun i => x.getLsbD (n - i) := by
  rw [bitsOf, List.range_eq_range', List.reverse_range', List.map_map, List.range'_eq_map_range,
    List.map_map]
  apply List.map_congr_left
  intro i _
  have hnumber : 0 + n - 1 - i = n - (1 + i) := by omega
  exact congrArg x.getLsbD hnumber

theorem bitsOf_add (a b : ℕ) (x : BitVec w) :
    bitsOf (a + b) x = bitsOf a (x >>> b) ++ bitsOf b x := by
  rw [bitsOf, Nat.add_comm, List.range_add, List.reverse_append, List.map_append,
    ← List.map_reverse, List.map_map]
  congr 1
  apply List.map_congr_left
  intro i _
  exact (BitVec.getLsbD_ushiftRight x b i).symm

theorem take_bitsOf (a b : ℕ) (x : BitVec w) : (bitsOf (a + b) x).take a = bitsOf a (x >>> b) := by
  rw [bitsOf_add, List.take_left' (length_bitsOf _)]

theorem drop_bitsOf (a b : ℕ) (x : BitVec w) : (bitsOf (a + b) x).drop a = bitsOf b x := by
  rw [bitsOf_add, List.drop_left' (length_bitsOf _)]

theorem bitsOf_xor (x y : BitVec w) :
    bitsOf n (x ^^^ y) = List.zipWith xor (bitsOf n x) (bitsOf n y) := by
  rw [bitsOf, bitsOf, bitsOf, List.zipWith_map, List.zipWith_self]
  apply List.map_congr_left
  intro i _
  exact BitVec.getLsbD_xor

theorem bitsOf_not (hn : n ≤ w) (x : BitVec w) : bitsOf n (~~~x) = (bitsOf n x).map not := by
  rw [bitsOf, bitsOf, List.map_map]
  apply List.map_congr_left
  intro i hi
  have hlt : i < n := List.mem_range.mp (List.mem_reverse.mp hi)
  have hwide : i < w := by omega
  rw [BitVec.getLsbD_not, decide_eq_true hwide, Bool.true_and]
  rfl

theorem bitsOf_inj {x y : BitVec w} (h : bitsOf w x = bitsOf w y) : x = y := by
  apply BitVec.eq_of_getLsbD_eq
  intro i hi
  have hmem : i ∈ (List.range w).reverse := List.mem_reverse.mpr (List.mem_range.mpr hi)
  exact List.map_inj_left.mp h i hmem

theorem bitsOf_shiftLeft_or {a b : ℕ} {x y : BitVec w} (hw : a + b ≤ w)
    (hy : ∀ i, b ≤ i → y.getLsbD i = false) :
    bitsOf (a + b) (x <<< b ||| y) = bitsOf a x ++ bitsOf b y := by
  rw [bitsOf_add]
  congr 1
  · apply bitsOf_congr
    intro i hi
    have hback : b + i - b = i := by omega
    have hlt : b + i < w := by omega
    rw [BitVec.getLsbD_ushiftRight, BitVec.getLsbD_or, BitVec.getLsbD_shiftLeft, hback,
      hy (b + i) (by omega)]
    simp [hlt]
  · apply bitsOf_congr
    intro i hi
    rw [BitVec.getLsbD_or, BitVec.getLsbD_shiftLeft]
    simp [hi]

/-! ## Digits -/

/-- Words of `a` bits written one behind the other. -/
def packDigits (a : ℕ) : List (BitVec w) → BitVec w
  | [] => 0
  | x :: xs => x <<< (a * xs.length) ||| packDigits a xs

theorem packDigits_high {a : ℕ} {xs : List (BitVec w)}
    (hxs : ∀ x ∈ xs, ∀ i, a ≤ i → x.getLsbD i = false) {i : ℕ} (hi : a * xs.length ≤ i) :
    (packDigits a xs).getLsbD i = false := by
  induction xs with
  | nil => exact BitVec.getLsbD_zero
  | cons x xs ih =>
      rw [List.length_cons, Nat.mul_succ] at hi
      obtain ⟨hx, hrest⟩ := List.forall_mem_cons.mp hxs
      rw [packDigits, BitVec.getLsbD_or, ih hrest (by omega), BitVec.getLsbD_shiftLeft,
        hx (i - a * xs.length) (by omega)]
      simp

theorem bitsOf_packDigits {a : ℕ} {xs : List (BitVec w)}
    (hxs : ∀ x ∈ xs, ∀ i, a ≤ i → x.getLsbD i = false) (hw : a * xs.length ≤ w) :
    bitsOf (a * xs.length) (packDigits a xs) = xs.flatMap (bitsOf a) := by
  induction xs with
  | nil => rfl
  | cons x xs ih =>
      obtain ⟨-, hrest⟩ := List.forall_mem_cons.mp hxs
      have hlength : a * (x :: xs).length = a + a * xs.length := by
        rw [List.length_cons, Nat.mul_succ, Nat.add_comm]
      rw [hlength] at hw ⊢
      rw [packDigits, bitsOf_shiftLeft_or hw fun i hi => packDigits_high hrest hi,
        ih hrest (by omega), List.flatMap_cons]

/-! ## Tables -/

theorem choose_map (g : α → β) (table : List ℕ) (l : List α) :
    choose table (l.map g) = (choose table l).map g := by
  rw [choose, choose, List.map_filterMap]
  simp only [List.getElem?_map]

/-- In the list of all numbers, a table chooses its own. -/
theorem choose_range' {table : List ℕ} (h : ∀ i ∈ table, 0 < i ∧ i ≤ n) :
    choose table (List.range' 1 n) = table := by
  induction table with
  | nil => rfl
  | cons i table ih =>
      obtain ⟨⟨hpos, hle⟩, hrest⟩ := List.forall_mem_cons.mp h
      have hget : (List.range' 1 n)[i - 1]? = some i := by
        rw [List.getElem?_range' (by omega)]
        congr 1
        omega
      have hcons : choose (i :: table) (List.range' 1 n) =
          i :: choose table (List.range' 1 n) := List.filterMap_cons_some hget
      rw [hcons, ih hrest]

theorem choose_bitsOf {table : List ℕ} (h : ∀ i ∈ table, 0 < i ∧ i ≤ n) (x : BitVec w) :
    choose table (bitsOf n x) = table.map fun i => x.getLsbD (n - i) := by
  rw [bitsOf_eq_map, choose_map, choose_range' h]

/-- When one bit is moved to each of the `n` low places, from left to right, the bits of
the word are the moved bits. -/
theorem bitsOf_moveBits {moves : List (ℕ × ℕ)} (hn : n ≤ w)
    (hmoves : moves.map Prod.snd = (List.range n).reverse) (x : BitVec w) :
    bitsOf n (moveBits moves x) = moves.map fun p => x.getLsbD p.1 := by
  have hnodup : (moves.map Prod.snd).Nodup := by
    rw [hmoves]
    exact List.nodup_reverse.mpr List.nodup_range
  rw [bitsOf, ← hmoves, List.map_map]
  apply List.map_congr_left
  intro p hp
  have hlt : p.2 < w := by
    have hmem : p.2 ∈ (List.range n).reverse := by
      rw [← hmoves]
      exact List.mem_map_of_mem hp
    have hlow := List.mem_range.mp (List.mem_reverse.mp hmem)
    omega
  show (moveBits moves x).getLsbD p.2 = x.getLsbD p.1
  rw [getLsbD_moveBits, decide_eq_true hlt, Bool.true_and, Bool.eq_iff_iff, List.any_eq_true]
  constructor
  · rintro ⟨q, hq, hmoved⟩
    obtain ⟨hplace, hbit⟩ := Bool.and_eq_true_iff.mp hmoved
    have hqp : q = p := List.inj_on_of_nodup_map hnodup hq hp (eq_of_beq hplace)
    rw [← hqp]
    exact hbit
  · intro hbit
    exact ⟨p, hp, by rw [beq_self_eq_true, Bool.true_and, hbit]⟩

/-- A word assembled by the moves of a table has the bits that the table chooses. -/
theorem bitsOf_tableMoves {v : ℕ} {table : List ℕ} (hn : n ≤ w) (hlen : table.length = n)
    (htable : ∀ i ∈ table, 0 < i ∧ i ≤ v) (x : BitVec w) :
    bitsOf n (moveBits (tableMoves v n table) x) = choose table (bitsOf v x) := by
  have hsame : (table.map (v - ·)).length = (List.range n).reverse.length := by
    rw [List.length_map, List.length_reverse, List.length_range, hlen]
  have hplaces : (tableMoves v n table).map Prod.snd = (List.range n).reverse :=
    List.map_snd_zip (Nat.le_of_eq hsame.symm)
  have hsources : (tableMoves v n table).map Prod.fst = table.map (v - ·) :=
    List.map_fst_zip (Nat.le_of_eq hsame)
  calc
    bitsOf n (moveBits (tableMoves v n table) x) =
        ((tableMoves v n table).map Prod.fst).map x.getLsbD := by
      rw [bitsOf_moveBits hn hplaces, List.map_map]
      rfl
    _ = choose table (bitsOf v x) := by
      rw [hsources, List.map_map, choose_bitsOf htable]
      rfl

end Hlibc
