import Mathlib.Data.Nat.Notation
import Mathlib.Tactic.Common
import Mathlib.Tactic.Ring

/-!
# Cutting a stream into blocks

The full blocks of a list and what is left behind them, and how both behave
when the list is put together from pieces.
-/

set_option autoImplicit false

namespace Hlibc

variable {α : Type*} {B : ℕ}

/-- The full blocks of `B` elements at the front of a list. -/
def blocksOf (B : ℕ) (m : List α) : List (List α) :=
  (List.range (m.length / B)).map fun i => (m.drop (B * i)).take B

/-- The elements behind the last full block. -/
def leftover (B : ℕ) (m : List α) : List α := m.drop (B * (m.length / B))

@[simp] theorem length_blocksOf (m : List α) :
    (blocksOf B m).length = m.length / B := by
  simp [blocksOf]

@[simp] theorem length_leftover (m : List α) :
    (leftover B m).length = m.length % B := by
  have hdiv := Nat.div_add_mod m.length B
  rw [leftover, List.length_drop]
  omega

theorem blocksOf_of_lt {m : List α} (h : m.length < B) : blocksOf B m = [] := by
  rw [blocksOf, Nat.div_eq_of_lt h, List.range_zero, List.map_nil]

theorem leftover_of_lt {m : List α} (h : m.length < B) : leftover B m = m := by
  rw [leftover, Nat.div_eq_of_lt h, Nat.mul_zero, List.drop_zero]

@[simp] theorem blocksOf_nil : blocksOf B ([] : List α) = [] := by
  simp [blocksOf]

@[simp] theorem leftover_nil : leftover B ([] : List α) = [] := by
  simp [leftover]

/-- A list that starts with a block has this block and those of the rest. -/
theorem blocksOf_block {a : List α} (hB : 0 < B) (ha : a.length = B) (b : List α) :
    blocksOf B (a ++ b) = a :: blocksOf B b := by
  have hdiv : (a ++ b).length / B = b.length / B + 1 := by
    rw [List.length_append, ha, Nat.add_comm, Nat.add_div_right _ hB]
  rw [blocksOf, hdiv, List.range_succ_eq_map, List.map_cons, List.map_map,
    Nat.mul_zero, List.drop_zero, List.take_left' ha]
  congr 1
  apply List.map_congr_left
  intro i _
  have hskip : B * Nat.succ i = a.length + B * i := by
    rw [ha, Nat.mul_succ, Nat.add_comm]
  rw [Function.comp_apply, hskip, List.drop_length_add_append]

theorem blocksOf_append {a : List α} {k : ℕ} (hB : 0 < B) (ha : a.length = B * k)
    (b : List α) : blocksOf B (a ++ b) = blocksOf B a ++ blocksOf B b := by
  induction k generalizing a with
  | zero =>
      obtain rfl := List.eq_nil_of_length_eq_zero ha
      simp
  | succ k ih =>
      have hhead : (a.take B).length = B := by
        rw [List.length_take, ha, Nat.mul_succ]
        omega
      have htail : (a.drop B).length = B * k := by
        rw [List.length_drop, ha, Nat.mul_succ, Nat.add_sub_cancel]
      have hsplit : a = a.take B ++ a.drop B := (List.take_append_drop B a).symm
      rw [hsplit, List.append_assoc, blocksOf_block hB hhead, ih htail,
        blocksOf_block hB hhead, List.cons_append]

/-- The blocks of a list, and what is left, put it together again. -/
theorem take_append_leftover (m : List α) :
    m.take (B * (m.length / B)) ++ leftover B m = m :=
  List.take_append_drop _ m

theorem length_take_blocks (m : List α) :
    (m.take (B * (m.length / B))).length = B * (m.length / B) := by
  have hle := Nat.mul_div_le m.length B
  rw [List.length_take]
  omega

/-- The block with the number `k`. -/
def blockAt (B : ℕ) (m : List α) (k : ℕ) : List α := (m.drop (B * k)).take B

theorem blocksOf_drop (m : List α) (k : ℕ) :
    blocksOf B (m.drop (B * k)) = (List.range' k (m.length / B - k)).map (blockAt B m) := by
  have hcount : (m.drop (B * k)).length / B = m.length / B - k := by
    rw [List.length_drop, Nat.sub_mul_div]
  rw [blocksOf, hcount, List.range'_eq_map_range, List.map_map]
  apply List.map_congr_left
  intro i _
  rw [List.drop_drop, Function.comp_apply, blockAt, Nat.mul_add]

theorem blockAt_append {a : List α} {k : ℕ} (hk : k < a.length / B) (b : List α) :
    blockAt B (a ++ b) k = blockAt B a k := by
  have hle : B * (k + 1) ≤ a.length :=
    (Nat.mul_le_mul_left B hk).trans (Nat.mul_div_le a.length B)
  rw [Nat.mul_succ] at hle
  rw [blockAt, blockAt, List.drop_append_of_le_length (by omega),
    List.take_append_of_le_length (by rw [List.length_drop]; omega)]

/-- Only what is left of the front meets the blocks of the rest. -/
theorem blocksOf_append_leftover (hB : 0 < B) (a b : List α) :
    blocksOf B (a ++ b) = blocksOf B a ++ blocksOf B (leftover B a ++ b) := by
  have hfront : blocksOf B a = blocksOf B (a.take (B * (a.length / B))) := by
    have hrest : (leftover B a).length < B := by
      rw [length_leftover]
      exact Nat.mod_lt _ hB
    have happend := blocksOf_append hB (length_take_blocks a) (leftover B a)
    rw [take_append_leftover, blocksOf_of_lt hrest, List.append_nil] at happend
    exact happend
  have hsplit := blocksOf_append hB (length_take_blocks a) (leftover B a ++ b)
  rw [← List.append_assoc, take_append_leftover, ← hfront] at hsplit
  exact hsplit

/-- What is left of a list depends only on what is left of its front. -/
theorem leftover_append_leftover (hB : 0 < B) (a b : List α) :
    leftover B (a ++ b) = leftover B (leftover B a ++ b) := by
  have hlen : (a ++ b).length = B * (a.length / B) + (leftover B a ++ b).length := by
    have hdiv := Nat.div_add_mod a.length B
    rw [List.length_append, List.length_append, length_leftover]
    omega
  have hquot : (a ++ b).length / B =
      a.length / B + (leftover B a ++ b).length / B := by
    rw [hlen, Nat.mul_add_div hB]
  have hsplit : a ++ b = a.take (B * (a.length / B)) ++ (leftover B a ++ b) := by
    rw [← List.append_assoc, take_append_leftover]
  calc leftover B (a ++ b)
      = (a.take (B * (a.length / B)) ++ (leftover B a ++ b)).drop
          (B * (a.length / B) + B * ((leftover B a ++ b).length / B)) := by
        rw [leftover, hquot, Nat.mul_add, hsplit]
    _ = leftover B (leftover B a ++ b) := by
        rw [List.drop_append, length_take_blocks, Nat.add_sub_cancel_left,
          List.drop_of_length_le (by rw [length_take_blocks]; omega),
          List.nil_append]
        rfl

theorem leftover_append_of_dvd {a : List α} (hB : 0 < B) (ha : a.length % B = 0)
    (b : List α) : leftover B (a ++ b) = leftover B b := by
  have hnil : leftover B a = [] := by
    apply List.eq_nil_of_length_eq_zero
    rw [length_leftover, ha]
  rw [leftover_append_leftover hB, hnil, List.nil_append]

theorem length_of_mem_blocksOf {m b : List α} (hb : b ∈ blocksOf B m) : b.length = B := by
  obtain ⟨i, hi, rfl⟩ := List.mem_map.mp hb
  have hlt : B * (i + 1) ≤ B * (m.length / B) :=
    Nat.mul_le_mul_left B (List.mem_range.mp hi)
  have hle := Nat.mul_div_le m.length B
  rw [Nat.mul_succ] at hlt
  rw [List.length_take, List.length_drop]
  omega

/-- The blocks of a list of whole blocks put it together again. -/
theorem flatten_blocksOf {k : ℕ} (hB : 0 < B) {m : List α} (hm : m.length = B * k) :
    (blocksOf B m).flatten = m := by
  induction k generalizing m with
  | zero =>
      obtain rfl := List.eq_nil_of_length_eq_zero hm
      rw [blocksOf_nil, List.flatten_nil]
  | succ k ih =>
      rw [Nat.mul_succ] at hm
      have hhead : (m.take B).length = B := by
        rw [List.length_take]
        omega
      have htail : (m.drop B).length = B * k := by
        rw [List.length_drop]
        omega
      have hsplit : m = m.take B ++ m.drop B := (List.take_append_drop B m).symm
      conv_lhs => rw [hsplit]
      rw [blocksOf_block hB hhead, List.flatten_cons, ih htail, ← hsplit]
/-- The blocks of a list and what is left put it together again. -/
theorem flatten_blocksOf_append_leftover (hB : 0 < B) (m : List α) :
    (blocksOf B m).flatten ++ leftover B m = m := by
  have hfront := length_take_blocks (B := B) m
  have hrest : (leftover B m).length < B := by
    rw [length_leftover]
    exact Nat.mod_lt _ hB
  have hsplit := blocksOf_append hB hfront (leftover B m)
  rw [take_append_leftover, blocksOf_of_lt hrest, List.append_nil] at hsplit
  rw [hsplit, flatten_blocksOf hB hfront, take_append_leftover]

/-- Blocks put together, with less than a block behind them. -/
theorem blocksOf_flatten_append (hB : 0 < B) {bs : List (List α)} {rest : List α}
    (hbs : ∀ b ∈ bs, b.length = B) (hrest : rest.length < B) :
    blocksOf B (bs.flatten ++ rest) = bs ∧ leftover B (bs.flatten ++ rest) = rest := by
  induction bs with
  | nil => exact ⟨blocksOf_of_lt hrest, leftover_of_lt hrest⟩
  | cons b bs ih =>
      obtain ⟨hb, hbs⟩ := List.forall_mem_cons.mp hbs
      obtain ⟨hblocks, hleft⟩ := ih hbs
      rw [List.flatten_cons, List.append_assoc]
      refine ⟨by rw [blocksOf_block hB hb, hblocks], ?_⟩
      rw [leftover_append_of_dvd hB (by rw [hb, Nat.mod_self]), hleft]

end Hlibc
