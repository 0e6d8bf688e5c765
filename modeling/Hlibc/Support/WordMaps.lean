import Mathlib.Data.Nat.Notation
import Mathlib.Logic.Function.Basic
import Mathlib.Tactic.Common

/-!
# Maps of words that lose nothing

Products with an invertible word, rotations and the xor of a word with its own right shift
are injective, and so is what a fold makes of its start, or of one member of its list, if its
step is.
-/

set_option autoImplicit false

namespace Hlibc

variable {w : ℕ}

/-! ## Words -/

theorem mul_injective {c d : BitVec w} (h : c * d = 1#w) :
    Function.Injective fun x : BitVec w => x * c := by
  intro x y hxy
  have hcancel : ∀ z : BitVec w, z * c * d = z := by
    intro z
    rw [BitVec.mul_assoc, h, BitVec.mul_one]
  rw [← hcancel x, ← hcancel y]
  exact congrArg (· * d) hxy

/-- Bit `i` of a word comes back from where a rotation moved it. -/
theorem getLsbD_of_rotateLeft {r i : ℕ} (hr : r < w) (hi : i < w) (x : BitVec w) :
    x.getLsbD i = (x.rotateLeft r).getLsbD (if i + r < w then i + r else i + r - w) := by
  rw [BitVec.getLsbD_rotateLeft, Nat.mod_eq_of_lt hr]
  by_cases hlt : i + r < w
  · have hback : i + r - r = i := by omega
    have hge : ¬ i + r < r := by omega
    simp only [if_pos hlt, decide_eq_false hge, decide_eq_true hlt, hback, Bool.true_and,
      cond_false]
  · have hback : w - r + (i + r - w) = i := by omega
    have hlow : i + r - w < r := by omega
    simp only [if_neg hlt, decide_eq_true hlow, hback, cond_true]

theorem rotateLeft_injective {r : ℕ} (hr : r < w) :
    Function.Injective fun x : BitVec w => x.rotateLeft r := by
  intro x y hxy
  apply BitVec.eq_of_getLsbD_eq
  intro i hi
  rw [getLsbD_of_rotateLeft hr hi x, getLsbD_of_rotateLeft hr hi y]
  exact congrArg (fun z : BitVec w => z.getLsbD _) hxy

/-- The high bits are kept, and each of them gives back the bit `k` places below. -/
theorem xor_ushiftRight_injective {k : ℕ} (hk : 0 < k) :
    Function.Injective fun x : BitVec w => x ^^^ x >>> k := by
  intro x y hxy
  have hbit : ∀ i, (x.getLsbD i ^^ x.getLsbD (k + i)) = (y.getLsbD i ^^ y.getLsbD (k + i)) := by
    intro i
    have heq := congrArg (fun z : BitVec w => z.getLsbD i) hxy
    simpa using heq
  have hhigh : ∀ n i, w ≤ i + n → x.getLsbD i = y.getLsbD i := by
    intro n
    induction n with
    | zero =>
        intro i hi
        rw [BitVec.getLsbD_of_ge x i hi, BitVec.getLsbD_of_ge y i hi]
    | succ n ih =>
        intro i hi
        have habove := ih (k + i) (by omega)
        have heq := hbit i
        rw [habove] at heq
        exact Bool.xor_left_inj.mp heq
  apply BitVec.eq_of_getLsbD_eq
  exact fun i _ => hhigh w i (Nat.le_add_left w i)

/-! ## Folds -/

section Folds

variable {σ κ : Type*} {f : σ → κ → σ}

theorem foldl_injective (hf : ∀ k, Function.Injective fun s => f s k) (ks : List κ) :
    Function.Injective fun s => ks.foldl f s := by
  induction ks with
  | nil => exact Function.injective_id
  | cons k ks ih => exact ih.comp (hf k)

/-- The difference in one place is carried through whatever stands behind it. -/
theorem foldl_ne (hf : ∀ k, Function.Injective fun s => f s k)
    (hf' : ∀ s, Function.Injective (f s)) {ks ks' : List κ} {i : ℕ} (s : σ)
    (hsame : ∀ j, j ≠ i → ks[j]? = ks'[j]?) (hne : ks[i]? ≠ ks'[i]?)
    (hlen : ks.length = ks'.length) : ks.foldl f s ≠ ks'.foldl f s := by
  induction ks generalizing i s ks' with
  | nil =>
      obtain rfl := List.eq_nil_of_length_eq_zero hlen.symm
      exact absurd rfl hne
  | cons k ks ih =>
      cases ks' with
      | nil => exact absurd hlen (Nat.succ_ne_zero _)
      | cons k' ks' =>
          cases i with
          | zero =>
              have hrest : ks = ks' := by
                apply List.ext_getElem?
                exact fun j => hsame (j + 1) (Nat.succ_ne_zero j)
              subst hrest
              intro heq
              have hhead := hf' s (foldl_injective hf ks heq)
              exact hne (congrArg some hhead)
          | succ i =>
              obtain rfl : k = k' := Option.some.inj (hsame 0 (Nat.succ_ne_zero i).symm)
              refine ih (i := i) (f s k) ?_ hne (Nat.succ.inj hlen)
              intro j hj
              exact hsame (j + 1) fun heq => hj (Nat.succ.inj heq)

end Folds

end Hlibc
