import Hlibc.Support.Exec
import Mathlib.Algebra.Order.Ring.Int
import Mathlib.Data.Int.GCD

/-!
# `gcd` and `lcm`

The integer functions of `math.c`.  `lcm` multiplies its arguments before it divides, so the
product has to be an `int` also where the result is one.
-/

set_option autoImplicit false

namespace Hlibc.Math

/-! ## The functions of the source -/

/-- An expression of type `int`, by its mathematical value. -/
def toInt (x : ℤ) : Exec ℤ :=
  if -2 ^ 31 ≤ x ∧ x < 2 ^ 31 then .ok x else .error .overflow

/-- `abs`. -/
def abs (x : ℤ) : Exec ℤ := toInt |x|

/-- `x / y`; by 0 it has no value of the type either. -/
def divInt (x y : ℤ) : Exec ℤ :=
  if y = 0 then .error .overflow else toInt (x.tdiv y)

/-- `x % y`, which is defined where `x / y` is. -/
def modInt (x y : ℤ) : Exec ℤ := do
  let _ ← divInt x y
  .ok (x.tmod y)

/-- One pass of the loop of `gcd`. -/
def gcdPass (st : ℤ × ℤ) : Exec (Pass (ℤ × ℤ) ℤ) :=
  let (a, b) := st
  if b ≠ 0 then do
    let c ← modInt a b
    .ok (.next (b, c))
  else .ok (.done a)

/-- `gcd`; the remainders decrease, so `b` of them are enough. -/
def gcd (a b : ℤ) : Exec ℤ := do
  let a ← abs a
  let b ← abs b
  let (a, b) := if a < b then (b, a) else (a, b)
  loop gcdPass (b.toNat + 1) (a, b)

/-- `lcm`. -/
def lcm (a b : ℤ) : Exec ℤ := do
  let c ← gcd a b
  let product ← toInt (a * b)
  let product ← abs product
  let divisor ← toInt (c + if c = 0 then 1 else 0)
  divInt product divisor

/-! ## The greatest common divisor -/

/-- An `int` other than `INT_MIN`. -/
structure Negatable (x : ℤ) : Prop where
  gt : -2 ^ 31 < x
  lt : x < 2 ^ 31

variable {a b x y : ℤ}

theorem toInt_eq (hlow : -2 ^ 31 ≤ x) (hhigh : x < 2 ^ 31) : toInt x = .ok x :=
  if_pos ⟨hlow, hhigh⟩

theorem toInt_natCast {n : ℕ} (h : n < 2 ^ 31) : toInt n = .ok (n : ℤ) :=
  toInt_eq (by omega) (by omega)

theorem Negatable.natAbs_lt (h : Negatable x) : x.natAbs < 2 ^ 31 := by
  have := h.gt
  have := h.lt
  omega

theorem Negatable.abs_eq (h : Negatable x) : abs x = .ok (x.natAbs : ℤ) := by
  rw [abs, Int.abs_eq_natAbs, toInt_natCast h.natAbs_lt]

theorem divInt_natCast {m n : ℕ} (hm : m < 2 ^ 31) (hn : n ≠ 0) :
    divInt m n = .ok ((m / n : ℕ) : ℤ) := by
  have hquot : m / n < 2 ^ 31 := Nat.lt_of_le_of_lt (Nat.div_le_self m n) hm
  rw [divInt, if_neg (Int.natCast_ne_zero.mpr hn), ← Int.ofNat_tdiv, toInt_natCast hquot]

theorem gcdPass_next {m n : ℕ} (hm : m < 2 ^ 31) (hn : n ≠ 0) :
    gcdPass (m, n) = .ok (.next ((n : ℤ), ((m % n : ℕ) : ℤ))) := by
  have hdefined := divInt_natCast hm hn
  simp only [gcdPass, if_pos (Int.natCast_ne_zero.mpr hn), modInt, hdefined, Exec.ok_bind,
    Int.ofNat_tmod]

theorem gcd_loop {budget m n : ℕ} (hm : m < 2 ^ 31) (hn : n < 2 ^ 31) (hbudget : n < budget) :
    loop gcdPass budget (m, n) = .ok (Nat.gcd m n : ℤ) := by
  induction budget generalizing m n with
  | zero => exact absurd hbudget (Nat.not_lt_zero n)
  | succ budget ih =>
      by_cases hzero : n = 0
      · subst hzero
        rw [Nat.gcd_zero_right]
        exact loop_done rfl budget
      · have hlt : m % n < n := Nat.mod_lt m (Nat.pos_of_ne_zero hzero)
        rw [loop_next (gcdPass_next hm hzero), ih hn (by omega) (by omega), Nat.gcd_comm n,
          ← Nat.gcd_rec, Nat.gcd_comm]

theorem gcd_eq (ha : Negatable a) (hb : Negatable b) : gcd a b = .ok (Int.gcd a b : ℤ) := by
  rw [gcd, ha.abs_eq, hb.abs_eq, Exec.ok_bind, Exec.ok_bind]
  by_cases hlt : (a.natAbs : ℤ) < b.natAbs
  · simp only [if_pos hlt, Int.toNat_natCast]
    rw [gcd_loop hb.natAbs_lt ha.natAbs_lt (Nat.lt_succ_self _), Nat.gcd_comm]
    rfl
  · simp only [if_neg hlt, Int.toNat_natCast]
    exact gcd_loop ha.natAbs_lt hb.natAbs_lt (Nat.lt_succ_self _)

/-! ## The least common multiple -/

/-- `gcd` and `lcm` return the numbers they are named for, and no intermediate value leaves
its type. -/
def ReturnsLcm (a b : ℤ) : Prop :=
  gcd a b = .ok (Int.gcd a b : ℤ) ∧ lcm a b = .ok (Int.lcm a b : ℤ)

theorem lcm_eq (ha : Negatable a) (hb : Negatable b) (hproduct : |a * b| < 2 ^ 31) :
    lcm a b = .ok (Int.lcm a b : ℤ) := by
  have hproduct' : Negatable (a * b) := ⟨(abs_lt.mp hproduct).1, (abs_lt.mp hproduct).2⟩
  have hgcd : Int.gcd a b < 2 ^ 31 := by
    by_cases hzero : a = 0
    · rw [hzero, Int.gcd_zero_left]
      exact hb.natAbs_lt
    · exact Nat.lt_of_le_of_lt (Int.gcd_le_natAbs_left b hzero) ha.natAbs_lt
  rw [lcm, gcd_eq ha hb, Exec.ok_bind, toInt_eq (Int.le_of_lt hproduct'.gt) hproduct'.lt,
    Exec.ok_bind, hproduct'.abs_eq, Exec.ok_bind]
  by_cases hzero : Int.gcd a b = 0
  · obtain ⟨rfl, rfl⟩ := Int.gcd_eq_zero_iff.mp hzero
    rfl
  · have hdivisor : toInt ((Int.gcd a b : ℤ) + if (Int.gcd a b : ℤ) = 0 then 1 else 0) =
        .ok (Int.gcd a b : ℤ) := by
      rw [if_neg (Int.natCast_ne_zero.mpr hzero), Int.add_zero, toInt_natCast hgcd]
    rw [hdivisor, Exec.ok_bind, divInt_natCast hproduct'.natAbs_lt hzero, Int.natAbs_mul,
      ← Int.gcd_mul_lcm, Nat.mul_div_cancel_left _ (Nat.pos_of_ne_zero hzero)]

/-- The product has to be an `int` with an absolute value. -/
theorem product_lt_of_lcm (h : lcm a b = .ok y) : |a * b| < 2 ^ 31 := by
  rw [lcm, Exec.bind_eq_ok] at h
  obtain ⟨c, -, h⟩ := h
  obtain ⟨product, hproduct, h⟩ := Exec.bind_eq_ok.mp h
  obtain ⟨value, hvalue, -⟩ := Exec.bind_eq_ok.mp h
  rw [toInt] at hproduct
  split at hproduct
  · obtain rfl := Except.ok.inj hproduct
    rw [abs, toInt] at hvalue
    split at hvalue
    · next hrange => exact hrange.2
    · cases hvalue
  · cases hproduct

/-- `lcm` returns the least common multiple exactly if the absolute value of the product is an
`int`, whether the multiple is one or not. -/
theorem lcm_returns_iff (ha : Negatable a) (hb : Negatable b) :
    ReturnsLcm a b ↔ |a * b| < 2 ^ 31 := by
  constructor
  · rintro ⟨-, hreturns⟩
    exact product_lt_of_lcm hreturns
  · intro hproduct
    exact ⟨gcd_eq ha hb, lcm_eq ha hb hproduct⟩

/-- Of -4 and 6. -/
theorem lcm_returns_iff_twelve : ReturnsLcm (-4) 6 :=
  (lcm_returns_iff ⟨by decide, by decide⟩ ⟨by decide, by decide⟩).mpr (by decide)

/-- 65536 is its own multiple, but the product has no value of the type. -/
theorem lcm_overflows :
    ¬ ∀ a b : ℤ, Negatable a → Negatable b → (Int.lcm a b : ℤ) < 2 ^ 31 → ReturnsLcm a b := by
  intro hall
  have hreturns := hall 65536 65536 ⟨by decide, by decide⟩ ⟨by decide, by decide⟩ (by decide)
  have hlt := product_lt_of_lcm hreturns.2
  revert hlt
  decide

end Hlibc.Math
