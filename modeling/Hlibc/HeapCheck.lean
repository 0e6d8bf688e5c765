import Hlibc.HeapQueue

/-!
# `is_minheap` against the order of a heap

`is_minheap` asks that every element is less than its children, where a heap
only asks that no child is less than its parent.
-/

set_option autoImplicit false

namespace Hlibc.Heap

open MinHeap

variable {size : ℕ} {less : Buffer size → Buffer size → Bool}

/-- Every element but the first is above its parent. -/
def Rising (less : Buffer size → Buffer size → Bool) (obj : List UInt8) (n : ℕ) : Prop :=
  ∀ i, 0 < i → i < n → Less less (slot size obj (parent i)) (slot size obj i)

/-- `is_minheap` returns whether the array is a heap. -/
def ChecksHeap (less : Buffer size → Buffer size → Bool) (obj : List UInt8) (n : ℕ) : Prop :=
  ∃ answer, isMinheap less obj n = .ok answer ∧
    (answer = true ↔ Ordered (Less less) (slot size obj) n)

/-- If the array is a heap, no element is equivalent to its parent, and the
places below the last one are of the type `int`. -/
def CheckMeets (less : Buffer size → Buffer size → Bool) (obj : List UInt8) (n : ℕ) : Prop :=
  Ordered (Less less) (slot size obj) n → n < 2 ^ 30 ∧ Rising less obj n

theorem Rising.ordered {obj : List UInt8} {n : ℕ} (hless : StrictWeak (Less less))
    (h : Rising less obj n) : Ordered (Less less) (slot size obj) n :=
  fun i hi hn => hless.asymm (h i hi hn)

/-! ## One pass -/

section Pass

variable {obj : List UInt8} {n i : ℕ} (hpos : 0 < size) (hn : size * n ≤ obj.length)

include hpos hn

theorem childFails_eq (hi : i < n) (c : ℕ) :
    childFails less obj n (size * i) (size * c) =
      .ok (decide (c < n) && !less (slot size obj i) (slot size obj c)) := by
  have hend : size * c < n * size ↔ c < n := by
    rw [Nat.mul_comm n size]
    exact Nat.mul_lt_mul_left hpos
  unfold childFails
  by_cases hc : c < n
  · rw [if_pos (hend.mpr hc), readElem_slot (slot_le hi hn), Exec.ok_bind,
      readElem_slot (slot_le hc hn), Exec.ok_bind, decide_eq_true hc, Bool.true_and]
  · rw [if_neg (fun h => hc (hend.mp h)), decide_eq_false hc, Bool.false_and]

omit hpos hn in
theorem childTest_eq_true {c : ℕ} :
    (decide (c < n) && !less (slot size obj i) (slot size obj c)) = true ↔
      c < n ∧ ¬ Less less (slot size obj i) (slot size obj c) := by
  rw [Bool.and_eq_true, decide_eq_true_eq, Bool.not_eq_true', ← Bool.not_eq_true, Less]

omit hpos hn in
theorem childTests_eq_false :
    ((decide (2 * i + 1 < n) && !less (slot size obj i) (slot size obj (2 * i + 1))) ||
        (decide (2 * i + 2 < n) && !less (slot size obj i) (slot size obj (2 * i + 2)))) =
        false ↔
      ∀ c, 0 < c → c < n → parent c = i → Less less (slot size obj i) (slot size obj c) := by
  rw [← Bool.not_eq_true, Bool.or_eq_true, childTest_eq_true, childTest_eq_true]
  constructor
  · intro h c hc hcn hparent
    by_contra hnot
    rcases (parent_eq_iff hc).mp hparent with rfl | rfl
    · exact h (Or.inl ⟨hcn, hnot⟩)
    · exact h (Or.inr ⟨hcn, hnot⟩)
  · rintro h (⟨hc, hnot⟩ | ⟨hc, hnot⟩)
    · exact hnot (h _ (Nat.succ_pos _) hc ((parent_eq_iff (Nat.succ_pos _)).mpr (Or.inl rfl)))
    · exact hnot (h _ (Nat.succ_pos _) hc ((parent_eq_iff (Nat.succ_pos _)).mpr (Or.inr rfl)))

/-- A pass whose places are of the type `int` looks at both children. -/
theorem isMinheapPass_of_lt (hi : i < n) (hint : i < 2 ^ 30 - 1) :
    isMinheapPass less obj n i =
      if ((decide (2 * i + 1 < n) && !less (slot size obj i) (slot size obj (2 * i + 1))) ||
        (decide (2 * i + 2 < n) && !less (slot size obj i) (slot size obj (2 * i + 2))))
      then .ok (.done false) else .ok (.next (i + 1)) := by
  have hleft : leftInt i = .ok (2 * i + 1) := by
    rw [leftInt, leftIndex_eq, if_pos (by omega)]
  have hright : rightInt i = .ok (2 * i + 2) := by
    rw [rightInt, rightIndex_eq, if_pos (by omega)]
  simp only [isMinheapPass, if_pos hi, hleft, hright, Exec.ok_bind, orElse,
    childFails_eq hpos hn hi, incInt_of_lt (by omega : i < 2 ^ 31 - 1)]
  cases decide (2 * i + 1 < n) && !less (slot size obj i) (slot size obj (2 * i + 1)) with
  | true => rfl
  | false => rfl

theorem isMinheapPass_next (hi : i < n) (hint : i < 2 ^ 30 - 1)
    (h : ∀ c, 0 < c → c < n → parent c = i → Less less (slot size obj i) (slot size obj c)) :
    isMinheapPass less obj n i = .ok (.next (i + 1)) := by
  rw [isMinheapPass_of_lt hpos hn hi hint, childTests_eq_false.mpr h,
    if_neg Bool.false_ne_true]

theorem isMinheapPass_done (hi : i < n) (hint : i < 2 ^ 30 - 1)
    (h : ¬ ∀ c, 0 < c → c < n → parent c = i →
      Less less (slot size obj i) (slot size obj c)) :
    isMinheapPass less obj n i = .ok (.done false) := by
  rw [isMinheapPass_of_lt hpos hn hi hint,
    if_pos (Bool.eq_true_of_not_eq_false fun hfalse => h (childTests_eq_false.mp hfalse))]

omit hpos hn in
/-- `RIGHT(i)` is not of the type `int` at the place 2^30 - 1. -/
theorem isMinheapPass_overflow (hi : i < n) (hint : 2 ^ 30 - 1 ≤ i) :
    isMinheapPass less obj n i = .error .overflow := by
  have hright : rightInt i = .error .overflow := by
    rw [rightInt, rightIndex_eq, if_neg (by omega)]
  simp only [isMinheapPass, if_pos hi, hright, leftInt]
  split
  · rfl
  · rfl

end Pass

/-! ## The loop -/

/-- What the loop of `is_minheap` ends with. -/
def CheckOutcome (less : Buffer size → Buffer size → Bool) (obj : List UInt8) (n : ℕ)
    (x : Exec Bool) : Prop :=
  (x = .ok false ∧ ¬ Rising less obj n) ∨ (x = .ok true ∧ Rising less obj n ∧ n < 2 ^ 30) ∨
    (x = .error .overflow ∧ Rising less obj n ∧ 2 ^ 30 ≤ n)

section Check

variable {obj : List UInt8} {n : ℕ} (hpos : 0 < size) (hn : size * n ≤ obj.length)
  (hint : n < 2 ^ 31)

include hpos hn hint

/-- The elements below the first `i` are above them. -/
theorem isMinheap_outcome : CheckOutcome less obj n (isMinheap less obj n) := by
  let I : ℕ → Prop := fun i => i ≤ n ∧ i ≤ 2 ^ 30 - 1 ∧
    ∀ c, 0 < c → c < n → parent c < i →
      Less less (slot size obj (parent c)) (slot size obj c)
  have hstart : I 0 := ⟨Nat.zero_le n, Nat.zero_le _, fun c _ _ h => absurd h (Nat.not_lt_zero _)⟩
  refine loop_ends (fun i => n - i) (fun i (hi : I i) => ?_) (n + 1) 0 hstart
    (Nat.lt_succ_of_le (Nat.sub_le n 0))
  obtain ⟨hle, hwidth, hbelow⟩ := hi
  by_cases hlt : i < n
  · by_cases hroom : i < 2 ^ 30 - 1
    · by_cases hall : ∀ c, 0 < c → c < n → parent c = i →
          Less less (slot size obj i) (slot size obj c)
      · right
        right
        refine ⟨i + 1, isMinheapPass_next hpos hn hlt hroom hall,
          ⟨hlt, by omega, fun c hc hcn hparent => ?_⟩, by omega⟩
        rcases Nat.lt_or_eq_of_le (Nat.le_of_lt_succ hparent) with hlow | heq
        · exact hbelow c hc hcn hlow
        · rw [heq]
          exact hall c hc hcn heq
      · left
        refine ⟨false, isMinheapPass_done hpos hn hlt hroom hall,
          Or.inl ⟨rfl, fun hrising => hall fun c hc hcn hparent => ?_⟩⟩
        rw [← hparent]
        exact hrising c hc hcn
    · right
      left
      refine ⟨.overflow, isMinheapPass_overflow hlt (by omega), Or.inr (Or.inr ⟨rfl, ?_,
        by omega⟩)⟩
      intro c hc hcn
      refine hbelow c hc hcn ?_
      rw [parent]
      omega
  · left
    exact ⟨true, if_neg hlt, Or.inr (Or.inl ⟨rfl, fun c hc hcn =>
      hbelow c hc hcn ((parent_lt hc).trans (by omega)), by omega⟩)⟩

/-- `is_minheap` tells heaps from other arrays exactly when no element of a heap is
equivalent to its parent. -/
theorem checksHeap_iff (hless : StrictWeak (Less less)) :
    ChecksHeap less obj n ↔ CheckMeets less obj n := by
  rcases isMinheap_outcome hpos hn hint with
    ⟨hrun, hnot⟩ | ⟨hrun, hrising, hwidth⟩ | ⟨hrun, hrising, hwidth⟩
  · constructor
    · rintro ⟨answer, hanswer, hiff⟩ hordered
      rw [hrun] at hanswer
      obtain rfl := Except.ok.inj hanswer
      exact absurd (hiff.mpr hordered) Bool.false_ne_true
    · intro hmeets
      exact ⟨false, hrun, iff_of_false Bool.false_ne_true fun h => hnot (hmeets h).2⟩
  · exact iff_of_true ⟨true, hrun, iff_of_true rfl (hrising.ordered hless)⟩
      fun _ => ⟨hwidth, hrising⟩
  · constructor
    · rintro ⟨answer, hanswer, -⟩
      rw [hrun] at hanswer
      cases hanswer
    · intro hmeets
      have hlow := (hmeets (hrising.ordered hless)).1
      omega

omit hpos in
theorem heapify_ordered (hless : StrictWeak (Less less)) {obj' : List UInt8}
    (hrun : heapify less obj n = .ok obj') :
    obj'.length = obj.length ∧ Ordered (Less less) (slot size obj') n := by
  rcases Nat.lt_or_ge size (2 ^ 31) with hsize | hsize
  · obtain ⟨made, hmade, hmoved, hordered⟩ := heapify_spec hn hint hsize hless
    rw [hrun] at hmade
    obtain rfl := Except.ok.inj hmade
    exact ⟨hmoved.length_eq, hordered⟩
  · have hordered := ordered_of_heapify hn hsize hrun
    have hstay := heapify_stay hn hint hordered
    rw [hrun] at hstay
    obtain rfl := Except.ok.inj hstay
    exact ⟨rfl, hordered⟩

end Check

/-- `is_minheap` answers rightly exactly on the arrays that are no heaps, and on those
whose elements are all above their parents; after `heapify`, on the latter only. -/
theorem isMinheap_checks_iff {obj : List UInt8} {n : ℕ} (hpos : 0 < size)
    (hless : StrictWeak (Less less)) (hn : size * n ≤ obj.length) (hint : n < 2 ^ 31) :
    (ChecksHeap less obj n ↔ CheckMeets less obj n) ∧
      ∀ obj', heapify less obj n = .ok obj' →
        (isMinheap less obj' n = .ok true ↔ CheckMeets less obj' n) := by
  refine ⟨checksHeap_iff hpos hn hint hless, fun obj' hrun => ?_⟩
  obtain ⟨hlen, hordered⟩ := heapify_ordered hn hint hless hrun
  rw [← checksHeap_iff hpos (by rwa [hlen]) hint hless]
  constructor
  · intro htrue
    exact ⟨true, htrue, iff_of_true rfl hordered⟩
  · rintro ⟨answer, hanswer, hiff⟩
    rw [hanswer, hiff.mpr hordered]

/-- Two elements of one byte in rising order. -/
theorem isMinheap_checks_bytes :
    (ChecksHeap (byteLess : Buffer 1 → Buffer 1 → Bool) [3, 7] 2 ↔
        CheckMeets (byteLess : Buffer 1 → Buffer 1 → Bool) [3, 7] 2) ∧
      ∀ obj', heapify (byteLess : Buffer 1 → Buffer 1 → Bool) [3, 7] 2 = .ok obj' →
        (isMinheap (byteLess : Buffer 1 → Buffer 1 → Bool) obj' 2 = .ok true ↔
          CheckMeets (byteLess : Buffer 1 → Buffer 1 → Bool) obj' 2) :=
  isMinheap_checks_iff Nat.one_pos byteLess_strictWeak (by decide) (by decide)

/-- Two equal elements are a heap, on which `is_minheap` returns false. -/
theorem isMinheap_equalElements :
    ¬ ∀ (size n : ℕ) (less : Buffer size → Buffer size → Bool) (obj : List UInt8),
      0 < size → StrictWeak (Less less) → n < 2 ^ 31 → size * n ≤ obj.length →
        ChecksHeap less obj n := by
  intro h
  obtain ⟨answer, hrun, hiff⟩ := h 1 2 byteLess [5, 5] Nat.one_pos byteLess_strictWeak
    (by decide) (by decide)
  have hfalse : isMinheap (byteLess : Buffer 1 → Buffer 1 → Bool) [5, 5] 2 = .ok false := by
    decide
  rw [hfalse] at hrun
  obtain rfl := Except.ok.inj hrun
  refine absurd (hiff.mpr fun i hi hlt => ?_) Bool.false_ne_true
  obtain rfl : i = 1 := by omega
  rw [Less]
  decide

end Hlibc.Heap
