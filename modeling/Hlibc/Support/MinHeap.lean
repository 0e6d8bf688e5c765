import Mathlib.Data.Multiset.Range
import Mathlib.Logic.Equiv.Basic
import Mathlib.Order.Defs.LinearOrder
import Mathlib.Tactic.Common

/-!
# Binary heaps over a strict weak order

The order of a heap stored level by level, and what one exchange along a path
towards the root or towards the leaves does to it.  Each direction has the
invariant of a heap that is in order everywhere but at one place, a step that
moves the place, and a condition under which the place is in order as well.
-/

set_option autoImplicit false

namespace Hlibc

/-- A strict weak order: a strict order whose incomparability is transitive. -/
structure StrictWeak {α : Type*} (lt : α → α → Prop) : Prop where
  irrefl : ∀ a, ¬ lt a a
  trans : ∀ a b c, lt a b → lt b c → lt a c
  incomp_trans : ∀ a b c, ¬ lt a b → ¬ lt b a → ¬ lt b c → ¬ lt c b → ¬ lt a c

namespace StrictWeak

variable {α : Type*} {lt : α → α → Prop} (h : StrictWeak lt)

include h

theorem asymm {a b : α} (hab : lt a b) : ¬ lt b a :=
  fun hba => h.irrefl a (h.trans a b a hab hba)

theorem not_lt_trans {a b c : α} (hba : ¬ lt b a) (hcb : ¬ lt c b) : ¬ lt c a := by
  intro hca
  by_cases hab : lt a b
  · exact hcb (h.trans c a b hca hab)
  · by_cases hbc : lt b c
    · exact hba (h.trans b c a hbc hca)
    · exact h.incomp_trans c b a hcb hbc hba hab hca

omit h in
/-- Comparing keys of a linear order is a strict weak order. -/
theorem of_key {β : Type*} [LinearOrder β] (key : α → β) :
    StrictWeak fun x y : α => key x < key y where
  irrefl := fun x => lt_irrefl (key x)
  trans := fun _ _ _ => lt_trans
  incomp_trans := by
    intro x y z hxy _ hyz _
    exact not_lt.mpr ((not_lt.mp hyz).trans (not_lt.mp hxy))

end StrictWeak

namespace MinHeap

variable {α : Type*} {lt : α → α → Prop}

/-- The place above a place other than 0. -/
def parent (i : ℕ) : ℕ := (i - 1) / 2

theorem parent_lt {i : ℕ} (hi : 0 < i) : parent i < i := by
  rw [parent]
  omega

theorem parent_eq_iff {c i : ℕ} (hc : 0 < c) :
    parent c = i ↔ c = 2 * i + 1 ∨ c = 2 * i + 2 := by
  rw [parent]
  omega

/-- No element is less than its parent. -/
def Ordered (lt : α → α → Prop) (a : ℕ → α) (n : ℕ) : Prop :=
  ∀ i, 0 < i → i < n → ¬ lt (a i) (a (parent i))

/-- In order but for the pair above `i`, and so that moving the parent of `i`
down to `i` would keep the pairs below. -/
structure UpReady (lt : α → α → Prop) (a : ℕ → α) (n i : ℕ) : Prop where
  off : ∀ j, 0 < j → j < n → j ≠ i → ¬ lt (a j) (a (parent j))
  grand : ∀ c, 0 < c → c < n → parent c = i → 0 < i → ¬ lt (a c) (a (parent i))

/-- In order but for the pairs below `i`, and so that moving a child of `i` up
to `i` would keep the pair above. -/
structure DownReady (lt : α → α → Prop) (a : ℕ → α) (n i : ℕ) : Prop where
  off : ∀ j, 0 < j → j < n → parent j ≠ i → ¬ lt (a j) (a (parent j))
  grand : ∀ c, 0 < c → c < n → parent c = i → 0 < i → ¬ lt (a c) (a (parent i))

/-- The array with two elements exchanged. -/
def swapAt (a : ℕ → α) (i j : ℕ) : ℕ → α := a ∘ Equiv.swap i j

@[simp] theorem swapAt_left (a : ℕ → α) (i j : ℕ) : swapAt a i j i = a j := by
  simp [swapAt]

@[simp] theorem swapAt_right (a : ℕ → α) (i j : ℕ) : swapAt a i j j = a i := by
  simp [swapAt]

theorem swapAt_of_ne (a : ℕ → α) {i j k : ℕ} (hi : k ≠ i) (hj : k ≠ j) :
    swapAt a i j k = a k := by
  rw [swapAt, Function.comp_apply, Equiv.swap_apply_of_ne_of_ne hi hj]

theorem Ordered.root {a : ℕ → α} {n : ℕ} (h : StrictWeak lt) (ha : Ordered lt a n)
    {i : ℕ} (hi : i < n) : ¬ lt (a i) (a 0) := by
  induction i using Nat.strong_induction_on with
  | _ i ih =>
      rcases Nat.eq_zero_or_pos i with rfl | hpos
      · exact h.irrefl (a 0)
      · have hp := parent_lt hpos
        exact h.not_lt_trans (ih (parent i) hp (hp.trans hi)) (ha i hpos hi)

/-! ## Towards the root -/

/-- A heap with one element behind it is in order but for that element. -/
theorem Ordered.upReady {a : ℕ → α} {n : ℕ} (ha : Ordered lt a n) :
    UpReady lt a (n + 1) n where
  off := by
    intro j hj hjn hne
    exact ha j hj (by omega)
  grand := by
    intro c hc hcn hparent _
    have hlt := parent_lt hc
    omega

theorem UpReady.swap {a : ℕ → α} {n i : ℕ} (h : StrictWeak lt) (ha : UpReady lt a n i)
    (hi : 0 < i) (hin : i < n) (hlt : lt (a i) (a (parent i))) :
    UpReady lt (swapAt a i (parent i)) n (parent i) where
  off := by
    intro j hj hjn hne
    have hpi := parent_lt hi
    by_cases hji : j = i
    · subst hji
      rw [swapAt_left, swapAt_right]
      exact h.asymm hlt
    have hajn := ha.off j hj hjn hji
    rw [swapAt_of_ne a hji hne]
    by_cases hchild : parent j = i
    · rw [hchild, swapAt_left]
      exact ha.grand j hj hjn hchild hi
    by_cases hsibling : parent j = parent i
    · rw [hsibling] at hajn ⊢
      rw [swapAt_right]
      exact fun hjlt => hajn (h.trans _ _ _ hjlt hlt)
    · rw [swapAt_of_ne a hchild hsibling]
      exact hajn
  grand := by
    intro c hc hcn hparent hp
    have hpi := parent_lt hi
    have hpp := parent_lt hp
    have hcp := parent_lt hc
    have habove := ha.off (parent i) hp (by omega) (by omega)
    have hfixed : swapAt a i (parent i) (parent (parent i)) = a (parent (parent i)) :=
      swapAt_of_ne a (by omega) (by omega)
    rw [hfixed]
    by_cases hci : c = i
    · subst hci
      rw [swapAt_left]
      exact habove
    · have hac := ha.off c hc hcn hci
      rw [hparent] at hac
      rw [swapAt_of_ne a hci (by omega)]
      exact h.not_lt_trans habove hac

theorem UpReady.stop {a : ℕ → α} {n i : ℕ} (ha : UpReady lt a n i)
    (hstop : i = 0 ∨ ¬ lt (a i) (a (parent i))) : Ordered lt a n := by
  intro j hj hjn
  by_cases hji : j = i
  · subst hji
    exact hstop.resolve_left (Nat.ne_of_gt hj)
  · exact ha.off j hj hjn hji

/-! ## Towards the leaves -/

/-- A heap whose root is replaced is in order but for the root. -/
theorem Ordered.downReady {a b : ℕ → α} {n m : ℕ} (ha : Ordered lt a n) (hm : m ≤ n)
    (hb : ∀ k, 0 < k → k < m → b k = a k) : DownReady lt b m 0 where
  off := by
    intro j hj hjm hroot
    have hp := parent_lt hj
    rw [hb j hj hjm, hb (parent j) (Nat.pos_of_ne_zero hroot) (hp.trans hjm)]
    exact ha j hj (by omega)
  grand := by
    intro c _ _ _ hpos
    exact absurd hpos (Nat.lt_irrefl 0)

theorem DownReady.swap {a : ℕ → α} {n i c : ℕ} (h : StrictWeak lt)
    (ha : DownReady lt a n i) (hc : 0 < c) (hcn : c < n) (hparent : parent c = i)
    (hlt : lt (a c) (a i))
    (hmin : ∀ d, 0 < d → d < n → parent d = i → ¬ lt (a d) (a c)) :
    DownReady lt (swapAt a c i) n c where
  off := by
    intro j hj hjn hne
    have hic : i < c := hparent ▸ parent_lt hc
    have hpj := parent_lt hj
    by_cases hjc : j = c
    · subst hjc
      rw [hparent, swapAt_left, swapAt_right]
      exact h.asymm hlt
    by_cases hji : j = i
    · subst hji
      rw [swapAt_right, swapAt_of_ne a hne (by omega)]
      exact ha.grand c hc hcn hparent hj
    rw [swapAt_of_ne a hjc hji]
    by_cases hsibling : parent j = i
    · rw [hsibling, swapAt_right]
      exact hmin j hj hjn hsibling
    · rw [swapAt_of_ne a hne hsibling]
      exact ha.off j hj hjn hsibling
  grand := by
    intro d hd hdn hchild _
    have hic : i < c := hparent ▸ parent_lt hc
    have hcd : c < d := hchild ▸ parent_lt hd
    have had := ha.off d hd hdn (by omega)
    rw [hchild] at had
    rw [hparent, swapAt_right, swapAt_of_ne a (by omega) (by omega)]
    exact had

theorem DownReady.stop {a : ℕ → α} {n i : ℕ} (ha : DownReady lt a n i)
    (hstop : ∀ c, 0 < c → c < n → parent c = i → ¬ lt (a c) (a i)) :
    Ordered lt a n := by
  intro j hj hjn
  by_cases hchild : parent j = i
  · rw [hchild]
    exact hstop j hj hjn hchild
  · exact ha.off j hj hjn hchild

/-! ## Contents -/

/-- The elements at the first `n` places. -/
def contents (a : ℕ → α) (n : ℕ) : Multiset α := (Multiset.range n).map a

theorem contents_succ (a : ℕ → α) (n : ℕ) :
    contents a (n + 1) = a n ::ₘ contents a n := by
  rw [contents, Multiset.range_succ, Multiset.map_cons, contents]

theorem contents_congr {a b : ℕ → α} {n : ℕ} (h : ∀ k < n, a k = b k) :
    contents a n = contents b n := by
  apply Multiset.map_congr rfl
  intro k hk
  exact h k (Multiset.mem_range.mp hk)

theorem mem_contents {a : ℕ → α} {n : ℕ} {x : α} :
    x ∈ contents a n ↔ ∃ i < n, a i = x := by
  simp [contents]

theorem contents_swapAt (a : ℕ → α) {n i j : ℕ} (hi : i < n) (hj : j < n) :
    contents (swapAt a i j) n = contents a n := by
  have hrange : (Multiset.range n).map (Equiv.swap i j) = Multiset.range n := by
    apply (Multiset.Nodup.ext ((Multiset.nodup_range n).map (Equiv.injective _))
      (Multiset.nodup_range n)).mpr
    intro k
    have hmem : Equiv.swap i j k < n ↔ k < n := by
      by_cases hki : k = i
      · rw [hki, Equiv.swap_apply_left]
        omega
      by_cases hkj : k = j
      · rw [hkj, Equiv.swap_apply_right]
        omega
      · rw [Equiv.swap_apply_of_ne_of_ne hki hkj]
    rw [Multiset.mem_range, ← hmem]
    constructor
    · intro hk
      obtain ⟨x, hx, rfl⟩ := Multiset.mem_map.mp hk
      rw [Equiv.swap_apply_self]
      exact Multiset.mem_range.mp hx
    · intro hk
      exact Multiset.mem_map.mpr
        ⟨Equiv.swap i j k, Multiset.mem_range.mpr hk, Equiv.swap_apply_self i j k⟩
  rw [contents, swapAt, ← Multiset.map_map, hrange, contents]

end MinHeap

end Hlibc
