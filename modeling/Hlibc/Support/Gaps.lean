import Mathlib.Data.Nat.Find
import Mathlib.Data.Nat.Notation
import Mathlib.Tactic.Common

/-!
# Gaps between marks

A row of `n` places is cut in front of every marked place.  A scan that keeps the start of
the part at hand and the longest part that has ended finds the first of the longest parts.
-/

set_option autoImplicit false

namespace Hlibc.Gaps

variable {mark : ℕ → Prop} {n s e s' e' : ℕ}

/-- A part of the row: from the front or a mark on, up to the next mark or the end. -/
structure Gap (mark : ℕ → Prop) (n s e : ℕ) : Prop where
  lt : s < e
  le : e ≤ n
  start : s = 0 ∨ mark s
  stop : e = n ∨ mark e
  clear : ∀ j, s < j → j < e → ¬ mark j

/-- The first part of the greatest length. -/
structure Longest (mark : ℕ → Prop) (n s size : ℕ) : Prop where
  gap : Gap mark n s (s + size)
  le : ∀ s' e', Gap mark n s' e' → e' - s' ≤ size
  first : ∀ s' e', Gap mark n s' e' → s' < s → e' - s' < size

/-! ## The parts of a row -/

theorem Gap.end_unique (h : Gap mark n s e) (h' : Gap mark n s e') : e = e' := by
  have hle : ∀ {a b : ℕ}, Gap mark n s a → Gap mark n s b → a ≤ b := by
    intro a b ha hb
    by_contra hlt
    rcases hb.stop with rfl | hmark
    · exact hlt ha.le
    · exact ha.clear b hb.lt (Nat.not_le.mp hlt) hmark
  exact Nat.le_antisymm (hle h h') (hle h' h)

theorem Gap.start_unique (h : Gap mark n s e) (h' : Gap mark n s' e) : s = s' := by
  have hle : ∀ {a b : ℕ}, Gap mark n a e → Gap mark n b e → a ≤ b := by
    intro a b ha hb
    by_contra hlt
    rcases ha.start with rfl | hmark
    · exact hlt (Nat.zero_le b)
    · exact hb.clear a (Nat.not_le.mp hlt) ha.lt hmark
  exact Nat.le_antisymm (hle h h') (hle h' h)

/-- At the front and at every mark a part starts. -/
theorem exists_gap (hlt : s < n) (hstart : s = 0 ∨ mark s) : ∃ e, Gap mark n s e := by
  classical
  have hend : ∃ e, s < e ∧ (e = n ∨ mark e) := ⟨n, hlt, Or.inl rfl⟩
  obtain ⟨hfind, hstop⟩ := Nat.find_spec hend
  refine ⟨Nat.find hend, hfind, Nat.find_min' hend ⟨hlt, Or.inl rfl⟩, hstart, hstop, ?_⟩
  intro j hj hjlt hmark
  exact Nat.find_min hend hjlt ⟨hj, Or.inr hmark⟩

theorem exists_gap_around {p : ℕ} (hp : p < n) : ∃ s e, Gap mark n s e ∧ s ≤ p ∧ p < e := by
  induction p with
  | zero =>
      obtain ⟨e, he⟩ := exists_gap hp (Or.inl rfl : 0 = 0 ∨ mark 0)
      exact ⟨0, e, he, Nat.le_refl 0, he.lt⟩
  | succ p ih =>
      obtain ⟨s, e, hgap, hs, he⟩ := ih (Nat.lt_of_succ_lt hp)
      by_cases hnext : p + 1 < e
      · exact ⟨s, e, hgap, Nat.le_succ_of_le hs, hnext⟩
      · obtain rfl : e = p + 1 := by omega
        have hmark : mark (p + 1) := hgap.stop.resolve_left (Nat.ne_of_lt hp)
        obtain ⟨e', he'⟩ := exists_gap hp (Or.inr hmark)
        exact ⟨p + 1, e', he', Nat.le_refl _, he'.lt⟩

/-- The longest part is the one in front exactly if no other is longer than that. -/
theorem Longest.start_eq_zero_iff {size front : ℕ} (h : Longest mark n s size)
    (hfront : Gap mark n 0 front) :
    s = 0 ↔ ∀ s' e', Gap mark n s' e' → e' - s' ≤ front := by
  constructor
  · rintro rfl s' e' hgap
    have hsize : 0 + size = front := h.gap.end_unique hfront
    have := h.le s' e' hgap
    omega
  · intro hall
    by_contra hpos
    have hlt := h.first 0 front hfront (Nat.pos_of_ne_zero hpos)
    have := hall _ _ h.gap
    omega

/-! ## The scan -/

/-- The first longest of the parts that end before place `k`, if there is one. -/
structure Best (mark : ℕ → Prop) (n k maxStart maxSize : ℕ) : Prop where
  gap : maxStart = 0 ∧ maxSize = 0 ∨
    Gap mark n maxStart (maxStart + maxSize) ∧ maxStart + maxSize < k
  le : ∀ s e, Gap mark n s e → e < k → e - s ≤ maxSize
  first : ∀ s e, Gap mark n s e → e < k → s < maxStart → e - s < maxSize

/-- What the scan knows in front of place `k`: the start of the part at hand as well. -/
structure Scanned (mark : ℕ → Prop) (n k start maxStart maxSize : ℕ) : Prop
    extends Best mark n k maxStart maxSize where
  start_le : start ≤ k
  started : start = 0 ∨ mark start ∧ start < k
  clear : ∀ j, start < j → j < k → ¬ mark j

variable {k start maxStart maxSize : ℕ}

/-- Past the end of a row with a place in it, the longest part is found. -/
theorem Best.longest (h : Best mark n (n + 1) maxStart maxSize) (hn : 0 < n) :
    Longest mark n maxStart maxSize where
  gap := by
    rcases h.gap with ⟨-, hzero⟩ | ⟨hgap, -⟩
    · obtain ⟨e, hfront⟩ := exists_gap hn (Or.inl rfl : 0 = 0 ∨ mark 0)
      have hle := h.le 0 e hfront (Nat.lt_succ_of_le hfront.le)
      have := hfront.lt
      omega
    · exact hgap
  le := fun s e hgap => h.le s e hgap (Nat.lt_succ_of_le hgap.le)
  first := fun s e hgap => h.first s e hgap (Nat.lt_succ_of_le hgap.le)

theorem Best.restart (h : Best mark n (k + 1) maxStart maxSize) (hmark : mark k) :
    Scanned mark n (k + 1) k maxStart maxSize where
  toBest := h
  start_le := Nat.le_succ k
  started := Or.inr ⟨hmark, Nat.lt_succ_self k⟩
  clear := fun _ hj hlt => absurd hj (Nat.not_lt.mpr (Nat.le_of_lt_succ hlt))

namespace Scanned

theorem init (mark : ℕ → Prop) (n : ℕ) : Scanned mark n 0 0 0 0 where
  gap := Or.inl ⟨rfl, rfl⟩
  le := fun _ _ _ hlt => absurd hlt (Nat.not_lt_zero _)
  first := fun _ _ _ hlt => absurd hlt (Nat.not_lt_zero _)
  start_le := Nat.le_refl 0
  started := Or.inl rfl
  clear := fun _ _ hlt => absurd hlt (Nat.not_lt_zero _)

/-- Past a place without a mark the part at hand goes on. -/
theorem quiet (h : Scanned mark n k start maxStart maxSize) (hk : k < n) (hmark : ¬ mark k) :
    Scanned mark n (k + 1) start maxStart maxSize := by
  have hbefore : ∀ s e, Gap mark n s e → e < k + 1 → e < k := by
    intro s e hgap hlt
    have hne : e ≠ k := by
      rintro rfl
      exact hmark (hgap.stop.resolve_left (Nat.ne_of_lt hk))
    omega
  refine ⟨⟨?_, ?_, ?_⟩, Nat.le_succ_of_le h.start_le, ?_, ?_⟩
  · exact h.toBest.gap.imp_right fun hbest => ⟨hbest.1, Nat.lt_succ_of_lt hbest.2⟩
  · exact fun s e hgap hlt => h.le s e hgap (hbefore s e hgap hlt)
  · exact fun s e hgap hlt => h.first s e hgap (hbefore s e hgap hlt)
  · exact h.started.imp_right fun hstart => ⟨hstart.1, Nat.lt_succ_of_lt hstart.2⟩
  · intro j hj hlt
    rcases Nat.lt_succ_iff_lt_or_eq.mp hlt with hlt | rfl
    · exact h.clear j hj hlt
    · exact hmark

variable (h : Scanned mark n k start maxStart maxSize) (hk : k ≤ n) (hstop : k = n ∨ mark k)

include h hk

/-- The longest part so far starts no later than the part at hand. -/
theorem maxStart_le : maxStart ≤ start := by
  rcases h.toBest.gap with ⟨rfl, -⟩ | ⟨hbest, hlt⟩
  · exact Nat.zero_le start
  · have hmark : mark (maxStart + maxSize) := hbest.stop.resolve_left (by omega)
    by_contra hstart
    have := hbest.lt
    exact h.clear _ (by omega) hlt hmark

include hstop

theorem ends (hlt : start < k) : Gap mark n start k where
  lt := hlt
  le := hk
  start := h.started.imp_right And.left
  stop := hstop
  clear := h.clear

/-- The parts that end up to `k` are those that end before, and the part at hand. -/
theorem ended (hgap : Gap mark n s e) (hlt : e < k + 1) : e < k ∨ e = k ∧ s = start := by
  rcases Nat.lt_succ_iff_lt_or_eq.mp hlt with hlt | rfl
  · exact Or.inl hlt
  · have hstart : start < e := by
      rcases h.started with rfl | ⟨-, hstart⟩
      · exact Nat.zero_lt_of_lt hgap.lt
      · exact hstart
    exact Or.inr ⟨rfl, hgap.start_unique (h.ends hk hstop hstart)⟩

/-- The part that ends at `k` is longer than those before. -/
theorem longer (hsize : maxSize < k - start) : Best mark n (k + 1) start (k - start) := by
  have hsum : start + (k - start) = k := Nat.add_sub_cancel' h.start_le
  refine ⟨Or.inr ?_, ?_, ?_⟩
  · rw [hsum]
    exact ⟨h.ends hk hstop (by omega), Nat.lt_succ_self k⟩
  · intro s e hgap hend
    rcases h.ended hk hstop hgap hend with hbefore | ⟨rfl, rfl⟩
    · exact Nat.le_of_lt (Nat.lt_of_le_of_lt (h.le s e hgap hbefore) hsize)
    · exact Nat.le_refl _
  · intro s e hgap hend hless
    rcases h.ended hk hstop hgap hend with hbefore | ⟨-, rfl⟩
    · exact Nat.lt_of_le_of_lt (h.le s e hgap hbefore) hsize
    · exact absurd hless (Nat.lt_irrefl s)

/-- The part that ends at `k` is not longer than those before. -/
theorem shorter (hsize : k - start ≤ maxSize) : Best mark n (k + 1) maxStart maxSize := by
  refine ⟨?_, ?_, ?_⟩
  · exact h.toBest.gap.imp_right fun hbest => ⟨hbest.1, Nat.lt_succ_of_lt hbest.2⟩
  · intro s e hgap hend
    rcases h.ended hk hstop hgap hend with hbefore | ⟨rfl, rfl⟩
    · exact h.le s e hgap hbefore
    · exact hsize
  · intro s e hgap hend hless
    rcases h.ended hk hstop hgap hend with hbefore | ⟨-, rfl⟩
    · exact h.first s e hgap hbefore hless
    · exact absurd hless (Nat.not_lt.mpr (h.maxStart_le hk))

end Scanned

end Hlibc.Gaps
