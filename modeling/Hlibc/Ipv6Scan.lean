import Hlibc.Inet
import Hlibc.Support.Gaps
import Mathlib.Data.List.GetD

/-!
# The run that `ipv6_to_str` looks for

The first loop of `ipv6_to_str` takes a group for zero unless both of its bytes are not, and
starts the next run at the group that ended the last one.  It finds the first longest of the
parts between the groups with two such bytes, each with the group in front of it.
-/

set_option autoImplicit false

namespace Hlibc.Inet

open Gaps (Gap Longest Best Scanned)

/-! ## The parts of an address -/

/-- Both bytes of group `k` are zero. -/
def ZeroGroup (bin : List UInt8) (k : ℕ) : Prop :=
  bin.getD (2 * k) 0 = 0 ∧ bin.getD (2 * k + 1) 0 = 0

/-- No byte of group `k` is zero. -/
def Loud (bin : List UInt8) (k : ℕ) : Prop :=
  bin.getD (2 * k) 0 ≠ 0 ∧ bin.getD (2 * k + 1) 0 ≠ 0

instance (bin : List UInt8) (k : ℕ) : Decidable (ZeroGroup bin k) :=
  inferInstanceAs (Decidable (_ ∧ _))

instance (bin : List UInt8) (k : ℕ) : Decidable (Loud bin k) :=
  inferInstanceAs (Decidable (_ ∧ _))

section Scan

variable {bin : List UInt8}

theorem scanEnds_eq (hlen : bin.length = 16) {k : ℕ} (hk : k < 8) :
    orElse (.ok (2 * k == 16)) (andThen ((· != 0) <$> readByte bin (2 * k))
      ((· != 0) <$> readByte bin (2 * k + 1))) = .ok (decide (Loud bin k)) := by
  have hend : (2 * k == 16) = false := by
    rw [beq_eq_false_iff_ne]
    omega
  have hread : ∀ i, i < 16 → readByte bin i = .ok (bin.getD i 0) := by
    intro i hi
    have hlt : i < bin.length := by omega
    rw [readByte_of_lt hlt, List.getD_eq_getElem?_getD, List.getElem?_eq_getElem hlt]
    rfl
  rw [hend, hread _ (by omega), hread _ (by omega)]
  by_cases ha : bin.getD (2 * k) 0 = 0
  · have hquiet : ¬ Loud bin k := fun hloud => hloud.1 ha
    rw [ha, decide_eq_false hquiet]
    rfl
  · by_cases hb : bin.getD (2 * k + 1) 0 = 0
    · have hquiet : ¬ Loud bin k := fun hloud => hloud.2 hb
      rw [hb, decide_eq_false hquiet]
      simp [orElse, andThen]
    · have hloud : Loud bin k := ⟨ha, hb⟩
      rw [decide_eq_true hloud]
      simp only [orElse, andThen, Exec.map_ok, Exec.ok_bind, bne_iff_ne.mpr ha,
        bne_iff_ne.mpr hb, if_true, Bool.false_eq_true, if_false]

variable {k start maxStart maxSize : ℕ}

/-- Past a group with a zero byte only the counter moves. -/
theorem scanPass_quiet (hlen : bin.length = 16) (hk : k < 8) (hquiet : ¬ Loud bin k)
    (start maxStart maxSize : ℕ) :
    scanPass bin ⟨2 * k, start, maxStart, maxSize⟩ =
      .ok (.next ⟨2 * (k + 1), start, maxStart, maxSize⟩) := by
  have hbound : 2 * k ≤ 16 := by omega
  simp only [scanPass, if_pos hbound, scanEnds_eq hlen hk, decide_eq_false hquiet, Exec.ok_bind,
    Bool.false_eq_true, if_false]
  rfl

/-- At a group without a zero byte, and at the end, a part ends. -/
theorem scanPass_stop (hlen : bin.length = 16) (hk : k ≤ 8) (hstop : k = 8 ∨ Loud bin k)
    (h : Scanned (Loud bin) 8 k start maxStart maxSize) :
    ∃ s n, scanPass bin ⟨2 * k, 2 * start, 2 * maxStart, 2 * maxSize⟩ =
        .ok (.next ⟨2 * (k + 1), 2 * k, 2 * s, 2 * n⟩) ∧
      Best (Loud bin) 8 (k + 1) s n := by
  have hbound : 2 * k ≤ 16 := by omega
  have hends : orElse (.ok (2 * k == 16)) (andThen ((· != 0) <$> readByte bin (2 * k))
      ((· != 0) <$> readByte bin (2 * k + 1))) = .ok true := by
    rcases hstop with rfl | hloud
    · rfl
    · by_cases hlast : k = 8
      · subst hlast
        rfl
      · rw [scanEnds_eq hlen (by omega), decide_eq_true hloud]
  have hsize : 2 * k - 2 * start = 2 * (k - start) := by omega
  have hless : 2 * maxSize < 2 * (k - start) ↔ maxSize < k - start := by omega
  by_cases hlonger : maxSize < k - start
  · refine ⟨start, k - start, ?_, h.longer hk hstop hlonger⟩
    simp only [scanPass, if_pos hbound, hends, Exec.ok_bind, if_true, hsize,
      if_pos (hless.mpr hlonger)]
    rfl
  · refine ⟨maxStart, maxSize, ?_, h.shorter hk hstop (Nat.le_of_not_lt hlonger)⟩
    simp only [scanPass, if_pos hbound, hends, Exec.ok_bind, if_true, hsize,
      if_neg (mt hless.mp hlonger)]
    rfl

/-- In front of group `k`, or behind the sentinel. -/
def Scanning (bin : List UInt8) (st : ScanState) : Prop :=
  (∃ k start maxStart maxSize, k ≤ 8 ∧ st = ⟨2 * k, 2 * start, 2 * maxStart, 2 * maxSize⟩ ∧
      Scanned (Loud bin) 8 k start maxStart maxSize) ∨
    ∃ start maxStart maxSize, st = ⟨18, start, 2 * maxStart, 2 * maxSize⟩ ∧
      Best (Loud bin) 8 9 maxStart maxSize

/-- The first loop of `ipv6_to_str` finds the first longest part. -/
theorem ipv6Scan_longest (hlen : bin.length = 16) :
    ∃ s n, ipv6Scan bin = .ok (2 * s, 2 * n) ∧ Longest (Loud bin) 8 s n := by
  have hpass : ∀ st, Scanning bin st →
      (∃ res, scanPass bin st = .ok (.done res) ∧
          ∃ s n, res = (2 * s, 2 * n) ∧ Longest (Loud bin) 8 s n) ∨
        ∃ st', scanPass bin st = .ok (.next st') ∧ Scanning bin st' ∧
          (18 - st'.i) / 2 < (18 - st.i) / 2 := by
    rintro st (⟨k, start, maxStart, maxSize, hk, rfl, h⟩ | ⟨start, maxStart, maxSize, rfl, h⟩)
    · right
      by_cases hstop : k = 8 ∨ Loud bin k
      · obtain ⟨s, n, hrun, hbest⟩ := scanPass_stop hlen hk hstop h
        refine ⟨_, hrun, ?_, by simp only; omega⟩
        by_cases hlast : k = 8
        · subst hlast
          exact Or.inr ⟨_, s, n, rfl, hbest⟩
        · exact Or.inl ⟨k + 1, k, s, n, by omega, rfl,
            hbest.restart (hstop.resolve_left hlast)⟩
      · obtain ⟨hlast, hquiet⟩ := not_or.mp hstop
        have hlt : k < 8 := by omega
        exact ⟨_, scanPass_quiet hlen hlt hquiet _ _ _,
          Or.inl ⟨k + 1, start, maxStart, maxSize, hlt, rfl, h.quiet hlt hquiet⟩,
          by simp only; omega⟩
    · exact Or.inl ⟨_, rfl, maxStart, maxSize, rfl, h.longest (by decide)⟩
  obtain ⟨res, hres, s, n, rfl, hlongest⟩ :=
    loop_total (fun st : ScanState => (18 - st.i) / 2) hpass 10
      { i := 0, start := 0, maxStart := 0, maxSize := 0 }
      (Or.inl ⟨0, 0, 0, 0, by decide, rfl, Scanned.init _ _⟩) (by decide)
  exact ⟨s, n, hres, hlongest⟩

end Scan

/-! ## The longest run of zero groups -/

/-- The `n` groups from `s` on are zero. -/
def ZeroRun (bin : List UInt8) (s n : ℕ) : Prop :=
  s + n ≤ 8 ∧ ∀ k, s ≤ k → k < s + n → ZeroGroup bin k

/-- The loop ends with a longest run of zero groups, in bytes; its size is 0 only if there is
no zero group. -/
def FindsLongest (bin : List UInt8) : Prop :=
  ∃ s n, ipv6Scan bin = .ok (2 * s, 2 * n) ∧ ZeroRun bin s n ∧
    (∀ s' n', ZeroRun bin s' n' → n' ≤ n) ∧ (n = 0 ↔ ∀ k < 8, ¬ ZeroGroup bin k)

/-- The address starts with zero groups up to the end or a group without a zero byte, and
from no such group are there more groups to the next one, or to the end. -/
def LeadingRun (bin : List UInt8) : Prop :=
  ∃ n, 1 ≤ n ∧ ZeroRun bin 0 n ∧ (n = 8 ∨ Loud bin n) ∧
    ∀ k, Loud bin k → k + n < 8 → ∃ j, k < j ∧ j ≤ k + n ∧ Loud bin j

section Runs

variable {bin : List UInt8} {s n : ℕ}

theorem ZeroGroup.not_loud {k : ℕ} (h : ZeroGroup bin k) : ¬ Loud bin k :=
  fun hloud => hloud.1 h.1

/-- Zero groups up to the end or a group without a zero byte are the part in front. -/
theorem gap_front (hpos : 1 ≤ n) (hrun : ZeroRun bin 0 n) (hstop : n = 8 ∨ Loud bin n) :
    Gap (Loud bin) 8 0 n where
  lt := hpos
  le := by
    have := hrun.1
    omega
  start := Or.inl rfl
  stop := hstop
  clear := fun j _ hlt => (hrun.2 j (Nat.zero_le j) (by omega)).not_loud

theorem ZeroRun.le_of_gaps (hall : ∀ s' e', Gap (Loud bin) 8 s' e' → e' - s' ≤ n)
    {s' n' : ℕ} (hrun : ZeroRun bin s' n') : n' ≤ n := by
  obtain ⟨hbound, hzero⟩ := hrun
  by_cases hempty : n' = 0
  · omega
  obtain ⟨a, e, hgap, ha, he⟩ : ∃ a e, Gap (Loud bin) 8 a e ∧ a ≤ s' ∧ s' < e :=
    Gaps.exists_gap_around (by omega)
  have hend : s' + n' ≤ e := by
    by_contra hlt
    have hloud : Loud bin e := hgap.stop.resolve_left (by omega)
    exact (hzero e (by omega) (by omega)).not_loud hloud
  have := hall a e hgap
  omega

theorem gaps_le_iff (hfront : Gap (Loud bin) 8 0 n) :
    (∀ s' e', Gap (Loud bin) 8 s' e' → e' - s' ≤ n) ↔
      ∀ k, Loud bin k → k + n < 8 → ∃ j, k < j ∧ j ≤ k + n ∧ Loud bin j := by
  constructor
  · intro hall k hloud hk
    obtain ⟨e, hgap⟩ := Gaps.exists_gap (by omega : k < 8) (Or.inr hloud)
    have hsize := hall k e hgap
    exact ⟨e, hgap.lt, by omega, hgap.stop.resolve_left (by omega)⟩
  · intro hnear s' e' hgap
    rcases hgap.start with rfl | hloud
    · rw [hgap.end_unique hfront]
      exact Nat.le_refl n
    · by_contra hlong
      have hle := hgap.le
      obtain ⟨j, hj, hjle, hmark⟩ := hnear s' hloud (by omega)
      exact hgap.clear j hj (by omega) hmark

/-- The part that the loop finds is a run of zero groups only if it is the one in front. -/
theorem LeadingRun.of_longest (h : Longest (Loud bin) 8 s n) (hrun : ZeroRun bin s n) :
    LeadingRun bin := by
  have hlt := h.gap.lt
  have hstart : s = 0 := by
    rcases h.gap.start with hzero | hloud
    · exact hzero
    · exact absurd hloud (hrun.2 s (Nat.le_refl s) hlt).not_loud
  subst hstart
  have hfront : Gap (Loud bin) 8 0 n := by
    have hgap := h.gap
    rwa [Nat.zero_add] at hgap
  exact ⟨n, by omega, hrun, hfront.stop, (gaps_le_iff hfront).mp h.le⟩

/-- The part in front is found if no other is longer. -/
theorem finds_of_longest (h : Longest (Loud bin) 8 s n) (hscan : ipv6Scan bin = .ok (2 * s, 2 * n))
    (hlead : LeadingRun bin) : FindsLongest bin := by
  obtain ⟨n', hpos, hrun, hstop, hnear⟩ := hlead
  have hfront := gap_front hpos hrun hstop
  obtain rfl : s = 0 := (h.start_eq_zero_iff hfront).mpr ((gaps_le_iff hfront).mpr hnear)
  obtain rfl : n = n' := by
    have hgap := h.gap
    rw [Nat.zero_add] at hgap
    exact hgap.end_unique hfront
  refine ⟨0, n, hscan, hrun, fun s' n' hrun' => hrun'.le_of_gaps h.le, ?_⟩
  apply iff_of_false
  · omega
  · exact fun hnone => hnone 0 (by decide) (hrun.2 0 (Nat.le_refl 0) (by omega))

end Runs

/-- The loop finds a longest run of zero groups exactly if the part in front is one, and no
part is longer. -/
theorem ipv6Scan_finds_iff (b : Buffer 16) : FindsLongest b.bytes ↔ LeadingRun b.bytes := by
  obtain ⟨s, n, hscan, hlongest⟩ := ipv6Scan_longest b.length_bytes
  constructor
  · rintro ⟨s', n', hscan', hrun, -, -⟩
    have hsame := Except.ok.inj (hscan.symm.trans hscan')
    obtain rfl : s = s' := by
      have := congrArg Prod.fst hsame
      simp only at this
      omega
    obtain rfl : n = n' := by
      have := congrArg Prod.snd hsame
      simp only at this
      omega
    exact LeadingRun.of_longest hlongest hrun
  · exact finds_of_longest hlongest hscan

/-- For `2001:db8::1` the run found starts at the group `db8`. -/
theorem ipv6Scan_misses : ¬ ∀ b : Buffer 16, FindsLongest b.bytes := by
  intro hall
  obtain ⟨s, n, hscan, hrun, -, -⟩ :=
    hall ⟨[0x20, 0x01, 0x0D, 0xB8, 0, 0, 0, 0, 0, 0, 0, 0, 0, 0, 0, 1], by decide⟩
  have hfound : ipv6Scan [0x20, 0x01, 0x0D, 0xB8, 0, 0, 0, 0, 0, 0, 0, 0, 0, 0, 0, 1] =
      .ok (2, 14) := by decide
  have hsame := Except.ok.inj (hfound.symm.trans hscan)
  obtain ⟨hs, hn⟩ := Prod.mk.inj hsame
  have hzero := hrun.2 1 (by omega) (by omega)
  revert hzero
  decide

end Hlibc.Inet
