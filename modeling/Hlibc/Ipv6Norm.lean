import Hlibc.InetText
import Hlibc.Ipv6Run
import Hlibc.Ipv6Scan

/-!
# What `ipv6_norm` writes

`ipv6_norm` returns 0 only where `ipv6_to_str` finds no group to write: where no group
behind the first is stored as two bytes that are not zero.  Then it writes a colon.  For
every other string that `ipv6_to_bin` takes it does not return.
-/

set_option autoImplicit false

namespace Hlibc.Inet

/-! ## The longest run -/

/-- No group behind the first has two bytes that are not zero. -/
def Sparse (bin : List UInt8) : Prop :=
  ∀ k, 1 ≤ k → k < 8 → bin.getD (2 * k) 0 = 0 ∨ bin.getD (2 * k + 1) 0 = 0

instance (bin : List UInt8) : Decidable (Sparse bin) :=
  decidable_of_iff (∀ k < 8, 1 ≤ k → bin.getD (2 * k) 0 = 0 ∨ bin.getD (2 * k + 1) 0 = 0)
    ⟨fun h k hpos hlt => h k hlt hpos, fun h k hlt hpos => h k hpos hlt⟩

section Scan

open Gaps (Gap)

variable {bin : List UInt8}

theorem Sparse.gap (h : Sparse bin) : Gap (Loud bin) 8 0 8 where
  lt := by decide
  le := Nat.le_refl 8
  start := Or.inl rfl
  stop := Or.inl rfl
  clear := by
    rintro k hpos hk ⟨hfirst, hsecond⟩
    exact (h k hpos hk).elim hfirst hsecond

theorem ipv6Scan_sparse (hlen : bin.length = 16) (hsparse : Sparse bin) :
    ipv6Scan bin = .ok (0, 16) := by
  obtain ⟨s, n, hscan, hlongest⟩ := ipv6Scan_longest hlen
  obtain rfl : s = 0 := by
    apply (hlongest.start_eq_zero_iff hsparse.gap).mpr
    intro s' e' hgap
    exact Nat.le_trans (Nat.sub_le e' s') hgap.le
  obtain rfl : n = 8 := by
    have hend := hlongest.gap.end_unique hsparse.gap
    rwa [Nat.zero_add] at hend
  exact hscan

/-- A group behind the first with two bytes that are not zero ends a run before the end. -/
theorem ipv6Scan_lt {k : ℕ} (hlen : bin.length = 16) (hpos : 1 ≤ k) (hk : k < 8)
    (hloud : Loud bin k) {maxStart maxSize : ℕ}
    (hscan : ipv6Scan bin = .ok (maxStart, maxSize)) : maxSize < 16 := by
  obtain ⟨s, n, hfound, hlongest⟩ := ipv6Scan_longest hlen
  obtain ⟨-, rfl⟩ := Prod.mk.inj (Except.ok.inj (hscan.symm.trans hfound))
  have hgap := hlongest.gap
  have hle := hgap.le
  by_contra hwhole
  exact hgap.clear k (by omega) (by omega) hloud

end Scan

/-! ## The text -/

section Text

variable {budget : ℕ} {bin out : List UInt8}

/-- `ipv6_to_str` returns for sparse addresses only, of which it writes a colon. -/
theorem ipv6ToStr_eq_ok (hlen : bin.length = 16) :
    ipv6ToStr budget bin = .ok out ↔ Sparse bin ∧ out = [chr ':', 0] := by
  constructor
  · intro h
    simp only [ipv6ToStr, Exec.bind_eq_ok] at h
    obtain ⟨⟨maxStart, maxSize⟩, hscan, ⟨dest₁, off₁⟩, hfirst, ⟨dest₂, off₂⟩, hlast, hout⟩ := h
    have hnone : ∀ {i bound off : ℕ} {dest : List UInt8} {res : List UInt8 × ℕ},
        ipv6ToStrGroups budget bin i bound off dest = .ok res → bound ≤ i := by
      intro i bound off dest res hgroups
      by_contra hlt
      rw [ipv6ToStrGroups, if_pos (Nat.not_le.mp hlt)] at hgroups
      obtain ⟨part, hpart, -⟩ := Exec.bind_eq_ok.mp hgroups
      exact ipv6ToStrPart_ne_ok _ _ _ _ _ hpart
    have hstart : maxStart = 0 := Nat.le_zero.mp (hnone hfirst)
    have hsize : 16 ≤ maxStart + maxSize := hnone hlast
    have hsparse : Sparse bin := by
      intro k hpos hk
      by_contra hloud
      rw [not_or] at hloud
      have := ipv6Scan_lt hlen hpos hk hloud hscan
      omega
    obtain rfl := ipv6ToStrGroups_ok hfirst
    obtain rfl := Except.ok.inj hout
    have hdest := ipv6ToStrGroups_ok hlast
    have hne : maxSize ≠ 0 := by omega
    rw [if_pos hne] at hdest
    exact ⟨hsparse, by rw [hdest]; rfl⟩
  · rintro ⟨hsparse, rfl⟩
    have hnone : ∀ i off dest, 16 ≤ i →
        ipv6ToStrGroups budget bin i 16 off dest = .ok (dest, off) := by
      intro i off dest hi
      rw [ipv6ToStrGroups, if_neg (Nat.not_lt.mpr hi)]
    have hfirst : ipv6ToStrGroups budget bin 0 0 0 [] = .ok ([], 0) := by
      rw [ipv6ToStrGroups, if_neg (Nat.lt_irrefl 0)]
    simp only [ipv6ToStr, ipv6Scan_sparse hlen hsparse, Exec.ok_bind, hfirst]
    rw [if_pos (by decide), hnone _ _ _ (by decide)]
    rfl

theorem Accepts.tail_irrelevant {s dest vs : List UInt8} {gs : List (List UInt8)} {c : Option ℕ}
    (h : Accepts s gs c vs) (tail tail' : List UInt8) (hdest : 16 ≤ dest.length) :
    ipv6ToBin (s ++ 0 :: tail) dest = ipv6ToBin (s ++ 0 :: tail') dest := by
  obtain ⟨st, hrun, hend, hcomp, hcount, hbin⟩ := h.finishes tail hdest
  obtain ⟨st', hrun', hend', hcomp', hcount', hbin'⟩ := h.finishes tail' hdest
  rw [hrun, hrun', ipv6Expand_end hend, ipv6Expand_end hend', hcomp, hcomp', hcount, hcount',
    hbin, hbin']

theorem Accepts.length_out {s dest vs tail out : List UInt8} {gs : List (List UInt8)}
    {c : Option ℕ} (h : Accepts s gs c vs) (hdest : 16 ≤ dest.length)
    (hrun : ipv6ToBin (s ++ 0 :: tail) dest = .ok (0, out)) : out.length = dest.length := by
  obtain ⟨st, hleft, hfinishes⟩ := h.finishes tail hdest
  have hbin := hfinishes.length_bin (Nat.le_trans h.written.count_le hdest)
  rw [hleft, ipv6Expand_end hfinishes.at_end] at hrun
  by_cases hcomp : -1 < st.comp
  · rw [if_pos hcomp] at hrun
    by_cases hcount : 16 ≤ st.count
    · rw [if_pos hcount] at hrun
      exact absurd (Prod.mk.inj (Except.ok.inj hrun)).1 (by decide)
    · rw [if_neg hcount] at hrun
      simp only [Exec.bind_eq_ok] at hrun
      obtain ⟨moved, -, bin, hmove, bin', hzero, hout⟩ := hrun
      rw [← (Prod.mk.inj (Except.ok.inj hout)).2, length_of_writeBytes hzero,
        length_of_writeBytes hmove, hbin]
  · rw [if_neg hcomp] at hrun
    by_cases hcount : st.count < 16
    · rw [if_pos hcount] at hrun
      exact absurd (Prod.mk.inj (Except.ok.inj hrun)).1 (by decide)
    · rw [if_neg hcount] at hrun
      rw [← (Prod.mk.inj (Except.ok.inj hrun)).2, hbin]

/-- `ipv6_norm` returns 0 for the addresses that are stored sparsely, and writes a colon. -/
theorem ipv6Norm_eq_zero {x : List UInt8} (hx : 0 ∉ x) (tail : List UInt8)
    (hlen : bin.length = 16) : ipv6Norm budget (x ++ 0 :: tail) bin = .ok (0, out) ↔
      (∃ addr, ipv6ToBin (x ++ [0]) bin = .ok (0, addr) ∧ Sparse addr) ∧ out = [chr ':', 0] := by
  have hsize : 16 ≤ bin.length := Nat.le_of_eq hlen.symm
  have hsame : ∀ tail tail' addr, ipv6ToBin (x ++ 0 :: tail) bin = .ok (0, addr) →
      ipv6ToBin (x ++ 0 :: tail') bin = .ok (0, addr) ∧ addr.length = 16 := by
    intro tail tail' addr hrun
    obtain ⟨gs, c, vs, haccepts, -⟩ := (ipv6ToBin_zero_iff hx tail hsize).mp ⟨addr, hrun⟩
    exact ⟨(haccepts.tail_irrelevant tail' tail hsize).trans hrun,
      (haccepts.length_out hsize hrun).trans hlen⟩
  rw [ipv6Norm, Exec.bind_eq_ok]
  constructor
  · rintro ⟨⟨code, addr⟩, hrun, hnorm⟩
    simp only at hnorm
    by_cases hcode : code = 0
    · subst hcode
      rw [if_neg (by decide)] at hnorm
      obtain ⟨text, htext, hout⟩ := Exec.bind_eq_ok.mp hnorm
      obtain ⟨hbare, haddr⟩ := hsame tail [] addr hrun
      obtain ⟨hsparse, rfl⟩ := (ipv6ToStr_eq_ok haddr).mp htext
      exact ⟨⟨addr, hbare, hsparse⟩, (Prod.mk.inj (Except.ok.inj hout)).2.symm⟩
    · rw [if_pos hcode] at hnorm
      exact absurd (Prod.mk.inj (Except.ok.inj hnorm)).1 (by decide)
  · rintro ⟨⟨addr, hrun, hsparse⟩, rfl⟩
    obtain ⟨hlong, haddr⟩ := hsame [] tail addr hrun
    refine ⟨(0, addr), hlong, ?_⟩
    simp only
    rw [if_neg (by decide), (ipv6ToStr_eq_ok haddr).mpr ⟨hsparse, rfl⟩, Exec.ok_bind]

/-- `ipv6_to_bin` finds enough groups in the string, with a dotted quad or without. -/
def IsText (s : List UInt8) : Prop := ∃ gs c vs, Accepts s gs c vs

/-- And what stands behind a `::` is moved inside the sixteen bytes. -/
def IsShortText (s : List UInt8) : Prop :=
  ∃ gs c vs, Accepts s gs c vs ∧ Fits c (2 * gs.length + vs.length) 16

theorem IsText.eq_zero {s tail : List UInt8} {code : ℤ} (h : IsText s) (hlen : bin.length = 16)
    (hrun : ipv6ToBin (s ++ 0 :: tail) bin = .ok (code, out)) : code = 0 := by
  obtain ⟨gs, c, vs, haccepts⟩ := h
  obtain ⟨hfits, hoverrun⟩ := haccepts.gives tail (Nat.le_of_eq hlen.symm)
  by_cases hfit : Fits c (2 * gs.length + vs.length) bin.length
  · obtain ⟨addr, haddr⟩ := hfits hfit
    rw [haddr] at hrun
    exact (Prod.mk.inj (Except.ok.inj hrun)).1.symm
  · rw [hoverrun hfit] at hrun
    cases hrun

theorem ipv6ToBin_invalid_iff {s : List UInt8} (hs : 0 ∉ s) (tail : List UInt8)
    (hlen : bin.length = 16) :
    (∃ out, ipv6ToBin (s ++ 0 :: tail) bin = .ok (EINVAL, out)) ↔ ¬ IsText s := by
  constructor
  · rintro ⟨out, hout⟩ htext
    exact absurd (htext.eq_zero hlen hout) (by decide)
  · exact (ipv6ToBin_string hs tail (Nat.le_of_eq hlen.symm)).resolve_right

theorem ipv6Norm_eq_ok {s : List UInt8} {code : ℤ} (hs : 0 ∉ s) (tail : List UInt8)
    (hlen : bin.length = 16) :
    ipv6Norm budget (s ++ 0 :: tail) bin = .ok (code, out) ↔
      (code = EINVAL ∧ out = [] ∧ ¬ IsText s) ∨
        (code = 0 ∧ out = [chr ':', 0] ∧
          ∃ addr, ipv6ToBin (s ++ [0]) bin = .ok (0, addr) ∧ Sparse addr) := by
  constructor
  · intro h
    obtain ⟨⟨first, addr⟩, hrun, hnorm⟩ := Exec.bind_eq_ok.mp h
    by_cases hfirst : first = 0
    · obtain rfl : code = 0 := by
        simp only [hfirst, ne_eq, not_true_eq_false, if_false] at hnorm
        obtain ⟨text, -, hout⟩ := Exec.bind_eq_ok.mp hnorm
        exact (Prod.mk.inj (Except.ok.inj hout)).1.symm
      obtain ⟨haddr, hout⟩ := (ipv6Norm_eq_zero hs tail hlen).mp h
      exact Or.inr ⟨rfl, hout, haddr⟩
    · simp only [if_pos hfirst] at hnorm
      obtain ⟨rfl, rfl⟩ := Prod.mk.inj (Except.ok.inj hnorm)
      exact Or.inl ⟨rfl, rfl, fun htext => hfirst (htext.eq_zero hlen hrun)⟩
  · rintro (⟨rfl, rfl, htext⟩ | ⟨rfl, rfl, haddr⟩)
    · obtain ⟨addr, haddr⟩ := (ipv6ToBin_invalid_iff hs tail hlen).mpr htext
      rw [ipv6Norm, haddr, Exec.ok_bind]
      exact if_pos (by decide)
    · exact (ipv6Norm_eq_zero hs tail hlen).mpr ⟨haddr, rfl⟩

/-- For every string and every content of the objects: `ipv6_to_bin` refuses exactly the
strings that are no text of its own, and returns 0 exactly for the texts whose bytes stay
inside the object.  `ipv6_norm` returns `EINVAL` exactly for the strings that `ipv6_to_bin`
refuses, and 0 exactly for the sparse addresses, for all of which it writes a colon; and what
it writes, it refuses. -/
theorem ipv6Norm_classifies (s tail : List UInt8) (bin : Buffer 16) (budget : ℕ) (hs : 0 ∉ s) :
    ((∃ out, ipv6ToBin (s ++ 0 :: tail) bin.bytes = .ok (EINVAL, out)) ↔ ¬ IsText s) ∧
      ((∃ addr, ipv6ToBin (s ++ 0 :: tail) bin.bytes = .ok (0, addr)) ↔ IsShortText s) ∧
      (∀ code out, ipv6Norm budget (s ++ 0 :: tail) bin.bytes = .ok (code, out) ↔
        (code = EINVAL ∧ out = [] ∧ ¬ IsText s) ∨
          (code = 0 ∧ out = [chr ':', 0] ∧
            ∃ addr, ipv6ToBin (s ++ [0]) bin.bytes = .ok (0, addr) ∧ Sparse addr)) ∧
      ∀ out, ipv6Norm budget (s ++ 0 :: tail) bin.bytes = .ok (0, out) →
        ∀ (bin' : Buffer 16) (budget' : ℕ),
          ipv6Norm budget' out bin'.bytes = .ok (EINVAL, []) := by
  have hlen := bin.length_bytes
  have hshort := ipv6ToBin_zero_iff hs tail (Nat.le_of_eq hlen.symm)
  rw [hlen] at hshort
  refine ⟨ipv6ToBin_invalid_iff hs tail hlen, hshort,
    fun code out => ipv6Norm_eq_ok hs tail hlen, fun out hout bin' budget' => ?_⟩
  obtain ⟨-, rfl⟩ := (ipv6Norm_eq_zero hs tail hlen).mp hout
  rw [ipv6Norm, (ipv6ToBin_rejects bin'.bytes).2, Exec.ok_bind]
  exact if_pos (by decide)

/-- The zero address is accepted, and the colon that is written for it is refused. -/
theorem ipv6Norm_classifies_zero :
    IsShortText (ascii "0:0:0:0:0:0:0:0") ∧
      ipv6Norm 5 [chr ':', 0] (List.replicate 16 0) = .ok (EINVAL, []) := by
  obtain ⟨-, hshort, hnorm, hrefused⟩ := ipv6Norm_classifies (ascii "0:0:0:0:0:0:0:0") []
    ⟨List.replicate 16 0, rfl⟩ 5 (by decide)
  have hzero : ipv6ToBin (ascii "0:0:0:0:0:0:0:0" ++ [0]) (List.replicate 16 0) =
      .ok (0, List.replicate 16 0) := by decide +kernel
  exact ⟨hshort.mp ⟨_, hzero⟩, hrefused _ ((hnorm 0 _).mpr (Or.inr ⟨rfl, rfl, _, hzero, by decide⟩))
    ⟨List.replicate 16 0, rfl⟩ 5⟩

end Text

end Hlibc.Inet
