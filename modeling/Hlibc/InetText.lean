import Hlibc.Inet

/-!
# What `ipv6_to_str` writes

The second loop of `ipv6_to_str_part` does not move its counter, and looks up
characters where it means to look up digits.  So no group is ever written: the
text of an address is at most a colon, and `ipv6_to_bin` takes none back.
-/

set_option autoImplicit false

namespace Hlibc.Inet

/-! ## Groups -/

/-- The digits of a byte are characters that do not index the table of digits. -/
theorem hexCset_digit {n : ℕ} {c : UInt8} (hn : n < 16) (hc : readByte hexCset n = .ok c) :
    c ≠ 0 ∧ readByte hexCset c.toNat = .error .read := by
  rw [readByte_eq_ok] at hc
  have hall : ∀ n < 16, ∃ c, hexCset[n]? = some c ∧ c ≠ 0 ∧
      readByte hexCset c.toNat = .error .read := by decide
  obtain ⟨c', hc', hne, hread⟩ := hall n hn
  obtain rfl := Option.some.inj (hc'.symm.trans hc)
  exact ⟨hne, hread⟩

theorem ipv6ToStrPart_ne_ok (budget : ℕ) (bin : List UInt8) (off : ℕ)
    (dest out : List UInt8) : ipv6ToStrPart budget bin off dest ≠ .ok out := by
  intro h
  simp only [ipv6ToStrPart, Exec.bind_eq_ok] at h
  obtain ⟨b0, -, v0, hv0, v1, -, b1, -, v2, -, v3, -, hloop⟩ := h
  have hshift : b0.toNat >>> 4 < 16 := by
    rw [Nat.shiftRight_eq_div_pow]
    have := UInt8.toNat_lt b0
    omega
  obtain ⟨hne, hread⟩ := hexCset_digit hshift hv0
  have hzero : (([v0, v1, v2, v3].take 3).takeWhile (· == 0)).length = 0 := by
    simp [hne]
  rw [hzero] at hloop
  have hpass : ipv6ToStrPartPass [v0, v1, v2, v3] 0 dest = .error .read := by
    simp [ipv6ToStrPartPass, hread]
  cases budget with
  | zero => simp [loop] at hloop
  | succ budget =>
      rw [loop_error hpass] at hloop
      cases hloop

/-- The loops over the groups return only where they have no group to write. -/
theorem ipv6ToStrGroups_ok {budget : ℕ} {src dest dest' : List UInt8} {i bound off off' : ℕ}
    (h : ipv6ToStrGroups budget src i bound off dest = .ok (dest', off')) : dest' = dest := by
  rw [ipv6ToStrGroups] at h
  split at h
  · obtain ⟨out, hpart, -⟩ := Exec.bind_eq_ok.mp h
    exact absurd hpart (ipv6ToStrPart_ne_ok _ _ _ _ _)
  · cases h
    rfl

/-! ## Addresses -/

/-- If `ipv6_to_str` returns, it has written a colon at most. -/
theorem ipv6ToStr_ok {budget : ℕ} {src out : List UInt8}
    (h : ipv6ToStr budget src = .ok out) : out = [0] ∨ out = [chr ':', 0] := by
  simp only [ipv6ToStr, Exec.bind_eq_ok] at h
  obtain ⟨⟨maxStart, maxSize⟩, -, ⟨dest₁, off₁⟩, hfirst, ⟨dest₂, off₂⟩, hlast, hout⟩ := h
  obtain rfl := ipv6ToStrGroups_ok hfirst
  obtain rfl := Except.ok.inj hout
  have hdest := ipv6ToStrGroups_ok hlast
  subst hdest
  by_cases hsize : maxSize = 0
  · left
    simp [hsize]
  · right
    simp [hsize]

/-- `ipv6_to_bin` takes neither the empty text nor a single colon. -/
theorem ipv6ToBin_rejects (dest : List UInt8) :
    ipv6ToBin [0] dest = .ok (EINVAL, dest) ∧
      ipv6ToBin [chr ':', 0] dest = .ok (EINVAL, dest) :=
  ⟨rfl, rfl⟩

/-- The text that `ipv6_to_str` writes for `b` is a string of at most 39 characters,
from which `ipv6_to_bin` reads `b` again. -/
def RoundTrips (budget : ℕ) (b dest : Buffer 16) : Prop :=
  ∃ chars, ipv6ToStr budget b.bytes = .ok (chars ++ [0]) ∧ 0 ∉ chars ∧ chars.length ≤ 39 ∧
    ipv6ToBin (chars ++ [0]) dest.bytes = .ok (0, b.bytes)

/-- No address comes back from its text. -/
theorem ipv6ToStr_roundTrips_never (budget : ℕ) (b dest : Buffer 16) :
    ¬ RoundTrips budget b dest := by
  rintro ⟨chars, hstr, -, -, hbin⟩
  obtain ⟨hempty, hcolon⟩ := ipv6ToBin_rejects dest.bytes
  rcases ipv6ToStr_ok hstr with hout | hout
  · rw [hout, hempty] at hbin
    cases hbin
  · rw [hout, hcolon] at hbin
    cases hbin

/-- The text of the zero address is a colon, and for an address with digits to write
there is none. -/
theorem ipv6ToStr_zeroAddress :
    ipv6ToStr 5 (List.replicate 16 0) = .ok [chr ':', 0] ∧
      ¬ RoundTrips 5 ⟨List.replicate 16 0, rfl⟩ ⟨List.replicate 16 0, rfl⟩ ∧
      ipv6ToStr 5 (0x20 :: 0x01 :: List.replicate 14 0x11) = .error .read := by
  have hzero : ipv6ToStr 5 (List.replicate 16 0) = .ok [chr ':', 0] := by decide +kernel
  refine ⟨hzero, ?_, by decide +kernel⟩
  rintro ⟨chars, hstr, -, -, hbin⟩
  have htext : chars ++ [0] = [chr ':', 0] := Except.ok.inj (hstr.symm.trans hzero)
  rw [htext, (ipv6ToBin_rejects _).2] at hbin
  cases hbin

end Hlibc.Inet
