import Hlibc.Ipv4Text

/-!
# Four bytes and their dotted quad

`ipv4_to_str` writes the dotted quad of four bytes, which is the one text from
which `ipv4_to_bin` reads these bytes.
-/

set_option autoImplicit false

namespace Hlibc.Inet

/-! ## What `ipv4_to_str` writes -/

theorem length_decimal_le (v : UInt8) : (decimal v).length ≤ 3 := by
  rcases decimal_cases v with ⟨a, -, -, heq⟩ | ⟨a, -, -, b, -, -, heq⟩ |
      ⟨a, -, -, b, -, c, -, -, heq⟩
  · simp [heq]
  · simp [heq]
  · simp [heq]

/-- One pass of the loop writes the decimal digits of its byte. -/
theorem ipv4ToStrPart_eq (v : UInt8) : ipv4ToStrPart v.toNat = decimal v := by
  rcases decimal_cases v with ⟨a, ha, hv, heq⟩ | ⟨a, ha, hpos, b, hb, hv, heq⟩ |
      ⟨a, ha, hpos, b, hb, c, hc, hv, heq⟩
  · rw [ipv4ToStrPart, hv, if_pos ha, heq]
  · have htens : (10 * a + b) / 10 = a := by omega
    have hones : (10 * a + b) % 10 = b := by omega
    rw [ipv4ToStrPart, hv, if_neg (by omega), if_pos (by omega), htens, hones, heq]
  · have hhundreds : (10 * (10 * a + b) + c) / 100 = a := by omega
    have htens : (10 * (10 * a + b) + c) / 10 % 10 = b := by omega
    have hones : (10 * (10 * a + b) + c) % 10 = c := by omega
    rw [ipv4ToStrPart, hv, if_neg (by omega), if_neg (by omega), hhundreds, htens, hones, heq]

theorem exists_four {vs : List UInt8} (hlen : vs.length = 4) :
    ∃ a b c d, vs = [a, b, c, d] := by
  match vs, hlen with
  | [a, b, c, d], _ => exact ⟨a, b, c, d, rfl⟩

theorem ipv4ToStr_eq {vs : List UInt8} (hlen : vs.length = 4) :
    ipv4ToStr vs = .ok (dotted vs ++ [0]) := by
  obtain ⟨a, b, c, d, rfl⟩ := exists_four hlen
  simp [ipv4ToStr, ipv4ToStrPart_eq, dotted]

theorem length_dotted_le {vs : List UInt8} (hlen : vs.length = 4) : (dotted vs).length ≤ 15 := by
  obtain ⟨a, b, c, d, rfl⟩ := exists_four hlen
  have ha := length_decimal_le a
  have hb := length_decimal_le b
  have hc := length_decimal_le c
  have hd := length_decimal_le d
  simp only [dotted, List.length_append, List.length_cons]
  omega

/-! ## There and back -/

/-- Four bytes fill the object they are written to. -/
theorem writeBytes_four {dest vs : List UInt8} (hdest : dest.length = 4) (hlen : vs.length = 4) :
    writeBytes dest 0 vs = .ok vs := by
  rw [writeBytes_of_le (by omega), Nat.zero_add, List.drop_eq_nil_of_le (by omega)]
  simp

/-- `ipv4_to_bin` reads the numbers of a dotted quad. -/
theorem ipv4ToBin_dotted {vs tail dest : List UInt8} (hlen : vs.length = 4)
    (hdest : dest.length = 4) :
    ipv4ToBin (dotted vs ++ 0 :: tail) 0 dest 0 = .ok (0, vs) :=
  (ipv4ToBin_eq_ok [] (zero_notMem_dotted vs) (by omega)).mpr
    ⟨vs, hlen, rfl, writeBytes_four hdest hlen⟩

/-- `ipv4_to_bin` returns 0 exactly for the dotted quads, stores their numbers, and
`ipv4_to_str` writes the text back; the text that it writes for any four bytes is a
string of at most 15 characters from which `ipv4_to_bin` reads the bytes. -/
theorem ipv4_text_bytes (text tail : List UInt8) (htext : 0 ∉ text) (dest : Buffer 4) :
    (∃ res, ipv4ToBin (text ++ 0 :: tail) 0 dest.bytes 0 = .ok res ∧
      (res.1 = 0 ↔ ∃ vs : List UInt8, vs.length = 4 ∧ text = dotted vs) ∧
      ∀ vs : List UInt8, vs.length = 4 → text = dotted vs →
        res.2 = vs ∧ ipv4ToStr vs = .ok (text ++ [0])) ∧
    ∀ b : Buffer 4, ∃ chars, ipv4ToStr b.bytes = .ok (chars ++ [0]) ∧ 0 ∉ chars ∧
      chars.length ≤ 15 ∧ ipv4ToBin (chars ++ [0]) 0 dest.bytes 0 = .ok (0, b.bytes) := by
  have hdest := dest.length_bytes
  refine ⟨?_, fun b => ?_⟩
  · have hroom : 0 + 4 ≤ dest.bytes.length := by omega
    have hstring : Terminated (text ++ 0 :: tail) 0 := terminated_append [] text tail
    obtain ⟨⟨code, out⟩, hres, -, -⟩ := ipv4ToBin_returns hstring hroom
    refine ⟨(code, out), hres, ⟨?_, ?_⟩, ?_⟩
    · rintro rfl
      obtain ⟨vs, hlen, rfl, -⟩ := (ipv4ToBin_eq_ok [] htext (by omega)).mp hres
      exact ⟨vs, hlen, rfl⟩
    · rintro ⟨vs, hlen, rfl⟩
      rw [ipv4ToBin_dotted hlen hdest] at hres
      exact (Prod.mk.inj (Except.ok.inj hres)).1.symm
    · rintro vs hlen rfl
      rw [ipv4ToBin_dotted hlen hdest] at hres
      exact ⟨(Prod.mk.inj (Except.ok.inj hres)).2.symm, ipv4ToStr_eq hlen⟩
  · exact ⟨dotted b.bytes, ipv4ToStr_eq b.length_bytes, zero_notMem_dotted b.bytes,
      length_dotted_le b.length_bytes, ipv4ToBin_dotted b.length_bytes hdest⟩

/-- The text `1.2.3.255`. -/
theorem ipv4_text_bytes_example :
    (∃ res, ipv4ToBin (ascii "1.2.3.255" ++ [0]) 0 (List.replicate 4 0) 0 = .ok res ∧
      res.1 = 0) ∧
    ascii "1.2.3.255" = dotted [1, 2, 3, 255] := by
  have htext : ascii "1.2.3.255" = dotted [1, 2, 3, 255] := by decide
  obtain ⟨⟨res, hres, hcode, -⟩, -⟩ := ipv4_text_bytes (ascii "1.2.3.255") [] (by decide)
    ⟨List.replicate 4 0, rfl⟩
  exact ⟨⟨res, hres, hcode.mpr ⟨_, rfl, htext⟩⟩, htext⟩

end Hlibc.Inet
