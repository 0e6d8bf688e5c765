import Hlibc.Uri.SwitchRules

/-!
# The library's parser and `uri_switch.c`

`uri_parse_segments` of the library grew out of `uri_parse_segments_switch`.  Its grammar is
RFC 3986's over the same tables, that of the older parser a dialect; but on the hosts that
the library's parser accepts the two assign the same components.
-/

set_option autoImplicit false

namespace Hlibc.Uri

open Grammar Inet

/-! ## IPv4 addresses -/

theorem toNat_digit {n : ℕ} (hn : n < 10) : (digit n).toNat = (chr '0').toNat + n := by
  have hzero : (chr '0').toNat = 48 := rfl
  rw [digit, UInt8.toNat_ofNat', hzero]
  omega

/-- The numbers that `uri_switch.c` takes are the decimal texts of the bytes. -/
theorem octet_iff {o : List UInt8} : Octet (10 * ·) o ↔ ∃ v, o = decimal v := by
  constructor
  · intro ho
    cases ho with
    | zero => exact ⟨0, by decide⟩
    | one ha hne =>
        obtain ⟨a, hlt, rfl⟩ := exists_digit ha
        exact ⟨_, (decimal_one hlt).symm⟩
    | two ha hne hb =>
        obtain ⟨a, hlta, rfl⟩ := exists_digit ha
        obtain ⟨b, hltb, rfl⟩ := exists_digit hb
        exact ⟨_, (decimal_two hlta (fun h => hne ((digit_eq_chr hlta).mpr h)) hltb).symm⟩
    | three ha hne hb hc hle =>
        obtain ⟨a, hlta, rfl⟩ := exists_digit ha
        obtain ⟨b, hltb, rfl⟩ := exists_digit hb
        obtain ⟨c, hltc, rfl⟩ := exists_digit hc
        simp only [toNat_digit hlta, toNat_digit hltb, toNat_digit hltc] at hle
        have hbyte : 10 * (10 * a + b) + c < 256 := by omega
        exact ⟨_, (decimal_three (fun h => hne ((digit_eq_chr hlta).mpr h)) hltb hltc
          hbyte).symm⟩
  · rintro ⟨v, rfl⟩
    have hne : ∀ {a}, a < 10 → a ≠ 0 → digit a ≠ chr '0' := fun ha hpos heq =>
      hpos ((digit_eq_chr ha).mp heq)
    rcases decimal_cases v with ⟨a, ha, -, heq⟩ | ⟨a, ha, hpos, b, hb, -, heq⟩ |
      ⟨a, ha, hpos, b, hb, c, hc, hv, heq⟩
    · rw [heq]
      by_cases hzero : a = 0
      · subst hzero
        exact .zero
      · exact .one (isdigit_digit ha) (hne ha hzero)
    · rw [heq]
      exact .two (isdigit_digit ha) (hne ha hpos) (isdigit_digit hb)
    · rw [heq]
      refine .three (isdigit_digit ha) (hne ha hpos) (isdigit_digit hb) (isdigit_digit hc) ?_
      have hlt := UInt8.toNat_lt v
      simp only [toNat_digit ha, toNat_digit hb, toNat_digit hc]
      omega

/-- What `uri_switch.c` takes for an IPv4 address is one of the grammar. -/
theorem dottedFront_iff {p : List UInt8} :
    DottedFront (10 * ·) 3 p [] ↔ p ∈ ipv4Address := by
  have hends : ∀ o, OctetEnds o [] := fun _ _ _ => rfl
  rw [mem_ipv4Address]
  simp only [DottedFront, octet_iff, hends, and_true]
  constructor
  · rintro ⟨_, _, ⟨a, rfl⟩, rfl, _, _, ⟨b, rfl⟩, rfl, _, _, ⟨c, rfl⟩, rfl, d, rfl⟩
    exact ⟨[a, b, c, d], rfl, rfl⟩
  · rintro ⟨vs, hlen, rfl⟩
    match vs, hlen with
    | [a, b, c, d], _ =>
        exact ⟨_, _, ⟨a, rfl⟩, rfl, _, _, ⟨b, rfl⟩, rfl, _, _, ⟨c, rfl⟩, rfl, d, rfl⟩

/-! ## Hosts -/

theorem isHost_ipv4Address {type : HostType} {host : List UInt8} (hhost : host ∈ ipv4Address) :
    Switch.IsHost type host ↔ type = .ipv4 := by
  have hfront := dottedFront_iff.mpr hhost
  have hbracket : ∀ w, host ≠ chr '[' :: w := by
    rintro w rfl
    exact absurd ((ipv4Address_chars hhost).1 _ List.mem_cons_self) (by decide)
  cases type with
  | ipv4 => exact iff_of_true hfront rfl
  | name =>
      refine iff_of_false (fun h => h.2 ⟨host, [], ?_, hfront⟩) (by decide)
      exact (List.append_nil host).symm
  | ipv6 =>
      refine iff_of_false ?_ (by decide)
      rintro ⟨t, hw, -⟩
      exact hbracket _ hw
  | ipvf =>
      refine iff_of_false ?_ (by decide)
      rintro ⟨x, y, -, -, -, -, hw⟩
      exact hbracket _ hw

theorem isHost_nil {type : HostType} : Switch.IsHost type [] ↔ type = .name := by
  cases type with
  | ipv4 => exact iff_of_false (fun h => h.ne_nil rfl) (by decide)
  | name =>
      refine iff_of_true ⟨Language.nil_mem_kstar _, ?_⟩ rfl
      rintro ⟨p, r, hw, hp⟩
      exact hp.ne_nil (List.append_eq_nil_iff.mp hw.symm).1
  | ipv6 =>
      refine iff_of_false ?_ (by decide)
      rintro ⟨t, hw, -⟩
      exact List.cons_ne_nil _ _ hw.symm
  | ipvf =>
      refine iff_of_false ?_ (by decide)
      rintro ⟨x, y, -, -, -, -, hw⟩
      exact List.cons_ne_nil _ _ hw.symm

/-- Both parsers give a plain host the same type. -/
theorem isHost_plain {type : HostType} {host : List UInt8} (hhost : PlainHost host) :
    Switch.IsHost type host ↔ type = plainType host := by
  cases host with
  | nil => exact isHost_nil
  | cons c w => exact isHost_ipv4Address (hhost.resolve_left (List.cons_ne_nil c w))

/-! ## Components -/

section Components

variable {p : Parts} {type : HostType}

/-- On components with a plain host the two dialects agree. -/
theorem assigns_plain_iff (hplain : p.Plain) :
    codeDialect.Assigns p type ↔ Switch.dialect.Assigns p type := by
  have hhost : ∀ a ∈ p.authority, codeDialect.host type a.host ↔ Switch.dialect.host type a.host :=
    fun a ha => (and_iff_right (hplain a ha)).trans (isHost_plain (hplain a ha)).symm
  constructor
  · intro h
    refine ⟨h.scheme, h.noScheme, fun a ha => ?_, h.noAuthority, h.path, h.query, h.fragment⟩
    obtain ⟨hu, huser, hname, hpt⟩ := h.authority a ha
    exact ⟨hu, huser, (hhost a ha).mp hname, hpt⟩
  · intro h
    refine ⟨h.scheme, h.noScheme, fun a ha => ?_, h.noAuthority, h.path, h.query, h.fragment⟩
    obtain ⟨hu, huser, hname, hpt⟩ := h.authority a ha
    exact ⟨hu, huser, (hhost a ha).mpr hname, hpt⟩

/-- The host of components is plain exactly if what is recorded says so. -/
theorem Dialect.Assigns.plain_iff (h : Switch.dialect.Assigns p type) :
    p.Plain ↔ (Dialect.record viewAt p type).host.size = 0 ∨ type = .ipv4 := by
  cases ha : p.authority with
  | none =>
      refine iff_of_true ?_ (Or.inr (h.noAuthority ha).1)
      intro a ha'
      rw [ha] at ha'
      cases ha'
  | some a =>
      have hhost : Switch.IsHost type a.host := (h.authority a ha).host
      have hsize : (Dialect.record viewAt p type).host.size = a.host.length := by
        rw [Dialect.record, Parts.place, ha]
        rfl
      rw [hsize, List.length_eq_zero_iff]
      constructor
      · intro hplain
        rcases hplain a ha with hempty | haddress
        · exact Or.inl hempty
        · exact Or.inr ((isHost_ipv4Address haddress).mp hhost)
      · rintro hcase a' ha'
        obtain rfl := Option.some.inj (ha.symm.trans ha')
        rcases hcase with hempty | rfl
        · exact Or.inl hempty
        · exact Or.inr (dottedFront_iff.mp hhost)

end Components

/-! ## The parsers -/

/-- The library's parser accepts a text, with what it records, exactly if
`uri_parse_segments_switch` does and the host it records is absent, empty or an IPv4
address. -/
theorem uriParseSegments_iff_switch {s : List UInt8} {d : UriSegments} (hs : Ascii s) :
    uriParseSegments (s ++ [0]) = .ok (0, d) ↔
      Switch.uriParseSegmentsSwitch (s ++ [0]) = .ok (0, d) ∧
        (d.host.size = 0 ∨ d.hostType = .ipv4) := by
  rw [uriParseSegments_iff hs, (Switch.uriParseSegmentsSwitch_recognizes hs).ok_iff,
    Dialect.schemeReads_iff, Dialect.schemeReads_iff]
  constructor
  · rintro ⟨p, type, rfl, hcode, rfl⟩
    have hplain : p.Plain := fun a ha => (hcode.authority a ha).host.1
    have hassigns := (assigns_plain_iff hplain).mp hcode
    exact ⟨⟨p, type, rfl, hassigns, rfl⟩, hassigns.plain_iff.mp hplain⟩
  · rintro ⟨⟨p, type, rfl, hassigns, rfl⟩, hhost⟩
    have hplain := hassigns.plain_iff.mpr hhost
    exact ⟨p, type, rfl, (assigns_plain_iff hplain).mpr hassigns, rfl⟩

/-- An authority that is an address, with nothing behind it. -/
theorem uriParseSegments_iff_switch_address :
    uriParseSegments (ascii "//1.2.3.4" ++ [0]) = .ok (0, {
      UriSegments.zero with
      host := { str := some 2, size := 7 }
      path := { str := some 9, size := 0 } }) :=
  (uriParseSegments_iff_switch (by decide)).mpr ⟨by decide, Or.inr rfl⟩

end Hlibc.Uri
