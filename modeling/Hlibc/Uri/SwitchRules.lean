import Hlibc.Uri.Recognition
import Hlibc.Uri.SwitchAddress

/-!
# What `uri_switch.c` recognises

`uri_parse_segments_switch` returns on every text, and recognises a dialect: the sub-delimiters
are those of the tables, a path that stands alone has no colon in its first segment, only the
`@` ends user information, and a host that starts with an address is that address.
-/

set_option autoImplicit false

namespace Hlibc.Uri.Switch

open Grammar

/-! ## The dialect -/

/-- The hosts. -/
def IsHost : HostType → List UInt8 → Prop
  | .ipvf, host => IsIpvf codeSub host
  | .ipv6, host => ∃ t, host = chr '[' :: (t ++ [chr ']']) ∧ Groups false 0 t
  | .ipv4, host => DottedFront (10 * ·) 3 host []
  | .name, host => host ∈ units (isNameChar codeSub) ∧
      ¬ ∃ p r, host = p ++ r ∧ DottedFront (10 * ·) 3 p r

/-- The dialect of the parser. -/
def dialect : Dialect where
  sub := codeSub
  relative path := chr ':' ∉ firstSegment path
  userStop := [chr '@']
  host := IsHost

theorem pathReads_eq : dialect.PathReads = codeDialect.PathReads := rfl

theorem portReads_eq : dialect.PortReads = codeDialect.PortReads := rfl

/-! ## The host -/

section Host

variable {src w host r : List UInt8} {pos : ℕ} {type : HostType}

/-- Behind a host neither a digit nor a dot stands. -/
theorem marks_stop (hr : StartsWith (ascii ":/?#") r) : startsChar isDigitOrDot r = false :=
  startsChar_eq_false hr (by decide)

theorem marks_noDigit (hr : StartsWith (ascii ":/?#") r) : startsChar isdigit r = false :=
  startsChar_eq_false hr (by decide)

theorem name_noBracket {sub : UInt8 → Bool} (hsub : Separable sub)
    (hhost : host ∈ units (isNameChar sub)) (hr : StartsWith (ascii ":/?#") r) :
    (host ++ r).headD 0 ≠ chr '[' := by
  cases host with
  | nil => exact hr.headD_ne (by decide) (by decide)
  | cons c host =>
      rintro rfl
      have hmark : sub (chr '[') = false := hsub _ (by decide)
      have hname : isNameChar sub (chr '[') = false := by
        rw [isNameChar, hmark]
        decide
      exact notMem_units hname (by decide) hhost List.mem_cons_self

/-- What is in front of the literals, the addresses and the names of the dialect. -/
theorem parseHost_eq {hostType : HostType} (h : TextAt src pos (host ++ r))
    (hhost : IsHost type host) (hr : StartsWith (ascii ":/?#") r) :
    parseHost src pos hostType = .ok (0, pos + host.length, type) := by
  have hcode : ¬ (EINVAL : ℤ) = 0 := by decide
  cases type with
  | ipvf =>
      simp only [parseHost, parseIpvf_eq h hhost, Exec.ok_bind, if_true]
  | ipv6 =>
      obtain ⟨t, rfl, ht⟩ := hhost
      have hshape : chr '[' :: (t ++ [chr ']']) ++ r = chr '[' :: (t ++ chr ']' :: r) := by simp
      rw [hshape] at h
      have hlen : pos + (chr '[' :: (t ++ [chr ']'])).length = pos + t.length + 2 := by
        simp only [List.length_cons, List.length_append, List.length_nil]
        omega
      rcases parseIpvf_cases h with hipvf | ⟨host, r', hw, ⟨x, y, -, -, -, -, rfl⟩, -⟩
      · simp only [parseHost, hipvf, parseIpv6_eq h.string ht, Exec.ok_bind, if_neg hcode,
          if_true, hlen]
      · have hv := ht.headD_ne r
        rw [(List.cons.inj hw).2] at hv
        exact absurd rfl hv
  | ipv4 =>
      have hquad : DottedFront (10 * ·) 3 host r := hhost.congr fun _ => marks_noDigit hr
      have hbracket : (host ++ r).headD 0 ≠ chr '[' := by
        obtain ⟨c, p, rfl⟩ := List.exists_cons_of_ne_nil hhost.ne_nil
        rintro rfl
        exact absurd (hhost.chars _ List.mem_cons_self) (by decide)
      have hipv6 : parseIpv6 src pos = .ok (EINVAL, pos) := by
        simp only [parseIpv6, h.read, Exec.ok_bind, ne_eq, hbracket, not_false_eq_true, if_true]
      simp only [parseHost, parseIpvf_noBracket h.string hbracket, hipv6,
        parseIpv4_eq h.string hquad, Exec.ok_bind, if_neg hcode, if_true]
  | name =>
      obtain ⟨hunits, hnot⟩ := hhost
      have hbracket := name_noBracket codeSub_separable hunits hr
      have hipv6 : parseIpv6 src pos = .ok (EINVAL, pos) := by
        simp only [parseIpv6, h.read, Exec.ok_bind, ne_eq, hbracket, not_false_eq_true, if_true]
      have hscan : scan (startsUnit (isNameChar codeSub)) (host ++ r) = (host, r) :=
        (scan_units_iff (nameUnits_hex codeSub)).mpr
          ⟨hunits, startsUnit_eq_false hr (name_stops codeSub_separable), rfl⟩
      rcases parseIpv4_cases h.string with ⟨hipv4, -⟩ | ⟨p, r', hw, hp, -⟩
      · simp only [parseHost, parseIpvf_noBracket h.string hbracket, hipv6, hipv4, parseName,
          h.skip_name, hscan, Exec.ok_bind, if_neg hcode, if_true]
      · obtain ⟨a, rfl, ha⟩ := hp.split hw (marks_stop hr)
        exact absurd ⟨p, a, rfl, ha⟩ hnot

/-- There always is a host; in front of a mark it is one of the dialect. -/
theorem parseHost_found (h : TextAt src pos w) (hostType : HostType) :
    ∃ type host r, w = host ++ r ∧ (StartsWith (ascii ":/?#") r → IsHost type host) ∧
      parseHost src pos hostType = .ok (0, pos + host.length, type) := by
  have hcode : ¬ (EINVAL : ℤ) = 0 := by decide
  rcases parseIpvf_cases h with hipvf | ⟨host, r, rfl, hhost, hipvf⟩
  swap
  · exact ⟨.ipvf, host, r, rfl, fun _ => hhost, by
      simp only [parseHost, hipvf, Exec.ok_bind, if_true]⟩
  rcases parseIpv6_cases h.string with hipv6 | ⟨t, r, rfl, ht, hipv6⟩
  swap
  · refine ⟨.ipv6, chr '[' :: (t ++ [chr ']']), r, by simp, fun _ => ⟨t, rfl, ht⟩, ?_⟩
    have hlen : pos + (chr '[' :: (t ++ [chr ']'])).length = pos + t.length + 2 := by
      simp only [List.length_cons, List.length_append, List.length_nil]
      omega
    simp only [parseHost, hipvf, hipv6, Exec.ok_bind, if_neg hcode, if_true, hlen]
  rcases parseIpv4_cases h.string with ⟨hipv4, hnot⟩ | ⟨p, r, rfl, hp, hipv4⟩
  swap
  · refine ⟨.ipv4, p, r, rfl, fun _ => hp.congr fun _ => rfl, ?_⟩
    simp only [parseHost, hipvf, hipv6, hipv4, Exec.ok_bind, if_neg hcode, if_true]
  obtain ⟨⟨x, y⟩, hscan⟩ : ∃ xy, scan (startsUnit (isNameChar codeSub)) w = xy := ⟨_, rfl⟩
  obtain ⟨hunits, -, rfl⟩ := (scan_units_iff (nameUnits_hex codeSub)).mp hscan
  refine ⟨.name, x, y, rfl, fun hr => ⟨hunits, ?_⟩, ?_⟩
  · rintro ⟨p, r, rfl, hp⟩
    exact hnot ⟨p, r ++ y, List.append_assoc p r y, hp.extend (marks_noDigit hr)⟩
  · simp only [parseHost, hipvf, hipv6, hipv4, parseName, h.skip_name, hscan, Exec.ok_bind,
      if_neg hcode, if_true]

theorem uriHost_recognizes {dest : UriSegments} (h : TextAt src pos w) (hport : dest.port = .null)
    (hquery : dest.query = .null) (hfragment : dest.fragment = .null) :
    Recognizes (dialect.HostReads viewAt pos w dest) (uriHost src pos dest) := by
  have hbehind : ∀ type host r, w = host ++ r →
      parseHost src pos dest.hostType = .ok (0, pos + host.length, type) →
      Recognizes (dialect.PortReads viewAt (pos + host.length) r
        { dest with hostType := type, host := { str := some pos, size := host.length } })
        (uriHost src pos dest) := by
    rintro type host r rfl hparse
    simp only [uriHost, hparse, Exec.ok_bind, ne_eq, not_true_eq_false, if_false,
      Nat.add_sub_cancel_left]
    rw [portReads_eq]
    exact uriPort_recognizes h.append rfl hport hquery hfragment
  obtain ⟨type, host, r, hw, hhost, hparse⟩ := parseHost_found h dest.hostType
  refine Dialect.hostReads_recognizes
    (Or.inr ⟨type, host, r, hw, hhost, hbehind type host r hw hparse⟩) ?_
  intro type' host' r' hhost' hw' hr'
  exact hbehind type' host' r' hw' (parseHost_eq (hw' ▸ h) hhost' hr')

end Host

/-! ## The whole text -/

section Text

variable {src w : List UInt8} {pos : ℕ} {dest : UriSegments}

theorem uriAuthority_recognizes (h : TextAt src pos w) (huserinfo : dest.userinfo = .null)
    (hport : dest.port = .null) (hquery : dest.query = .null)
    (hfragment : dest.fragment = .null) :
    Recognizes (dialect.AuthorityReads viewAt pos w dest) (uriAuthority src pos dest) := by
  obtain ⟨⟨x, y⟩, hscan⟩ : ∃ xy, scan (startsUnit (isUserinfoChar codeSub)) w = xy := ⟨_, rfl⟩
  have hbehind := h.behind_scan hscan
  have hcode : ¬ (EINVAL : ℤ) = 0 := by decide
  by_cases hhead : y.headD 0 = chr '@'
  · obtain ⟨r, rfl⟩ := exists_cons_of_headD hhead (by decide)
    have hsize : pos + x.length + 1 - pos - 1 = x.length := by omega
    simp only [uriAuthority, parseUserinfo_eq h hscan, hhead, Exec.ok_bind, if_true, hsize]
    exact Recognizes.congr (uriHost_recognizes hbehind.tail (by exact hport) (by exact hquery)
      (by exact hfragment)) fun d =>
        Dialect.authorityReads_mark codeSub_separable hscan List.mem_cons_self rfl
  · simp only [uriAuthority, parseUserinfo_eq h hscan, if_neg hhead, Exec.ok_bind, if_neg hcode]
    refine (uriHost_recognizes h hport hquery hfragment).congr fun d => ?_
    have hstop : y.headD 0 ∉ dialect.userStop := fun hmem => hhead (List.mem_singleton.mp hmem)
    rw [Dialect.authorityReads_absent codeSub_separable hscan hhead, and_iff_right hstop,
      ← huserinfo]

theorem uriHierPart_recognizes (h : TextAt src pos w) (huserinfo : dest.userinfo = .null)
    (hport : dest.port = .null) (hquery : dest.query = .null)
    (hfragment : dest.fragment = .null) :
    Recognizes (dialect.HierReads viewAt pos w dest) (uriHierPart src pos dest) := by
  rcases slashes_cases h.string with ⟨⟨r, rfl⟩, hslashes⟩ | ⟨htwo, hslashes⟩
  · rw [uriHierPart, hslashes, Exec.ok_bind, if_pos rfl]
    exact (uriAuthority_recognizes h.tail.tail huserinfo hport hquery hfragment).congr fun d =>
      Dialect.hierReads_slashes
  · rw [uriHierPart, hslashes, Exec.ok_bind, if_neg Bool.false_ne_true]
    refine (uriPath_recognizes h hquery hfragment).congr fun d => ?_
    rw [Dialect.hierReads_path htwo, pathReads_eq]

theorem isalpha_eq (c : UInt8) : isalpha c = isAlpha c := by
  rw [isalpha, isAlpha, inRange, inRange, Bool.or_comm]

/-- `uri_parse_segments_switch` recognises its dialect. -/
theorem uriParseSegmentsSwitch_recognizes {s : List UInt8} (hs : Ascii s) :
    Recognizes (dialect.SchemeReads viewAt s) (uriParseSegmentsSwitch (s ++ [0])) := by
  have h := TextAt.start hs
  obtain ⟨⟨x, y⟩, hscan⟩ : ∃ xy, scan (startsChar isSchemeChar) s = xy := ⟨_, rfl⟩
  have hbehind := h.behind_scan hscan
  have hskip := h.skip_scheme
  have hcode : ¬ (EINVAL : ℤ) = 0 := by decide
  rw [Nat.zero_add] at hbehind
  rw [hscan, Nat.zero_add] at hskip
  by_cases hgood : isAlpha (s.headD 0) = true ∧ y.headD 0 = chr ':'
  · obtain ⟨halpha, hcolon⟩ := hgood
    obtain ⟨r, rfl⟩ := exists_cons_of_headD hcolon (by decide)
    have hparse : parseScheme (s ++ [0]) 0 = .ok (0, x.length + 1) := by
      simp only [parseScheme, h.read, Exec.ok_bind, isalpha_eq, halpha, if_true, hskip,
        hbehind.read, hcolon]
    have hsize : x.length + 1 - 0 - 1 = x.length := by omega
    simp only [uriParseSegmentsSwitch, hparse, Exec.ok_bind, if_true, hsize]
    exact (uriHierPart_recognizes hbehind.tail rfl rfl rfl rfl).congr fun d =>
      Dialect.schemeReads_mark hscan halpha rfl
  · have hparse : parseScheme (s ++ [0]) 0 = .ok (EINVAL, 0) := by
      cases halpha : isAlpha (s.headD 0) with
      | false =>
          simp only [parseScheme, h.read, Exec.ok_bind, isalpha_eq, halpha, Bool.false_eq_true,
            if_false]
      | true =>
          have hcolon : ¬ y.headD 0 = chr ':' := fun hcolon => hgood ⟨halpha, hcolon⟩
          simp only [parseScheme, h.read, Exec.ok_bind, isalpha_eq, halpha, if_true, hskip,
            hbehind.read, if_neg hcolon]
    simp only [uriParseSegmentsSwitch, hparse, Exec.ok_bind, if_neg hcode]
    exact (uriHierPart_recognizes h rfl rfl rfl rfl).congr fun d =>
      Dialect.schemeReads_absent hscan hgood

end Text

end Hlibc.Uri.Switch
