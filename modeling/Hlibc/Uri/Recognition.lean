import Hlibc.Uri.Dialect
import Hlibc.Uri.Scanners

/-!
# Recognising a dialect

What a dialect reads at a place is determined by scans of the text there, as long as its
sub-delimiters are separable.  A parser recognises the dialect if it accepts what is read,
and rejects where nothing is read.
-/

set_option autoImplicit false

namespace Hlibc.Uri

open Grammar

/-! ## The front of a text -/

/-- Only these characters may be in front. -/
def StartsWith (l w : List UInt8) : Prop := ∀ c r, w = c :: r → c ∈ l

theorem startsWith_cons (c : UInt8) (w : List UInt8) : StartsWith [c] (c :: w) := by
  intro d r hw
  rw [(List.cons.inj hw).1, List.mem_singleton]

theorem StartsWith.mono {l l' w : List UInt8} (h : StartsWith l w) (hl : l ⊆ l') :
    StartsWith l' w :=
  fun c r hw => hl (h c r hw)

theorem StartsWith.headD_ne {l w : List UInt8} (h : StartsWith l w) {k : UInt8} (hk : k ∉ l)
    (hzero : k ≠ 0) : w.headD 0 ≠ k := by
  cases w with
  | nil => exact fun h => hzero h.symm
  | cons c r =>
      rintro rfl
      exact hk (h _ r rfl)

/-- In front of a character outside the class, no unit starts. -/
theorem startsUnit_eq_false {p : UInt8 → Bool} {l w : List UInt8} (h : StartsWith l w)
    (hl : ∀ c ∈ l, p c = false ∧ c ≠ chr '%') : startsUnit p w = false := by
  cases w with
  | nil => rfl
  | cons c w =>
      obtain ⟨hc, hpct⟩ := hl c (h c w rfl)
      rw [startsUnit, hc, Bool.false_or]
      by_contra hstart
      obtain ⟨a, b, r, heq, -⟩ := exists_of_startsPct (by simpa using hstart)
      exact hpct (List.cons.inj heq).1

theorem startsChar_eq_false {p : UInt8 → Bool} {l w : List UInt8} (h : StartsWith l w)
    (hl : ∀ c ∈ l, p c = false) : startsChar p w = false := by
  cases w with
  | nil => rfl
  | cons c w => exact hl c (h c w rfl)

theorem exists_cons_of_headD {w : List UInt8} {k : UInt8} (h : w.headD 0 = k) (hk : k ≠ 0) :
    ∃ r, w = k :: r := by
  cases w with
  | nil => exact absurd h.symm hk
  | cons c r => exact ⟨r, by rw [← h]; rfl⟩

/-! ## Components that may be absent -/

section Optional

variable {l : Language UInt8} {c : Char} {w x y : List UInt8}
  {R : Option (List UInt8) → List UInt8 → Prop}

/-- Where its mark does not stand, a component is absent. -/
theorem exists_behind_absent (hhead : w.headD 0 ≠ chr c) :
    (∃ o r, (∀ x ∈ o, x ∈ l) ∧ w = behind c o ++ r ∧ R o r) ↔ R none w := by
  constructor
  · rintro ⟨o, r, -, rfl, hr⟩
    cases o with
    | none => exact hr
    | some x => exact absurd rfl hhead
  · intro hr
    exact ⟨none, w, by simp, rfl, hr⟩

/-- Behind its mark, a component is the only one that can be read there. -/
theorem exists_behind_present (hx : x ∈ l) (hnone : ¬ R none (chr c :: (x ++ y)))
    (hsame : ∀ x' r, x' ∈ l → x ++ y = x' ++ r → R (some x') r → x' = x ∧ r = y) :
    (∃ o r, (∀ x ∈ o, x ∈ l) ∧ chr c :: (x ++ y) = behind c o ++ r ∧ R o r) ↔
      R (some x) y := by
  constructor
  · rintro ⟨o, r, ho, hw, hr⟩
    cases o with
    | none =>
        obtain rfl : chr c :: (x ++ y) = r := hw
        exact absurd hr hnone
    | some x' =>
        obtain ⟨rfl, rfl⟩ := hsame x' r (ho x' rfl) (List.cons.inj hw).2 hr
        exact hr
  · intro hr
    refine ⟨some x, y, ?_, rfl, hr⟩
    rintro _ ⟨⟩
    exact hx

end Optional

/-! ## Recognition -/

/-- A result that accepts the only value with `P`, or rejects where there is none. -/
inductive Recognizes (P : UriSegments → Prop) : Exec (ℤ × UriSegments) → Prop
  | accept {d : UriSegments} (h : ∀ d', P d' ↔ d' = d) : Recognizes P (.ok (0, d))
  | reject {d : UriSegments} (h : ∀ d', ¬ P d') : Recognizes P (.ok (EINVAL, d))

namespace Recognizes

variable {P Q : UriSegments → Prop} {x : Exec (ℤ × UriSegments)} {d : UriSegments}

theorem congr (h : Recognizes P x) (hPQ : ∀ d, Q d ↔ P d) : Recognizes Q x := by
  cases h with
  | accept h => exact .accept fun d' => (hPQ d').trans (h d')
  | reject h => exact .reject fun d' hd => h d' ((hPQ d').mp hd)

theorem ok_iff (h : Recognizes P x) : x = .ok (0, d) ↔ P d := by
  cases h with
  | @accept d' h =>
      rw [h d]
      constructor
      · intro heq
        exact (Prod.mk.inj (Except.ok.inj heq)).2.symm
      · rintro rfl
        rfl
  | reject h =>
      refine iff_of_false (fun heq => ?_) (h d)
      exact absurd (Prod.mk.inj (Except.ok.inj heq)).1 (by decide)

theorem exists_ok (h : Recognizes P x) :
    ∃ code d, x = .ok (code, d) ∧ (code = 0 ∧ P d ∨ code = EINVAL ∧ ∀ d', ¬ P d') := by
  cases h with
  | @accept d h => exact ⟨0, d, rfl, Or.inl ⟨rfl, (h d).mpr rfl⟩⟩
  | @reject d h => exact ⟨EINVAL, d, rfl, Or.inr ⟨rfl, h⟩⟩

/-- There is no other value than the accepted one. -/
theorem unique {d' : UriSegments} (h : Recognizes P x) (hx : x = .ok (0, d)) (hd' : P d') :
    d' = d := by
  have hx' : x = .ok (0, d') := h.ok_iff.mpr hd'
  rw [hx] at hx'
  exact (Prod.mk.inj (Except.ok.inj hx')).2.symm

end Recognizes

/-! ## Marks -/

section Marks

variable {sub : UInt8 → Bool}

theorem query_stops (hsub : Separable sub) :
    ∀ c ∈ [chr '#'], isQueryChar sub c = false ∧ c ≠ chr '%' := by
  intro c hc
  obtain rfl := List.mem_singleton.mp hc
  have hmark : sub (chr '#') = false := hsub _ (by decide)
  simp only [isQueryChar, isPchar, hmark]
  decide

theorem path_stops (hsub : Separable sub) :
    ∀ c ∈ ascii "?#", isPathChar sub c = false ∧ c ≠ chr '%' := by
  intro c hc
  have hmarks : ∀ c ∈ ascii "?#", c ∈ ascii ":/?#[]@%" := by decide
  have hmark : sub c = false := hsub c (hmarks c hc)
  simp only [isPathChar, isPchar, hmark]
  clear hmark
  revert c
  decide

theorem userinfo_stops (hsub : Separable sub) :
    ∀ c ∈ [chr '@'], isUserinfoChar sub c = false ∧ c ≠ chr '%' := by
  intro c hc
  obtain rfl := List.mem_singleton.mp hc
  have hmark : sub (chr '@') = false := hsub _ (by decide)
  simp only [isUserinfoChar, hmark]
  decide

theorem name_stops (hsub : Separable sub) :
    ∀ c ∈ ascii ":/?#", isNameChar sub c = false ∧ c ≠ chr '%' := by
  intro c hc
  have hmarks : ∀ c ∈ ascii ":/?#", c ∈ ascii ":/?#[]@%" := by decide
  have hmark : sub c = false := hsub c (hmarks c hc)
  simp only [isNameChar, hmark]
  clear hmark
  revert c
  decide

end Marks

theorem nameUnits_hex (sub : UInt8 → Bool) (c : UInt8) (hc : isxdigit c = true) :
    isNameChar sub c = true := by
  simp [isNameChar, isUnreserved_of_isxdigit hc]

/-! ## Readings as scans -/

namespace Dialect

variable {D : Dialect} {view : FragmentView} {off : ℕ} {w x y r : List UInt8}
  {dest d : UriSegments}

theorem FragmentReads.startsWith (h : D.FragmentReads view off w dest d) :
    StartsWith [chr '#'] w := by
  obtain ⟨f, -, rfl, -⟩ := h
  cases f with
  | none =>
      intro c r hw
      cases hw
  | some x => exact startsWith_cons (chr '#') x

theorem QueryReads.startsWith (h : D.QueryReads view off w dest d) :
    StartsWith (ascii "?#") w := by
  obtain ⟨q, r, -, rfl, hr⟩ := h
  cases q with
  | none => exact hr.startsWith.mono (by decide)
  | some x =>
      intro c r' hw
      rw [← (List.cons.inj hw).1]
      decide

/-- Behind an authority a path is empty or starts with a slash. -/
theorem PathReads.startsWith (h : D.PathReads view off w dest d)
    (hhost : dest.host.str.isSome = true) : StartsWith (ascii "/?#") w := by
  obtain ⟨path, r, ⟨-, hfirst⟩, rfl, hr⟩ := h
  rw [if_pos hhost] at hfirst
  cases path with
  | nil => exact hr.startsWith.mono (by decide)
  | cons c path =>
      intro c' r' hw
      obtain ⟨rfl, -⟩ := List.cons.inj hw
      by_cases hslash : c = chr '/'
      · rw [hslash]
        decide
      · simp [firstSegment, hslash] at hfirst

theorem PortReads.startsWith (h : D.PortReads view off w dest d)
    (hhost : dest.host.str.isSome = true) : StartsWith (ascii ":/?#") w := by
  obtain ⟨pt, r, -, rfl, hr⟩ := h
  cases pt with
  | none => exact (hr.startsWith hhost).mono (by decide)
  | some x =>
      intro c r' hw
      rw [← (List.cons.inj hw).1]
      decide

/-- Behind its mark, a fragment is the rest of the text. -/
theorem fragmentReads_mark
    (hscan : scan (startsUnit (isQueryChar D.sub)) r = (x, y)) :
    D.FragmentReads view off (chr '#' :: r) dest d ↔
      y = [] ∧ d = { dest with fragment := view (off + 1) (some x) } := by
  obtain ⟨hunits, -, hr⟩ := (scan_units_iff (queryUnits_hex D.sub)).mp hscan
  constructor
  · rintro ⟨f, hf, hw, rfl⟩
    cases f with
    | none => cases hw
    | some x' =>
        have hmem := hf x' rfl
        rw [fragment_eq] at hmem
        obtain ⟨rfl, rfl⟩ := scan_units_unique (queryUnits_hex D.sub) hscan hmem rfl
          ((List.cons.inj hw).2.trans (List.append_nil x').symm)
        exact ⟨rfl, rfl⟩
  · rintro ⟨rfl, rfl⟩
    refine ⟨some x, ?_, by rw [hr, List.append_nil]; rfl, rfl⟩
    rintro _ ⟨⟩
    rwa [fragment_eq]

theorem fragmentReads_absent (hhead : w.headD 0 ≠ chr '#') :
    D.FragmentReads view off w dest d ↔
      w = [] ∧ d = { dest with fragment := view (off + 1) none } := by
  constructor
  · rintro ⟨f, -, rfl, rfl⟩
    cases f with
    | none => exact ⟨rfl, rfl⟩
    | some x => exact absurd rfl hhead
  · rintro ⟨rfl, rfl⟩
    exact ⟨none, by simp, rfl, rfl⟩

theorem queryReads_mark (hsub : Separable D.sub)
    (hscan : scan (startsUnit (isQueryChar D.sub)) r = (x, y)) :
    D.QueryReads view off (chr '?' :: r) dest d ↔ D.FragmentReads view (off + 1 + x.length) y
      { dest with query := { str := some (off + 1), size := x.length } } d := by
  obtain ⟨hunits, -, rfl⟩ := (scan_units_iff (queryUnits_hex D.sub)).mp hscan
  have hoff : off + (behind '?' (some x)).length = off + 1 + x.length := by
    rw [behind_some, List.length_cons]
    omega
  rw [QueryReads, query_eq, exists_behind_present hunits ?_ ?_, hoff, viewAt]
  · exact fun hrest => absurd (hrest.startsWith _ _ rfl) (by decide)
  · exact fun x' r hx' hw hrest => scan_units_unique (queryUnits_hex D.sub) hscan hx'
      (startsUnit_eq_false hrest.startsWith (query_stops hsub)) hw

theorem queryReads_absent (hhead : w.headD 0 ≠ chr '?') :
    D.QueryReads view off w dest d ↔ D.FragmentReads view off w { dest with query := .null } d := by
  rw [QueryReads, exists_behind_absent hhead]
  rfl

theorem pathReads_scan (hsub : Separable D.sub)
    (hscan : scan (startsUnit (isPathChar D.sub)) w = (x, y)) :
    D.PathReads view off w dest d ↔ D.PathOk dest.scheme.str.isSome dest.host.str.isSome x ∧
      D.QueryReads view (off + x.length) y
        { dest with path := { str := some off, size := x.length } } d := by
  obtain ⟨-, -, hw⟩ := (scan_units_iff (pathUnits_hex D.sub)).mp hscan
  constructor
  · rintro ⟨path, r, hpath, hwr, hrest⟩
    obtain ⟨rfl, rfl⟩ := scan_units_unique (pathUnits_hex D.sub) hscan hpath.1
      (startsUnit_eq_false hrest.startsWith (path_stops hsub)) hwr
    exact ⟨hpath, hrest⟩
  · rintro ⟨hpath, hrest⟩
    exact ⟨x, y, hpath, hw, hrest⟩

theorem portReads_mark (hhost : dest.host.str.isSome = true)
    (hscan : scan (startsChar isdigit) r = (x, y)) :
    D.PortReads view off (chr ':' :: r) dest d ↔ D.PathReads view (off + 1 + x.length) y
      { dest with port := { str := some (off + 1), size := x.length } } d := by
  obtain ⟨hdigits, -, rfl⟩ := scan_chars_iff.mp hscan
  have hport : x ∈ port := mem_kstar_one.mpr hdigits
  have hoff : off + (behind ':' (some x)).length = off + 1 + x.length := by
    rw [behind_some, List.length_cons]
    omega
  rw [PortReads, exists_behind_present hport ?_ ?_, hoff, viewAt]
  · exact fun hrest => absurd (hrest.startsWith hhost _ _ rfl) (by decide)
  · exact fun x' r hx' hw hrest => scan_chars_unique hscan (mem_kstar_one.mp hx')
      (startsChar_eq_false (hrest.startsWith hhost) (by decide)) hw

theorem portReads_absent (hhead : w.headD 0 ≠ chr ':') :
    D.PortReads view off w dest d ↔ D.PathReads view off w { dest with port := .null } d := by
  rw [PortReads, exists_behind_absent hhead]
  rfl

/-- A host that can be found in front of any of the marks behind it is read as it is found. -/
theorem hostReads_recognizes {res : Exec (ℤ × UriSegments)}
    (hfound : (∃ d, res = .ok (EINVAL, d)) ∨ ∃ type host r, w = host ++ r ∧
      (StartsWith (ascii ":/?#") r → D.host type host) ∧
      Recognizes (D.PortReads view (off + host.length) r
        { dest with hostType := type, host := { str := some off, size := host.length } }) res)
    (hall : ∀ type host r, D.host type host → w = host ++ r → StartsWith (ascii ":/?#") r →
      Recognizes (D.PortReads view (off + host.length) r
        { dest with hostType := type, host := { str := some off, size := host.length } }) res) :
    Recognizes (D.HostReads view off w dest) res := by
  have hread : ∀ d, D.HostReads view off w dest d → res = .ok (0, d) := by
    rintro d ⟨type, host, r, hhost, rfl, hrest⟩
    exact (hall type host r hhost rfl (hrest.startsWith rfl)).ok_iff.mpr hrest
  rcases hfound with ⟨d, rfl⟩ | ⟨type, host, r, rfl, hhost, hrest⟩
  · refine .reject fun d' hd => ?_
    exact absurd (Prod.mk.inj (Except.ok.inj (hread d' hd))).1 (by decide)
  · refine hrest.congr fun d => ⟨fun hd => hrest.ok_iff.mp (hread d hd), fun hd => ?_⟩
    exact ⟨type, host, r, hhost (hd.startsWith rfl), rfl, hd⟩

section Userinfo

variable (hsub : Separable D.sub)
  (hscan : scan (startsUnit (isUserinfoChar D.sub)) w = (x, y))

include hscan

theorem noUserinfo_iff : D.NoUserinfo w ↔ y.headD 0 ∉ D.userStop := by
  rw [NoUserinfo, hscan]

include hsub

/-- User information that is read is what the scanner takes. -/
theorem userinfo_unique {u : List UInt8} (hu : u ∈ userinfo D.sub) (hw : w = u ++ chr '@' :: r) :
    u = x ∧ chr '@' :: r = y := by
  rw [userinfo_eq] at hu
  exact scan_units_unique (userinfoUnits_hex D.sub) hscan hu
    (startsUnit_eq_false (startsWith_cons (chr '@') r) (userinfo_stops hsub)) hw

theorem authorityReads_mark (hstop : chr '@' ∈ D.userStop) (hy : y = chr '@' :: r) :
    D.AuthorityReads view off w dest d ↔ D.HostReads view (off + x.length + 1) r
      { dest with userinfo := { str := some off, size := x.length } } d := by
  obtain ⟨hunits, -, hw⟩ := (scan_units_iff (userinfoUnits_hex D.sub)).mp hscan
  have hoff : off + (before '@' (some x)).length = off + x.length + 1 := by
    rw [before_some, List.length_append, List.length_singleton, Nat.add_assoc]
  constructor
  · rintro ⟨u, r', hu, hno, hwr, hrest⟩
    cases u with
    | none =>
        obtain rfl : w = r' := hwr
        have habsent := (noUserinfo_iff hscan).mp (hno rfl)
        rw [hy] at habsent
        exact absurd hstop habsent
    | some u =>
        obtain ⟨rfl, heq⟩ := userinfo_unique hsub hscan (hu u rfl)
          (hwr.trans (List.append_assoc u [chr '@'] r'))
        obtain rfl := (List.cons.inj (heq.trans hy)).2
        rw [hoff] at hrest
        exact hrest
  · intro hrest
    refine ⟨some x, r, ?_, fun h => absurd h (by simp), ?_, ?_⟩
    · rintro _ ⟨⟩
      rwa [userinfo_eq]
    · rw [hw, hy, before_some, List.append_assoc]
      rfl
    · rw [hoff]
      exact hrest

theorem authorityReads_absent (hy : y.headD 0 ≠ chr '@') :
    D.AuthorityReads view off w dest d ↔
      y.headD 0 ∉ D.userStop ∧ D.HostReads view off w { dest with userinfo := .null } d := by
  rw [← noUserinfo_iff hscan]
  constructor
  · rintro ⟨u, r, hu, hno, hwr, hrest⟩
    cases u with
    | none =>
        obtain rfl : w = r := hwr
        exact ⟨hno rfl, hrest⟩
    | some u =>
        obtain ⟨-, rfl⟩ := userinfo_unique hsub hscan (hu u rfl)
          (hwr.trans (List.append_assoc u [chr '@'] r))
        exact absurd rfl hy
  · rintro ⟨hno, hrest⟩
    exact ⟨none, w, by simp, fun _ => hno, rfl, hrest⟩

end Userinfo

section Scheme

variable {s : List UInt8} (hscan : scan (startsChar isSchemeChar) s = (x, y))

include hscan

/-- A scheme that is read is what the scanner takes. -/
theorem scheme_unique {sc : List UInt8} (hsc : sc ∈ scheme) (hs : s = sc ++ chr ':' :: r) :
    sc = x ∧ chr ':' :: r = y :=
  scan_chars_unique hscan (mem_scheme.mp hsc).2
    (startsChar_eq_false (startsWith_cons (chr ':') r) (by decide)) hs

theorem schemeReads_mark (halpha : isAlpha (s.headD 0) = true) (hy : y = chr ':' :: r) :
    D.SchemeReads view s d ↔ D.HierReads view (x.length + 1) r
      { UriSegments.zero with scheme := { str := some 0, size := x.length } } d := by
  obtain ⟨hchars, -, hw⟩ := scan_chars_iff.mp hscan
  have hmem : x ∈ scheme := by
    refine mem_scheme.mpr ⟨?_, hchars⟩
    cases x with
    | nil =>
        rw [hw, hy, List.nil_append, List.headD_cons] at halpha
        exact absurd halpha (by decide)
    | cons c x =>
        rw [hw, List.cons_append, List.headD_cons] at halpha
        exact halpha
  have hlen : (before ':' (some x)).length = x.length + 1 := by
    rw [before_some, List.length_append, List.length_singleton]
  constructor
  · rintro ⟨sc, r', hsc, hno, hsr, hrest⟩
    cases sc with
    | none => exact absurd (hy ▸ hw) (hno rfl x r hmem)
    | some sc =>
        obtain ⟨rfl, heq⟩ := scheme_unique hscan (hsc sc rfl)
          (hsr.trans (List.append_assoc sc [chr ':'] r'))
        obtain rfl := (List.cons.inj (heq.trans hy)).2
        rw [hlen] at hrest
        exact hrest
  · intro hrest
    refine ⟨some x, r, ?_, fun h => absurd h (by simp), ?_, ?_⟩
    · rintro _ ⟨⟩
      exact hmem
    · rw [hw, hy, before_some, List.append_assoc]
      rfl
    · rw [hlen]
      exact hrest

theorem schemeReads_absent (hbad : ¬ (isAlpha (s.headD 0) = true ∧ y.headD 0 = chr ':')) :
    D.SchemeReads view s d ↔ D.HierReads view 0 s UriSegments.zero d := by
  have habsent : ∀ x r, x ∈ scheme → s ≠ x ++ chr ':' :: r := by
    intro sc r hsc hs
    obtain ⟨rfl, rfl⟩ := scheme_unique hscan hsc hs
    refine hbad ⟨?_, rfl⟩
    obtain ⟨halpha, -⟩ := mem_scheme.mp hsc
    cases sc with
    | nil => exact absurd halpha (by decide)
    | cons c sc => rwa [hs]
  constructor
  · rintro ⟨sc, r, hsc, -, hsr, hrest⟩
    cases sc with
    | none =>
        obtain rfl : s = r := hsr
        exact hrest
    | some sc =>
        exact absurd (hsr.trans (List.append_assoc sc [chr ':'] r)) (habsent sc r (hsc sc rfl))
  · intro hrest
    exact ⟨none, s, by simp, fun _ => habsent, rfl, hrest⟩

end Scheme

theorem hierReads_slashes : D.HierReads view off (chr '/' :: chr '/' :: r) dest d ↔
    D.AuthorityReads view (off + 2) r dest d := by
  constructor
  · rintro (⟨r', hr, hrest⟩ | ⟨hnot, -⟩)
    · obtain rfl := (List.cons.inj (List.cons.inj hr).2).2
      exact hrest
    · exact absurd ⟨r, rfl⟩ hnot
  · exact fun hrest => Or.inl ⟨r, rfl, hrest⟩

theorem hierReads_path (htwo : ¬ ∃ r, w = chr '/' :: chr '/' :: r) :
    D.HierReads view off w dest d ↔ D.PathReads view off w dest d := by
  constructor
  · rintro (⟨r, hr, -⟩ | ⟨-, hrest⟩)
    · exact absurd ⟨r, hr⟩ htwo
    · exact hrest
  · exact fun hrest => Or.inr ⟨htwo, hrest⟩

end Dialect

end Hlibc.Uri
