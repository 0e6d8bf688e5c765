import Hlibc.Uri.Host

/-!
# Reading a whole text

`uri_parse_segments` reads its dialect.  So it accepts exactly the texts to which the grammar,
with the sub-delimiters of the tables, assigns components whose host is plain; and it
records these components.
-/

set_option autoImplicit false

namespace Hlibc.Uri

open Grammar

/-! ## The hierarchical part -/

theorem slashes_cases {src w : List UInt8} {pos : ℕ} (h : StringAt src pos w) :
    (∃ r, w = chr '/' :: chr '/' :: r) ∧ andThen ((· == chr '/') <$> readByte src pos)
        ((· == chr '/') <$> readByte src (pos + 1)) = .ok true ∨
      (¬ ∃ r, w = chr '/' :: chr '/' :: r) ∧ andThen ((· == chr '/') <$> readByte src pos)
        ((· == chr '/') <$> readByte src (pos + 1)) = .ok false := by
  by_cases htwo : ∃ r, w = chr '/' :: chr '/' :: r
  · refine Or.inl ⟨htwo, ?_⟩
    obtain ⟨r, rfl⟩ := htwo
    rw [h.read, h.tail.read]
    rfl
  · refine Or.inr ⟨htwo, ?_⟩
    rw [h.read]
    cases w with
    | nil => rfl
    | cons c w =>
        by_cases hc : c = chr '/'
        · subst hc
          rw [h.tail.read]
          cases w with
          | nil => rfl
          | cons c' w =>
              have hc' : ¬ c' = chr '/' := by
                rintro rfl
                exact htwo ⟨w, rfl⟩
              simp [andThen, hc']
        · simp [andThen, hc]

theorem uriHierPart_iff {src w : List UInt8} {pos : ℕ} {dest d : UriSegments}
    (h : TextAt src pos w) (huserinfo : dest.userinfo = .null) (hport : dest.port = .null)
    (hquery : dest.query = .null) (hfragment : dest.fragment = .null) :
    uriHierPart src pos dest = .ok (0, d) ↔ codeDialect.HierReads viewAt pos w dest d := by
  rcases slashes_cases h.string with ⟨⟨r, rfl⟩, hslashes⟩ | ⟨htwo, hslashes⟩
  · rw [uriHierPart, hslashes, Exec.ok_bind, if_pos rfl,
      uriAuthority_iff h.tail.tail huserinfo hport hquery hfragment]
    exact Dialect.hierReads_slashes.symm
  · rw [uriHierPart, hslashes, Exec.ok_bind, if_neg Bool.false_ne_true,
      (uriPath_recognizes h hquery hfragment).ok_iff]
    exact (Dialect.hierReads_path htwo).symm

/-! ## The scheme -/

theorem uriParseSegments_iff {s : List UInt8} {d : UriSegments} (hs : Ascii s) :
    uriParseSegments (s ++ [0]) = .ok (0, d) ↔ codeDialect.SchemeReads viewAt s d := by
  have h := TextAt.start hs
  obtain ⟨⟨x, y⟩, hscan⟩ : ∃ xy, scan (startsChar isSchemeChar) s = xy := ⟨_, rfl⟩
  have hbehind := h.behind_scan hscan
  rw [Nat.zero_add] at hbehind
  have hskip := h.skip_scheme
  rw [hscan, Nat.zero_add] at hskip
  have hcode : ¬ (EINVAL : ℤ) = 0 := by decide
  by_cases hgood : isAlpha (s.headD 0) = true ∧ y.headD 0 = chr ':'
  · obtain ⟨halpha, hcolon⟩ := hgood
    obtain ⟨r, rfl⟩ := exists_cons_of_headD hcolon (by decide)
    have hparse : parseScheme (s ++ [0]) 0 = .ok (0, x.length + 1) := by
      simp only [parseScheme, h.read, Exec.ok_bind, hlibIsalpha_eq, halpha, Bool.not_true,
        Bool.false_eq_true, if_false, hskip, hbehind.read, hcolon, ne_eq, not_true_eq_false]
    have hsize : x.length + 1 - 0 - 1 = x.length := by omega
    simp only [uriParseSegments, hparse, Exec.ok_bind, if_true, hsize]
    rw [uriHierPart_iff hbehind.tail (by rfl) (by rfl) (by rfl) (by rfl)]
    exact (Dialect.schemeReads_mark hscan halpha rfl).symm
  · have hparse : parseScheme (s ++ [0]) 0 = .ok (EINVAL, 0) := by
      by_cases halpha : isAlpha (s.headD 0) = true
      · have hcolon : ¬ y.headD 0 = chr ':' := fun h => hgood ⟨halpha, h⟩
        simp only [parseScheme, h.read, Exec.ok_bind, hlibIsalpha_eq, halpha, Bool.not_true,
          Bool.false_eq_true, if_false, hskip, hbehind.read, ne_eq, hcolon, not_false_eq_true,
          if_true]
      · simp only [parseScheme, h.read, Exec.ok_bind, hlibIsalpha_eq, halpha, Bool.not_false,
          if_true]
    simp only [uriParseSegments, hparse, Exec.ok_bind, if_neg hcode]
    rw [uriHierPart_iff h (by rfl) (by rfl) (by rfl) (by rfl)]
    exact (Dialect.schemeReads_absent hscan hgood).symm

/-! ## What stands in front of a place -/

/-- A colon behind characters that end no path lies in the first segment. -/
theorem colon_mem_firstSegment {x y path r : List UInt8}
    (hx : ∀ c ∈ x, c ∉ ascii "/?#") (h : x ++ chr ':' :: y = path ++ r)
    (hr : StartsWith (ascii "?#") r) : chr ':' ∈ firstSegment path := by
  have hcolon : chr ':' ∉ ascii "?#" := by decide
  rcases List.append_eq_append_iff.mp h with ⟨a, rfl, ha⟩ | ⟨a, rfl, ha⟩
  · cases a with
    | nil => exact absurd (hr _ _ ha.symm) hcolon
    | cons c a =>
        obtain ⟨rfl, -⟩ := List.cons.inj ha
        have hpos : ∀ c ∈ x, (c != chr '/') = true := by
          intro c hc
          rw [bne_iff_ne]
          rintro rfl
          exact hx _ hc (by decide)
        rw [firstSegment, List.takeWhile_append_of_pos hpos, List.takeWhile_cons_of_pos (by decide)]
        exact List.mem_append_right x List.mem_cons_self
  · cases a with
    | nil => exact absurd (hr _ _ ha) hcolon
    | cons c a =>
        have hc := hr c _ ha
        have hsub : ∀ c ∈ ascii "?#", c ∈ ascii "/?#" := by decide
        exact absurd (hsub c hc) (hx c (List.mem_append_right path List.mem_cons_self))

theorem scheme_notMem_end {w : List UInt8} {c : UInt8} (hw : w ∈ scheme) (hc : c ∈ w) :
    c ∉ ascii "/?#" := by
  have hall : ∀ c ∈ ascii "/?#", isSchemeChar c = false := by decide
  exact fun hend => absurd (((mem_scheme.mp hw).2 c hc).symm.trans (hall c hend)) (by decide)

theorem marks_startsWith (q f : Option (List UInt8)) :
    StartsWith (ascii "?#") (behind '?' q ++ behind '#' f) := by
  intro c r hmarks
  cases q with
  | some q =>
      rw [← (List.cons.inj hmarks).1]
      decide
  | none =>
      cases f with
      | some f =>
          rw [← (List.cons.inj hmarks).1]
          decide
      | none => cases hmarks

/-- Two slashes in front of a path and what stands behind it are slashes of the path. -/
theorem slashes_of_append {q f : Option (List UInt8)} {path r : List UInt8}
    (h : path ++ (behind '?' q ++ behind '#' f) = chr '/' :: chr '/' :: r) :
    ∃ r', path = chr '/' :: chr '/' :: r' := by
  have hmarks : ∀ r', behind '?' q ++ behind '#' f ≠ chr '/' :: r' := by
    intro r'
    cases q <;> cases f <;> simp [show chr '?' ≠ chr '/' by decide,
      show chr '#' ≠ chr '/' by decide]
  cases path with
  | nil => exact absurd h (hmarks _)
  | cons c path =>
      obtain ⟨rfl, hrest⟩ := List.cons.inj h
      cases path with
      | nil => exact absurd hrest (hmarks _)
      | cons c' path =>
          obtain ⟨rfl, -⟩ := List.cons.inj hrest
          exact ⟨path, rfl⟩

/-! ## Components -/

/-- The host, if there is one, is plain. -/
def Parts.Plain (parts : Parts) : Prop := ∀ a ∈ parts.authority, PlainHost a.host

theorem PlainHost.mem_host {w : List UInt8} (h : PlainHost w) (sub : UInt8 → Bool) :
    w ∈ host sub := by
  rcases h with rfl | h
  · exact Or.inr (Language.nil_mem_kstar _)
  · exact Or.inl (Or.inr h)

/-- The rule for paths of the grammar is what the parser reads. -/
theorem mem_pathRule_codeSub {w : List UInt8} {hasScheme hasAuthority : Bool} :
    w ∈ pathRule codeSub hasScheme hasAuthority ↔ w ∈ units (isPathChar codeSub) ∧
      FirstSegmentOk hasScheme hasAuthority w ∧
      (hasAuthority = false → ¬ ∃ r, w = chr '/' :: chr '/' :: r) := by
  rw [mem_pathRule codeSub_separable, FirstSegmentOk]
  cases hasAuthority <;> simp [and_comm]

section Components

variable {p : Parts} {type : HostType}

/-- Behind an authority a path is empty or starts with a slash. -/
theorem tailText_startsWith (hfirst : firstSegment p.path = []) :
    StartsWith (ascii "/?#") p.tailText := by
  intro c r hw
  rw [Parts.tailText] at hw
  cases hpath : p.path with
  | nil =>
      rw [hpath, List.nil_append] at hw
      exact List.mem_cons_of_mem _ (marks_startsWith p.query p.fragment c r hw)
  | cons k path =>
      rw [hpath] at hw hfirst
      obtain ⟨rfl, -⟩ := List.cons.inj hw
      by_cases hslash : k = chr '/'
      · rw [hslash]
        decide
      · simp [firstSegment, hslash] at hfirst

/-- Components that the grammar assigns have a scheme where one is in front. -/
theorem Parts.Valid.noScheme (hvalid : p.Valid codeSub) (hnone : p.scheme = none)
    {x r : List UInt8} (hx : x ∈ Uri.scheme) : p.text ≠ x ++ chr ':' :: r := by
  intro htext
  obtain ⟨sc, authority, path, q, f⟩ := p
  obtain rfl : sc = none := hnone
  cases authority with
  | some a =>
      obtain ⟨halpha, -⟩ := mem_scheme.mp hx
      cases x with
      | nil => exact absurd halpha (by decide)
      | cons c x =>
          rw [List.headD_cons, ← (List.cons.inj htext).1] at halpha
          exact absurd halpha (by decide)
  | none =>
      obtain ⟨-, -, hcolon⟩ := (mem_pathRule codeSub_separable).mp hvalid.path
      refine hcolon rfl (colon_mem_firstSegment (fun c hc => scheme_notMem_end hx hc) htext.symm ?_)
      exact marks_startsWith q f

/-- In front of a plain host there is no user information but the one before an `@`. -/
theorem noUserinfo_plain {host r : List UInt8} {pt : Option (List UInt8)}
    (hhost : PlainHost host) (hpt : ∀ x ∈ pt, x ∈ port) (hr : StartsWith (ascii "/?#") r) :
    codeDialect.NoUserinfo (host ++ (behind ':' pt ++ r)) := by
  have hdigit : ∀ c, isdigit c = true → isUserinfoChar codeSub c = true := by
    intro c hc
    simp [isUserinfoChar, isUnreserved, hc]
  have hfront : ∀ c ∈ host ++ behind ':' pt, isUserinfoChar codeSub c = true := by
    intro c hc
    rcases List.mem_append.mp hc with hc | hc
    · rcases hhost with rfl | hhost
      · cases hc
      · rcases Bool.or_eq_true_iff.mp ((ipv4Address_chars hhost).1 c hc) with hc | hc
        · exact hdigit c hc
        · rw [beq_iff_eq.mp hc]
          decide
    · cases pt with
      | none => cases hc
      | some x =>
          rcases List.mem_cons.mp hc with rfl | hc
          · decide
          · exact hdigit c (mem_kstar_one.mp (hpt x rfl) c hc)
  have hstops : ∀ c ∈ ascii "/?#", isUserinfoChar codeSub c = false ∧ c ≠ chr '%' := by decide
  obtain ⟨⟨x, y⟩, hscan⟩ :
      ∃ xy, scan (startsUnit (isUserinfoChar codeSub)) (host ++ (behind ':' pt ++ r)) = xy :=
    ⟨_, rfl⟩
  obtain ⟨-, rfl⟩ := scan_units_unique (userinfoUnits_hex codeSub) hscan
    (mem_units_of_forall hfront) (startsUnit_eq_false hr hstops)
    (List.append_assoc host (behind ':' pt) r).symm
  rw [Dialect.NoUserinfo, show codeDialect.sub = codeSub from rfl, hscan]
  cases r with
  | nil =>
      have hend : 0 ∉ codeDialect.userStop := by decide
      exact hend
  | cons c r =>
      have hall : ∀ c ∈ ascii "/?#", c ∉ codeDialect.userStop := by decide
      exact hall c (hr c r rfl)

/-- The dialect assigns what the grammar assigns with a plain host, and gives the host its type. -/
theorem codeDialect_assigns_iff :
    codeDialect.Assigns p type ↔ p.Valid codeSub ∧ p.Plain ∧ type = p.place.hostType := by
  have htype : ∀ a ∈ p.authority, p.place.hostType = plainType a.host := by
    intro a ha
    rw [Parts.place, show p.authority = some a from ha]
    rfl
  constructor
  · intro h
    have hplain : p.Plain := fun a ha => (h.authority a ha).host.1
    obtain ⟨hunits, hfirst⟩ := h.path
    refine ⟨⟨h.scheme, fun a ha => ?_, ?_, h.query, h.fragment⟩, hplain, ?_⟩
    · exact ⟨(h.authority a ha).userinfo, (hplain a ha).mem_host codeSub,
        (h.authority a ha).port⟩
    · refine mem_pathRule_codeSub.mpr ⟨hunits, hfirst, fun hnone => ?_⟩
      rintro ⟨r, hr⟩
      refine (h.noAuthority (Option.not_isSome_iff_eq_none.mp (by rw [hnone]; decide))).2
        (r ++ (behind '?' p.query ++ behind '#' p.fragment)) ?_
      rw [Parts.tailText, hr]
      rfl
    · cases ha : p.authority with
      | none =>
          rw [(h.noAuthority ha).1, Parts.place, ha]
          rfl
      | some a => rw [htype a ha, (h.authority a ha).host.2]
  · rintro ⟨hvalid, hplain, rfl⟩
    obtain ⟨hunits, hfirst, htwo⟩ := mem_pathRule_codeSub.mp hvalid.path
    refine ⟨hvalid.scheme, fun hnone x r hx => hvalid.noScheme hnone hx, fun a ha => ?_,
      fun hnone => ⟨?_, fun r hr => ?_⟩, ⟨hunits, hfirst⟩, hvalid.query, hvalid.fragment⟩
    · obtain ⟨hu, -, hpt⟩ := hvalid.authority a ha
      rw [FirstSegmentOk, if_pos (Option.isSome_of_mem ha)] at hfirst
      exact ⟨hu, fun _ => noUserinfo_plain (hplain a ha) hpt (tailText_startsWith hfirst),
        ⟨hplain a ha, htype a ha⟩, hpt⟩
    · rw [Parts.place, hnone]
      rfl
    · exact htwo (by rw [hnone]; rfl) (slashes_of_append hr)

end Components

/-- `uri_parse_segments` accepts the texts to which the grammar of the tables assigns
components with a plain host, and records where these components stand. -/
theorem uriParseSegments_eq_ok {s : List UInt8} {d : UriSegments} (hs : Ascii s) :
    uriParseSegments (s ++ [0]) = .ok (0, d) ↔
      ∃ parts, Assigns codeSub parts s ∧ parts.Plain ∧ d = parts.place := by
  rw [uriParseSegments_iff hs, Dialect.schemeReads_iff]
  constructor
  · rintro ⟨p, type, rfl, hassigns, rfl⟩
    obtain ⟨hvalid, hplain, rfl⟩ := codeDialect_assigns_iff.mp hassigns
    exact ⟨p, ⟨hvalid, rfl⟩, hplain, rfl⟩
  · rintro ⟨p, ⟨hvalid, rfl⟩, hplain, rfl⟩
    exact ⟨p, _, rfl, codeDialect_assigns_iff.mpr ⟨hvalid, hplain, rfl⟩, rfl⟩

end Hlibc.Uri
