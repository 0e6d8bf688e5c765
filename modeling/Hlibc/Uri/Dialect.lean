import Hlibc.Uri.Rules
import Hlibc.Uri.Slices

/-!
# Dialects of the grammar

The parsers of `uri.c` and of `etc/uri` read URI references in ways that differ in four places: the
sub-delimiters, the paths that may stand alone, the places where there is no user
information, and the hosts.  A dialect fixes these places; the rest of the grammar, and the
slices that are recorded for it, are common.
-/

set_option autoImplicit false

namespace Hlibc.Uri

open Grammar

/-- The places in which readings of references differ. -/
structure Dialect where
  /-- The sub-delimiters. -/
  sub : UInt8 → Bool
  /-- The paths that may stand without a scheme and without an authority. -/
  relative : List UInt8 → Prop
  /-- The characters that may not end the characters of user information where there is none. -/
  userStop : List UInt8
  /-- The hosts of each type. -/
  host : HostType → List UInt8 → Prop

namespace Dialect

variable (D : Dialect)

/-! ## Components -/

/-- No user information is in front of the text. -/
def NoUserinfo (w : List UInt8) : Prop :=
  (scan (startsUnit (isUserinfoChar D.sub)) w).2.headD 0 ∉ D.userStop

/-- The path, given which components are in front of it. -/
def PathOk (hasScheme hasAuthority : Bool) (path : List UInt8) : Prop :=
  path ∈ units (isPathChar D.sub) ∧
    if hasAuthority then firstSegment path = [] else hasScheme = false → D.relative path

/-- An authority with a host of a type, in front of a text. -/
structure AuthorityOk (type : HostType) (a : Authority) (w : List UInt8) : Prop where
  userinfo : ∀ x ∈ a.userinfo, x ∈ Uri.userinfo D.sub
  noUserinfo : a.userinfo = none → D.NoUserinfo (a.host ++ (behind ':' a.port ++ w))
  host : D.host type a.host
  port : ∀ x ∈ a.port, x ∈ Uri.port

/-- The dialect assigns the components to their text, with a host of the type; where there is
no host, the type is that of a zeroed structure. -/
structure Assigns (p : Parts) (type : HostType) : Prop where
  scheme : ∀ x ∈ p.scheme, x ∈ Uri.scheme
  noScheme : p.scheme = none → ∀ x r, x ∈ Uri.scheme → p.text ≠ x ++ chr ':' :: r
  authority : ∀ a ∈ p.authority, D.AuthorityOk type a p.tailText
  noAuthority : p.authority = none → type = .ipv4 ∧ ∀ r, p.tailText ≠ chr '/' :: chr '/' :: r
  path : D.PathOk p.scheme.isSome p.authority.isSome p.path
  query : ∀ x ∈ p.query, x ∈ Uri.query D.sub
  fragment : ∀ x ∈ p.fragment, x ∈ Uri.fragment D.sub

/-! ## Readings from a place on -/

/-- What is recorded for a fragment at an offset. -/
abbrev FragmentView := ℕ → Option (List UInt8) → StringView

variable (view : FragmentView)

/-- The text `w` at `off` is a fragment or nothing. -/
def FragmentReads (off : ℕ) (w : List UInt8) (dest d : UriSegments) : Prop :=
  ∃ f, (∀ x ∈ f, x ∈ fragment D.sub) ∧ w = behind '#' f ∧
    d = { dest with fragment := view (off + 1) f }

/-- The text `w` at `off` is a query or nothing, and what may stand behind it. -/
def QueryReads (off : ℕ) (w : List UInt8) (dest d : UriSegments) : Prop :=
  ∃ q r, (∀ x ∈ q, x ∈ query D.sub) ∧ w = behind '?' q ++ r ∧
    D.FragmentReads view (off + (behind '?' q).length) r
      { dest with query := viewAt (off + 1) q } d

/-- The text `w` at `off` is a path, and what may stand behind it. -/
def PathReads (off : ℕ) (w : List UInt8) (dest d : UriSegments) : Prop :=
  ∃ path r, D.PathOk dest.scheme.str.isSome dest.host.str.isSome path ∧ w = path ++ r ∧
    D.QueryReads view (off + path.length) r
      { dest with path := { str := some off, size := path.length } } d

/-- The text `w` at `off` is a port or nothing, and what may stand behind it. -/
def PortReads (off : ℕ) (w : List UInt8) (dest d : UriSegments) : Prop :=
  ∃ pt r, (∀ x ∈ pt, x ∈ port) ∧ w = behind ':' pt ++ r ∧
    D.PathReads view (off + (behind ':' pt).length) r
      { dest with port := viewAt (off + 1) pt } d

/-- The text `w` at `off` is a host, and what may stand behind it. -/
def HostReads (off : ℕ) (w : List UInt8) (dest d : UriSegments) : Prop :=
  ∃ type host r, D.host type host ∧ w = host ++ r ∧
    D.PortReads view (off + host.length) r
      { dest with hostType := type, host := { str := some off, size := host.length } } d

/-- The text `w` at `off` is user information with its `@`, or nothing, and what may stand
behind it. -/
def AuthorityReads (off : ℕ) (w : List UInt8) (dest d : UriSegments) : Prop :=
  ∃ u r, (∀ x ∈ u, x ∈ userinfo D.sub) ∧ (u = none → D.NoUserinfo r) ∧
    w = before '@' u ++ r ∧
    D.HostReads view (off + (before '@' u).length) r { dest with userinfo := viewAt off u } d

/-- The text `w` at `off` is an authority with the slashes in front of it, or nothing, and
what may stand behind it. -/
def HierReads (off : ℕ) (w : List UInt8) (dest d : UriSegments) : Prop :=
  (∃ r, w = chr '/' :: chr '/' :: r ∧ D.AuthorityReads view (off + 2) r dest d) ∨
    ((¬ ∃ r, w = chr '/' :: chr '/' :: r) ∧ D.PathReads view off w dest d)

/-- The text `s` is a scheme with its colon, or nothing, and what may stand behind it. -/
def SchemeReads (s : List UInt8) (d : UriSegments) : Prop :=
  ∃ sc r, (∀ x ∈ sc, x ∈ scheme) ∧
    (sc = none → ∀ x r, x ∈ scheme → s ≠ x ++ chr ':' :: r) ∧ s = before ':' sc ++ r ∧
    D.HierReads view (before ':' sc).length r { UriSegments.zero with scheme := viewAt 0 sc } d

/-! ## Slices -/

/-- The slices of the components, with what is recorded for the fragment. -/
def record (p : Parts) (type : HostType) : UriSegments :=
  { p.place with
    hostType := type
    fragment := view ((before ':' p.scheme).length + (authorityText p.authority).length +
      p.path.length + (behind '?' p.query).length + 1) p.fragment }

/-- What is recorded for components with an authority. -/
theorem record_some (sc u pt q f : Option (List UInt8)) (host path : List UInt8)
    (type : HostType) :
    { UriSegments.zero with
      scheme := viewAt 0 sc
      userinfo := viewAt ((before ':' sc).length + 2) u
      hostType := type
      host := { str := some ((before ':' sc).length + 2 + (before '@' u).length)
                size := host.length }
      port := viewAt ((before ':' sc).length + 2 + (before '@' u).length + host.length + 1) pt
      path := { str := some ((before ':' sc).length + 2 + (before '@' u).length + host.length +
                  (behind ':' pt).length)
                size := path.length }
      query := viewAt ((before ':' sc).length + 2 + (before '@' u).length + host.length +
        (behind ':' pt).length + path.length + 1) q
      fragment := view ((before ':' sc).length + 2 + (before '@' u).length + host.length +
        (behind ':' pt).length + path.length + (behind '?' q).length + 1) f } =
      record view { scheme := sc, authority := some { userinfo := u, host := host, port := pt },
                    path := path, query := q, fragment := f } type := by
  have hlen : (before ':' sc).length + 2 + (before '@' u).length + host.length +
      (behind ':' pt).length = (before ':' sc).length +
        (authorityText (some { userinfo := u, host := host, port := pt })).length := by
    simp only [authorityText, Authority.text, List.length_cons, List.length_append]
    omega
  rw [hlen]
  rfl

variable {D view}

/-- What is read are components that the dialect assigns. -/
theorem SchemeReads.exists_parts {s : List UInt8} {d : UriSegments}
    (h : D.SchemeReads view s d) :
    ∃ p type, p.text = s ∧ D.Assigns p type ∧ d = record view p type := by
  obtain ⟨sc, r, hsc, hno, rfl, ⟨r, rfl, u, r, hu, huser, rfl, type, host, r, hhost, rfl,
    pt, r, hpt, rfl, path, r, hpath, rfl, q, r, hq, rfl, f, hf, rfl, rfl⟩ |
    ⟨htwo, path, r, hpath, rfl, q, r, hq, rfl, f, hf, rfl, rfl⟩⟩ := h
  · refine ⟨{ scheme := sc, authority := some { userinfo := u, host := host, port := pt },
              path := path, query := q, fragment := f }, type, ?_, ⟨hsc, ?_, ?_, ?_, ?_, hq, hf⟩,
            record_some view sc u pt q f host path type⟩
    · simp [Parts.text, authorityText, Authority.text, Parts.tailText]
    · intro hnone x r hx htext
      refine hno hnone x r hx ?_
      rw [← htext]
      simp [Parts.text, authorityText, Authority.text, Parts.tailText]
    · rintro _ ⟨⟩
      exact ⟨hu, huser, hhost, hpt⟩
    · rintro ⟨⟩
    · exact ⟨hpath.1, hpath.2⟩
  · refine ⟨{ scheme := sc, authority := none, path := path, query := q, fragment := f }, .ipv4,
      ?_, ⟨hsc, ?_, ?_, ?_, ?_, hq, hf⟩, rfl⟩
    · simp [Parts.text, authorityText, Parts.tailText]
    · intro hnone x r hx htext
      refine hno hnone x r hx ?_
      rw [← htext]
      simp [Parts.text, authorityText, Parts.tailText]
    · rintro _ ⟨⟩
    · exact fun _ => ⟨rfl, fun r hr => htwo ⟨r, hr⟩⟩
    · rw [isSome_viewAt] at hpath
      exact hpath

/-- Components that the dialect assigns are read. -/
theorem Assigns.schemeReads {p : Parts} {type : HostType} (h : D.Assigns p type) :
    D.SchemeReads view p.text (record view p type) := by
  obtain ⟨sc, authority, path, q, f⟩ := p
  refine ⟨sc, _, h.scheme, h.noScheme, rfl, ?_⟩
  have hpath := h.path
  cases authority with
  | some a =>
      obtain ⟨u, host, pt⟩ := a
      obtain ⟨hu, huser, hhost, hpt⟩ := h.authority _ rfl
      left
      refine ⟨before '@' u ++ (host ++ (behind ':' pt ++ (path ++ (behind '?' q ++
        behind '#' f)))), by simp [authorityText, Authority.text, Parts.tailText], u, _,
        hu, huser, rfl, type, host, _, hhost, rfl, pt, _, hpt, rfl, path, _, ?_, rfl,
        q, _, h.query, rfl, f, h.fragment, rfl, ?_⟩
      · exact ⟨hpath.1, hpath.2⟩
      · rw [← record_some]
  | none =>
      obtain ⟨rfl, htwo⟩ := h.noAuthority rfl
      right
      refine ⟨?_, path, _, ?_, rfl, q, _, h.query, rfl, f, h.fragment, rfl, rfl⟩
      · rintro ⟨r, hr⟩
        exact htwo r hr
      · rw [isSome_viewAt]
        exact hpath

theorem schemeReads_iff {s : List UInt8} {d : UriSegments} :
    D.SchemeReads view s d ↔ ∃ p type, p.text = s ∧ D.Assigns p type ∧ d = record view p type := by
  constructor
  · exact SchemeReads.exists_parts
  · rintro ⟨p, type, rfl, h, rfl⟩
    exact h.schemeReads

end Dialect

end Hlibc.Uri
