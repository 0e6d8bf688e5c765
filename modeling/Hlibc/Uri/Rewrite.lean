import Hlibc.Uri.Canonical
import Hlibc.Uri.Reference
import Mathlib.Data.List.TakeWhile

/-!
# Rewritten references

The user information, the path, the query and the fragment of a reference may be rewritten by
their normalisers, and the reference be put together from the results.  A percent-encoded slash
or colon becomes one that stands for itself, so that what was a path may be read as an authority
or as a scheme: there the text of the results is another reference.
-/

set_option autoImplicit false

namespace Hlibc.Uri

open Grammar

/-! ## The classes of the components -/

/-- The class of a table is the class it tabulates. -/
theorem tabled_of_mem {t : List ℕ × (UInt8 → Bool)} (ht : t ∈ classTables) :
    tabled t.1 = t.2 := by
  funext c
  rw [tabled, (entryOf_of_mem ht c).1]
  cases t.2 c <;> rfl

namespace Component

/-- The characters of the component. -/
def chars : Component → UInt8 → Bool
  | userinfo => isUserinfoChar codeSub
  | path => isPathChar codeSub
  | query => isQueryChar codeSub
  | fragment => isQueryChar codeSub

theorem tabled_cset : ∀ k : Component, tabled k.cset = k.chars
  | userinfo => tabled_of_mem (t := (userinfoCset, isUserinfoChar codeSub)) (by simp [classTables])
  | path => tabled_of_mem (t := (pathCset, isPathChar codeSub)) (by simp [classTables])
  | query => tabled_of_mem (t := (queryCset, isQueryChar codeSub)) (by simp [classTables])
  | fragment => tabled_of_mem (t := (fragmentCset, isQueryChar codeSub)) (by simp [classTables])

/-- The canonical spelling of a component. -/
def spell (k : Component) (w : List UInt8) : List UInt8 := canonical (tabled k.cset) w

theorem spell_mem_units (k : Component) (w : List UInt8) : k.spell w ∈ units k.chars := by
  rw [← k.tabled_cset]
  exact pctEncode_mem_units _

end Component

/-! ## Rewriting -/

/-- What the normalisers write for the components of `parts`: the scheme, the host and the port
stay, and each of the others is rewritten by its function. -/
structure Rewrites (parts parts' : Parts) : Prop where
  scheme : parts'.scheme = parts.scheme
  host : parts'.authority.map Authority.host = parts.authority.map Authority.host
  port : parts'.authority.bind Authority.port = parts.authority.bind Authority.port
  userinfo : Option.Rel (Writes Component.userinfo.normalize)
    (parts.authority.bind Authority.userinfo) (parts'.authority.bind Authority.userinfo)
  path : Writes Component.path.normalize parts.path parts'.path
  query : Option.Rel (Writes Component.query.normalize) parts.query parts'.query
  fragment : Option.Rel (Writes Component.fragment.normalize) parts.fragment parts'.fragment

/-- The path cannot be read as an authority, nor its first segment as a scheme. -/
def Parts.PathStands (parts : Parts) : Prop :=
  parts.authority = none → (¬ ∃ r, parts.path = chr '/' :: chr '/' :: r) ∧
    (parts.scheme = none → chr ':' ∉ firstSegment parts.path)

/-- The text of the components is accepted, and read as these components. -/
def Parts.ReadBack (parts : Parts) (type : HostType) : Prop :=
  ∃ d, uriParseSegments (parts.text ++ [0]) = .ok (0, d) ∧
    Records (parts.text ++ [0]) d parts ∧ d.hostType = type

/-- The components in their canonical spelling. -/
def Parts.spell (parts : Parts) : Parts where
  scheme := parts.scheme
  authority := parts.authority.map fun a =>
    { a with userinfo := a.userinfo.map Component.userinfo.spell }
  path := Component.path.spell parts.path
  query := parts.query.map Component.query.spell
  fragment := parts.fragment.map Component.fragment.spell

/-! ### Texts of ASCII characters -/

section Ascii

variable {x y : List UInt8} {c : Char} {o : Option (List UInt8)}

theorem ascii_append : Ascii (x ++ y) ↔ Ascii x ∧ Ascii y := List.forall_mem_append

theorem ascii_before (hc : chr c ≠ 0 ∧ (chr c).toNat < 128) :
    Ascii (before c o) ↔ ∀ x ∈ o, Ascii x := by
  cases o with
  | none => simp [Ascii]
  | some x =>
      have hlast : Ascii [chr c] := by simpa [Ascii] using hc
      rw [before_some, ascii_append, and_iff_left hlast]
      simp

theorem ascii_behind (hc : chr c ≠ 0 ∧ (chr c).toNat < 128) :
    Ascii (behind c o) ↔ ∀ x ∈ o, Ascii x := by
  cases o with
  | none => simp [Ascii]
  | some x =>
      have hfirst : Ascii [chr c] := by simpa [Ascii] using hc
      rw [behind_some, ← List.singleton_append, ascii_append, and_iff_right hfirst]
      simp

end Ascii

/-- The components are made of ASCII characters. -/
structure Parts.IsAscii (parts : Parts) : Prop where
  scheme : ∀ x ∈ parts.scheme, Ascii x
  userinfo : ∀ x ∈ parts.authority.bind Authority.userinfo, Ascii x
  host : ∀ x ∈ parts.authority.map Authority.host, Ascii x
  port : ∀ x ∈ parts.authority.bind Authority.port, Ascii x
  path : Ascii parts.path
  query : ∀ x ∈ parts.query, Ascii x
  fragment : ∀ x ∈ parts.fragment, Ascii x

theorem ascii_text {parts : Parts} : Ascii parts.text ↔ parts.IsAscii := by
  obtain ⟨sc, authority, path, q, f⟩ := parts
  have hauthority : Ascii (authorityText authority) ↔
      (∀ x ∈ authority.bind Authority.userinfo, Ascii x) ∧
        (∀ x ∈ authority.map Authority.host, Ascii x) ∧
          ∀ x ∈ authority.bind Authority.port, Ascii x := by
    cases authority with
    | none => simp [authorityText, Ascii]
    | some a =>
        obtain ⟨u, host, pt⟩ := a
        have hslashes : Ascii (ascii "//") := by decide
        have htext : authorityText (some { userinfo := u, host := host, port := pt }) =
            ascii "//" ++ (before '@' u ++ (host ++ behind ':' pt)) := rfl
        rw [htext, ascii_append, and_iff_right hslashes, ascii_append, ascii_append,
          ascii_before (by decide), ascii_behind (by decide)]
        simp
  simp only [Parts.text, Parts.tailText, ascii_append, hauthority]
  rw [ascii_before (by decide), ascii_behind (by decide), ascii_behind (by decide)]
  constructor
  · rintro ⟨hsc, ⟨hu, hhost, hpt⟩, hpath, hq, hf⟩
    exact ⟨hsc, hu, hhost, hpt, hpath, hq, hf⟩
  · rintro ⟨hsc, hu, hhost, hpt, hpath, hq, hf⟩
    exact ⟨hsc, ⟨hu, hhost, hpt⟩, hpath, hq, hf⟩

/-- Every character of the components that are rewritten has its place. -/
structure Parts.InUnits (parts : Parts) : Prop where
  userinfo : ∀ x ∈ parts.authority.bind Authority.userinfo, x ∈ units Component.userinfo.chars
  path : parts.path ∈ units Component.path.chars
  query : ∀ x ∈ parts.query, x ∈ units Component.query.chars
  fragment : ∀ x ∈ parts.fragment, x ∈ units Component.fragment.chars

theorem Parts.Valid.inUnits {parts : Parts} (h : parts.Valid codeSub) : parts.InUnits where
  userinfo x hx := by
    obtain ⟨a, ha, hx⟩ := Option.bind_eq_some_iff.mp hx
    exact userinfo_eq codeSub ▸ (h.authority a ha).userinfo x hx
  path := (mem_pathRule_codeSub.mp h.path).1
  query x hx := query_eq codeSub ▸ h.query x hx
  fragment x hx := fragment_eq codeSub ▸ h.fragment x hx

/-! ### The canonical spelling -/

theorem writes_iff_spell {k : Component} {x y : List UInt8} (hx : Ascii x)
    (hunits : x ∈ units k.chars) : Writes k.normalize x y ↔ y = k.spell x := by
  rw [Component.writes_iff hx, k.tabled_cset, and_iff_right hunits, Component.spell,
    k.tabled_cset]

theorem rel_writes_iff {k : Component} {o o' : Option (List UInt8)} (ho : ∀ x ∈ o, Ascii x)
    (hunits : ∀ x ∈ o, x ∈ units k.chars) :
    Option.Rel (Writes k.normalize) o o' ↔ o' = o.map k.spell := by
  cases o with
  | none =>
      constructor
      · rintro ⟨⟩
        rfl
      · rintro rfl
        exact .none
  | some x =>
      have hiff : ∀ y, Writes k.normalize x y ↔ y = k.spell x := fun y =>
        writes_iff_spell (ho x rfl) (hunits x rfl)
      constructor
      · rintro (hy | -)
        exact congrArg some ((hiff _).mp hy)
      · rintro rfl
        exact .some ((hiff _).mpr rfl)

section Spell

variable {parts : Parts}

@[simp] theorem spell_userinfo : parts.spell.authority.bind Authority.userinfo =
    (parts.authority.bind Authority.userinfo).map Component.userinfo.spell := by
  rw [Parts.spell]
  cases parts.authority <;> rfl

@[simp] theorem spell_host :
    parts.spell.authority.map Authority.host = parts.authority.map Authority.host := by
  rw [Parts.spell]
  cases parts.authority <;> rfl

@[simp] theorem spell_port :
    parts.spell.authority.bind Authority.port = parts.authority.bind Authority.port := by
  rw [Parts.spell]
  cases parts.authority <;> rfl

theorem authority_ext {a a' : Option Authority}
    (hhost : a'.map Authority.host = a.map Authority.host)
    (huser : a'.bind Authority.userinfo = a.bind Authority.userinfo)
    (hport : a'.bind Authority.port = a.bind Authority.port) : a' = a := by
  cases a with
  | none => exact Option.map_eq_none_iff.mp hhost
  | some a =>
      obtain ⟨a', rfl, -⟩ := Option.map_eq_some_iff.mp hhost
      obtain ⟨u, host, pt⟩ := a
      obtain ⟨u', host', pt'⟩ := a'
      obtain rfl : host' = host := Option.some.inj hhost
      obtain rfl : u' = u := huser
      obtain rfl : pt' = pt := hport
      rfl

/-- The normalisers write the canonical spelling, and nothing else. -/
theorem rewrites_iff {parts' : Parts} (hascii : parts.IsAscii) (hunits : parts.InUnits) :
    Rewrites parts parts' ↔ parts' = parts.spell := by
  constructor
  · rintro ⟨hsc, hhost, hport, huser, hpath, hq, hf⟩
    rw [rel_writes_iff hascii.userinfo hunits.userinfo, ← spell_userinfo] at huser
    rw [rel_writes_iff hascii.query hunits.query] at hq
    rw [rel_writes_iff hascii.fragment hunits.fragment] at hf
    rw [writes_iff_spell hascii.path hunits.path] at hpath
    have hauth := authority_ext (hhost.trans spell_host.symm) huser
      (hport.trans spell_port.symm)
    obtain ⟨sc', authority', path', q', f'⟩ := parts'
    simp only at hsc hauth hpath hq hf
    rw [hsc, hauth, hpath, hq, hf, Parts.spell]
  · rintro rfl
    refine ⟨rfl, spell_host, spell_port, ?_, ?_, ?_, ?_⟩
    · exact (rel_writes_iff hascii.userinfo hunits.userinfo).mpr spell_userinfo
    · exact (writes_iff_spell hascii.path hunits.path).mpr rfl
    · exact (rel_writes_iff hascii.query hunits.query).mpr rfl
    · exact (rel_writes_iff hascii.fragment hunits.fragment).mpr rfl

theorem Component.spell_ascii (k : Component) (w : List UInt8) : Ascii (k.spell w) :=
  k.cset_unitTable.canonical_ascii w

theorem Component.spell_spell (k : Component) (w : List UInt8) :
    k.spell (k.spell w) = k.spell w :=
  canonical_canonical k.cset_unitTable.percent w

theorem Parts.IsAscii.spell (h : parts.IsAscii) : parts.spell.IsAscii where
  scheme := h.scheme
  userinfo x hx := by
    rw [spell_userinfo] at hx
    obtain ⟨w, -, rfl⟩ := Option.map_eq_some_iff.mp hx
    exact Component.spell_ascii _ w
  host x hx := h.host x (spell_host ▸ hx)
  port x hx := h.port x (spell_port ▸ hx)
  path := Component.spell_ascii _ _
  query x hx := by
    obtain ⟨w, -, rfl⟩ := Option.map_eq_some_iff.mp hx
    exact Component.spell_ascii _ w
  fragment x hx := by
    obtain ⟨w, -, rfl⟩ := Option.map_eq_some_iff.mp hx
    exact Component.spell_ascii _ w

theorem Parts.spell_inUnits (parts : Parts) : parts.spell.InUnits where
  userinfo x hx := by
    rw [spell_userinfo] at hx
    obtain ⟨w, -, rfl⟩ := Option.map_eq_some_iff.mp hx
    exact Component.spell_mem_units _ w
  path := Component.spell_mem_units _ _
  query x hx := by
    obtain ⟨w, -, rfl⟩ := Option.map_eq_some_iff.mp hx
    exact Component.spell_mem_units _ w
  fragment x hx := by
    obtain ⟨w, -, rfl⟩ := Option.map_eq_some_iff.mp hx
    exact Component.spell_mem_units _ w

theorem Parts.spell_spell (parts : Parts) : parts.spell.spell = parts.spell := by
  obtain ⟨sc, authority, path, q, f⟩ := parts
  simp only [Parts.spell, Option.map_map, Function.comp_def, Component.spell_spell]

/-- A path in front of which an authority stands begins with its slash, also when it is
rewritten. -/
theorem firstSegment_spell {w : List UInt8} (hfirst : firstSegment w = []) :
    firstSegment (Component.path.spell w) = [] := by
  cases w with
  | nil => rfl
  | cons c w =>
      have hc : c = chr '/' := by
        by_contra hne
        rw [firstSegment, List.takeWhile_cons_of_pos (by simpa using hne)] at hfirst
        cases hfirst
      have hslash : tabled Component.path.cset (chr '/') = true := by
        rw [Component.tabled_cset]
        decide
      rw [Component.spell, hc, canonical_cons (by decide) hslash, firstSegment,
        List.takeWhile_cons_of_neg (by decide)]

/-- The rewritten components follow the rules exactly if the path stands. -/
theorem Parts.Valid.spell_iff (h : parts.Valid codeSub) :
    parts.spell.Valid codeSub ↔ parts.spell.PathStands := by
  have hunits := parts.spell_inUnits
  have hnone : parts.spell.authority = none ↔ parts.authority = none := Option.map_eq_none_iff
  have hpath : parts.spell.path ∈ pathRule codeSub parts.spell.scheme.isSome
      parts.spell.authority.isSome ↔ parts.spell.PathStands := by
    rw [mem_pathRule codeSub_separable,
      and_iff_right (show parts.spell.path ∈ units (isPathChar codeSub) from hunits.path)]
    have hrule := ((mem_pathRule codeSub_separable).mp h.path).2
    rw [Parts.PathStands, hnone]
    cases hauth : parts.authority with
    | none =>
        have hscheme : parts.spell.scheme.isSome = false ↔ parts.spell.scheme = none := by
          simp
        rw [show parts.spell.authority = none from hnone.mpr hauth]
        simp only [Option.isSome_none, Bool.false_eq_true, if_false, hscheme, forall_const]
    | some a =>
        rw [hauth] at hrule
        have hsome : parts.spell.authority.isSome = true := by
          rw [Parts.spell, hauth]
          rfl
        rw [hsome]
        simp only [Option.isSome_some, if_true] at hrule ⊢
        exact iff_of_true (firstSegment_spell hrule) (by simp)
  constructor
  · exact fun hvalid => hpath.mp hvalid.path
  · intro hstands
    refine ⟨h.scheme, ?_, hpath.mpr hstands, ?_, ?_⟩
    · intro a ha
      obtain ⟨b, hb, rfl⟩ := Option.map_eq_some_iff.mp ha
      obtain ⟨-, hhost, hport⟩ := h.authority b hb
      refine ⟨fun x hx => ?_, hhost, hport⟩
      rw [userinfo_eq]
      refine hunits.userinfo x ?_
      rw [show parts.spell.authority = _ from ha]
      exact hx
    · exact fun x hx => query_eq codeSub ▸ hunits.query x hx
    · exact fun x hx => fragment_eq codeSub ▸ hunits.fragment x hx

end Spell

/-! ## Reading the text of the results -/

/-- Characters of a path in front of a slash end no path. -/
theorem firstSegment_notMem_end {w : List UInt8} {c : UInt8} (hw : w ∈ units Component.path.chars)
    (hc : c ∈ firstSegment w) : c ∉ ascii "/?#" := by
  have hends : ∀ k ∈ ascii "?#",
      Component.path.chars k = false ∧ k ≠ chr '%' ∧ isxdigit k = false := by decide
  have hslash : c ≠ chr '/' := by simpa using List.mem_takeWhile_imp hc
  have hmem : c ∈ w := (List.takeWhile_prefix _).subset hc
  intro hend
  rcases List.mem_cons.mp (show c ∈ chr '/' :: ascii "?#" from hend) with heq | hend
  · exact hslash heq
  · exact notMem_units (hends c hend).1 (hends c hend).2 hw hmem

/-- A scheme and its colon, read in front of the rest. -/
theorem scheme_append_inj {sc sc' x y : List UInt8} (hsc : sc ∈ scheme) (hsc' : sc' ∈ scheme)
    (h : sc ++ chr ':' :: x = sc' ++ chr ':' :: y) : sc = sc' ∧ x = y := by
  have hfront : ∀ {sc x : List UInt8}, sc ∈ scheme →
      (sc ++ chr ':' :: x).takeWhile (· != chr ':') = sc := by
    intro sc x hsc
    have hpos : ∀ c ∈ sc, (c != chr ':') = true := by
      intro c hc
      rw [bne_iff_ne]
      rintro rfl
      exact absurd ((mem_scheme.mp hsc).2 _ hc) (by decide)
    rw [List.takeWhile_append_of_pos hpos, List.takeWhile_cons_of_neg (by decide),
      List.append_nil]
  have heq := congrArg (List.takeWhile (· != chr ':')) h
  rw [hfront hsc, hfront hsc'] at heq
  subst heq
  exact ⟨rfl, (List.cons.inj (List.append_cancel_left h)).2⟩

section ReadBack

variable {parts parts' : Parts}

/-- The text of components without an authority, read without one and with a scheme only where
there is one, is the text of a path that stands. -/
theorem pathStands_of_text_eq (hunits : parts.path ∈ units Component.path.chars)
    (hscheme : ∀ x ∈ parts.scheme, x ∈ Uri.scheme) (hvalid : parts'.Valid codeSub)
    (htext : parts'.text = parts.text) (hauth : parts'.authority = none)
    (hnone : parts.scheme = none → parts'.scheme = none) : parts.PathStands := by
  obtain ⟨sc, authority, path, q, f⟩ := parts
  obtain ⟨sc', authority', path', q', f'⟩ := parts'
  obtain rfl : authority' = none := hauth
  rintro rfl
  obtain ⟨-, hfirst, htwo⟩ := mem_pathRule_codeSub.mp hvalid.path
  simp only [Parts.text, authorityText, Parts.tailText, List.nil_append] at htext
  obtain ⟨rfl, htail⟩ : sc' = sc ∧
      path' ++ (behind '?' q' ++ behind '#' f') = path ++ (behind '?' q ++ behind '#' f) := by
    cases sc with
    | none =>
        obtain rfl : sc' = none := hnone rfl
        exact ⟨rfl, htext⟩
    | some sc =>
        have hsc := hscheme sc rfl
        rw [before_some, List.append_assoc, List.singleton_append] at htext
        cases sc' with
        | none =>
            have hcolon := colon_mem_firstSegment (fun c hc => scheme_notMem_end hsc hc)
              (htext.symm.trans (List.nil_append _)) (marks_startsWith q' f')
            exact absurd hcolon (hfirst rfl)
        | some sc' =>
            rw [before_some, List.append_assoc, List.singleton_append] at htext
            obtain ⟨rfl, htail⟩ := scheme_append_inj (hvalid.scheme sc' rfl) hsc htext
            exact ⟨rfl, htail⟩
  constructor
  · rintro ⟨r, rfl⟩
    exact htwo rfl (slashes_of_append htail)
  · rintro rfl hcolon
    obtain ⟨x, y, hsegment⟩ := List.append_of_mem hcolon
    have hpath : path = x ++ chr ':' :: (y ++ path.dropWhile (· != chr '/')) := by
      rw [← List.cons_append, ← List.append_assoc, ← hsegment]
      exact List.takeWhile_append_dropWhile.symm
    have hends : ∀ c ∈ x, c ∉ ascii "/?#" := by
      intro c hc
      refine firstSegment_notMem_end hunits ?_
      rw [show firstSegment path = _ from hsegment]
      exact List.mem_append_left _ hc
    have hread : x ++ chr ':' :: (y ++ path.dropWhile (· != chr '/') ++
        (behind '?' q ++ behind '#' f)) = path' ++ (behind '?' q' ++ behind '#' f') := by
      rw [htail]
      conv_rhs => rw [hpath]
      simp
    exact hfirst rfl (colon_mem_firstSegment hends hread (marks_startsWith q' f'))

theorem viewAt_eq_null {off : ℕ} {o : Option (List UInt8)} : viewAt off o = .null ↔ o = none := by
  cases o <;> simp [viewAt, StringView.null]

/-- The text of rewritten components is read back exactly if their path stands; elsewhere, where
it is accepted at all, it is read with an authority or a scheme that the components lack. -/
theorem readBack_spell (hascii : parts.IsAscii) (hvalid : parts.Valid codeSub)
    (hplain : parts.Plain) :
    (parts.spell.ReadBack parts.place.hostType ↔ parts.spell.PathStands) ∧
      (¬ parts.spell.PathStands → ∀ d, uriParseSegments (parts.spell.text ++ [0]) = .ok (0, d) →
        d.host ≠ .null ∨ parts.scheme = none ∧ d.scheme ≠ .null) := by
  have htext : Ascii parts.spell.text := ascii_text.mpr hascii.spell
  refine ⟨⟨?_, fun hstands => ?_⟩, fun hnot d hrun => ?_⟩
  · rintro ⟨d, hrun, hrec, -⟩
    obtain ⟨parts', ⟨hvalid', heq⟩, -, rfl⟩ := (uriParseSegments_eq_ok htext).mp hrun
    obtain rfl := (heq ▸ hrec).unique (place_records parts')
    exact hvalid.spell_iff.mp hvalid'
  · have hplain' : parts.spell.Plain := by
      intro a ha
      obtain ⟨b, hb, rfl⟩ := Option.map_eq_some_iff.mp ha
      exact hplain b hb
    refine ⟨_, (uriParseSegments_eq_ok htext).mpr
      ⟨_, ⟨hvalid.spell_iff.mpr hstands, rfl⟩, hplain', rfl⟩, place_records _, ?_⟩
    have hauth : parts.spell.authority = parts.authority.map fun a =>
        { a with userinfo := a.userinfo.map Component.userinfo.spell } := rfl
    simp only [Parts.place, hauth]
    cases parts.authority <;> rfl
  · obtain ⟨parts', ⟨hvalid', heq⟩, -, rfl⟩ := (uriParseSegments_eq_ok htext).mp hrun
    by_contra hsame
    rw [not_or, not_and, not_not, not_not] at hsame
    obtain ⟨hhost, hscheme⟩ := hsame
    refine hnot (pathStands_of_text_eq parts.spell_inUnits.path hvalid.scheme hvalid' heq ?_ ?_)
    · exact Option.map_eq_none_iff.mp (viewAt_eq_null.mp hhost)
    · exact fun hnone => viewAt_eq_null.mp (hscheme hnone)

end ReadBack

/-- The components of an accepted reference are rewritten in one way, and what is written is
rewritten to itself.  The text of the results is accepted and read as these components, with the
type of the host, exactly if no path comes to look like an authority or a scheme; where one does,
the text is refused, or it is read with a host or a scheme that was not there. -/
theorem uriParseSegments_rewritten {s : List UInt8} {d : UriSegments} {parts : Parts}
    (hs : Ascii s) (hrun : uriParseSegments (s ++ [0]) = .ok (0, d))
    (hrec : Records (s ++ [0]) d parts) :
    ∃ parts', (∀ p, Rewrites parts p ↔ p = parts') ∧ Rewrites parts' parts' ∧
      (parts'.ReadBack d.hostType ↔ parts'.PathStands) ∧
      (¬ parts'.PathStands → ∀ d', uriParseSegments (parts'.text ++ [0]) = .ok (0, d') →
        d.host = .null ∧ d'.host ≠ .null ∨ d.scheme = .null ∧ d'.scheme ≠ .null) := by
  obtain ⟨parts', ⟨hvalid, rfl⟩, hplain, rfl⟩ := (uriParseSegments_eq_ok hs).mp hrun
  obtain rfl := hrec.unique (place_records parts')
  have hascii := ascii_text.mp hs
  obtain ⟨hback, hother⟩ := readBack_spell hascii hvalid hplain
  refine ⟨parts.spell, fun p => rewrites_iff hascii hvalid.inUnits, ?_, hback, ?_⟩
  · exact (rewrites_iff hascii.spell parts.spell_inUnits).mpr parts.spell_spell.symm
  · intro hnot d' hrun'
    have hauth : parts.authority = none := by
      by_contra hsome
      exact hnot fun hnone => absurd (Option.map_eq_none_iff.mp hnone) hsome
    refine (hother hnot d' hrun').imp (fun hhost => ⟨?_, hhost⟩) (And.imp_left fun hnone => ?_)
    · exact viewAt_eq_null.mpr (Option.map_eq_none_iff.mpr hauth)
    · exact viewAt_eq_null.mpr hnone

/-- A path with an encoded slash behind the first one comes to look like an authority. -/
theorem uriParseSegments_rewritten_slash :
    ∃ d parts, uriParseSegments (ascii "/%2F127.0.0.1" ++ [0]) = .ok (0, d) ∧
      Records (ascii "/%2F127.0.0.1" ++ [0]) d parts ∧
      ∃ parts', (∀ p, Rewrites parts p ↔ p = parts') ∧ Rewrites parts' parts' ∧
        (parts'.ReadBack d.hostType ↔ parts'.PathStands) ∧
        (¬ parts'.PathStands → ∀ d', uriParseSegments (parts'.text ++ [0]) = .ok (0, d') →
          d.host = .null ∧ d'.host ≠ .null ∨ d.scheme = .null ∧ d'.scheme ≠ .null) := by
  let parts : Parts := { scheme := none, authority := none, path := ascii "/%2F127.0.0.1",
                         query := none, fragment := none }
  have hrun : uriParseSegments (ascii "/%2F127.0.0.1" ++ [0]) = .ok (0, parts.place) := by
    decide
  have hrec : Records (ascii "/%2F127.0.0.1" ++ [0]) parts.place parts := place_records parts
  exact ⟨_, _, hrun, hrec, uriParseSegments_rewritten (by decide) hrun hrec⟩

end Hlibc.Uri
