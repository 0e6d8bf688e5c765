import Hlibc.Uri.Segments

/-!
# What the parser accepts

The texts of the components that the grammar assigns are the URI references.
The parser gives back every text that it accepts, slice by slice; and it decides
what is a reference, and with which components, unless the host is a name or a
literal, or the text holds an apostrophe or a backslash that its tables take
wrongly.
-/

set_option autoImplicit false

namespace Hlibc.Uri

open Grammar

/-! ## References -/

section References

variable {l : Language UInt8} {w : List UInt8} {sub : UInt8 → Bool} {c : Char}

theorem mem_opt_behind :
    w ∈ opt (lit [chr c] * l) ↔ ∃ o, (∀ x ∈ o, x ∈ l) ∧ w = behind c o := by
  rw [mem_opt, mem_lit_mul]
  constructor
  · rintro (rfl | ⟨r, rfl, hr⟩)
    · exact ⟨none, by simp, rfl⟩
    · refine ⟨some r, ?_, rfl⟩
      rintro _ ⟨⟩
      exact hr
  · rintro ⟨o, ho, rfl⟩
    cases o with
    | none => exact Or.inl rfl
    | some x => exact Or.inr ⟨x, rfl, ho x rfl⟩

theorem mem_opt_before :
    w ∈ opt (l * lit [chr c]) ↔ ∃ o, (∀ x ∈ o, x ∈ l) ∧ w = before c o := by
  rw [mem_opt, Language.mem_mul]
  constructor
  · rintro (rfl | ⟨x, hx, _, rfl, rfl⟩)
    · exact ⟨none, by simp, rfl⟩
    · refine ⟨some x, ?_, rfl⟩
      rintro _ ⟨⟩
      exact hx
  · rintro ⟨o, ho, rfl⟩
    cases o with
    | none => exact Or.inl rfl
    | some x => exact Or.inr ⟨x, ho x rfl, _, rfl, rfl⟩

theorem mem_authority : w ∈ authority sub ↔ ∃ a : Authority, a.Valid sub ∧ w = a.text := by
  rw [authority, mul_assoc, Language.mem_mul]
  constructor
  · rintro ⟨x, hx, _, hy, rfl⟩
    obtain ⟨u, hu, rfl⟩ := mem_opt_before.mp hx
    obtain ⟨h, hh, z, hz, rfl⟩ := Language.mem_mul.mp hy
    obtain ⟨pt, hpt, rfl⟩ := mem_opt_behind.mp hz
    exact ⟨{ userinfo := u, host := h, port := pt }, ⟨hu, hh, hpt⟩, rfl⟩
  · rintro ⟨a, ha, rfl⟩
    exact ⟨_, mem_opt_before.mpr ⟨_, ha.userinfo, rfl⟩, _, Language.append_mem_mul ha.host
      (mem_opt_behind.mpr ⟨_, ha.port, rfl⟩), rfl⟩

/-- What stands between the scheme and the query. -/
theorem mem_hierarchical (hasScheme : Bool) :
    w ∈ (if hasScheme then hierPart sub else relativePart sub) ↔
      ∃ (a : Option Authority) (path : List UInt8), (∀ x ∈ a, x.Valid sub) ∧
        path ∈ pathRule sub hasScheme a.isSome ∧ w = authorityText a ++ path := by
  have hsplit : w ∈ (if hasScheme then hierPart sub else relativePart sub) ↔
      w ∈ lit (ascii "//") * authority sub * pathAbempty sub ∨
        w ∈ pathRule sub hasScheme false := by
    cases hasScheme with
    | true =>
        change w ∈ hierPart sub ↔ _ ∨ w ∈ pathAbsolute sub + pathRootless sub + pathEmpty
        rw [hierPart, add_assoc, add_assoc, Language.mem_add, add_assoc]
    | false =>
        change w ∈ relativePart sub ↔ _ ∨ w ∈ pathAbsolute sub + pathNoscheme sub + pathEmpty
        rw [relativePart, add_assoc, add_assoc, Language.mem_add, add_assoc]
  rw [hsplit, mul_assoc, mem_lit_mul]
  constructor
  · rintro (⟨_, rfl, hr⟩ | hw)
    · obtain ⟨x, hx, path, hpath, rfl⟩ := Language.mem_mul.mp hr
      obtain ⟨a, ha, rfl⟩ := mem_authority.mp hx
      refine ⟨some a, path, ?_, hpath, rfl⟩
      rintro _ ⟨⟩
      exact ha
    · exact ⟨none, w, by simp, hw, rfl⟩
  · rintro ⟨a, path, ha, hpath, rfl⟩
    cases a with
    | none => exact Or.inr hpath
    | some a =>
        exact Or.inl ⟨a.text ++ path, rfl, Language.append_mem_mul
          (mem_authority.mpr ⟨a, ha a rfl, rfl⟩) hpath⟩

theorem mem_queryFragment : w ∈ queryFragment sub ↔ ∃ q f, (∀ x ∈ q, x ∈ query sub) ∧
    (∀ x ∈ f, x ∈ fragment sub) ∧ w = behind '?' q ++ behind '#' f := by
  rw [queryFragment, Language.mem_mul]
  constructor
  · rintro ⟨x, hx, y, hy, rfl⟩
    obtain ⟨q, hq, rfl⟩ := mem_opt_behind.mp hx
    obtain ⟨f, hf, rfl⟩ := mem_opt_behind.mp hy
    exact ⟨q, f, hq, hf, rfl⟩
  · rintro ⟨q, f, hq, hf, rfl⟩
    exact ⟨_, mem_opt_behind.mpr ⟨q, hq, rfl⟩, _, mem_opt_behind.mpr ⟨f, hf, rfl⟩, rfl⟩

/-- The URI references are the texts to which the grammar assigns components. -/
theorem mem_uriReference : w ∈ uriReference sub ↔ ∃ parts, Assigns sub parts w := by
  rw [uriReference, Language.mem_add, uri, relativeRef, mul_assoc, mul_assoc]
  constructor
  · rintro (h | h)
    · obtain ⟨sc, hsc, y, hy, rfl⟩ := Language.mem_mul.mp h
      obtain ⟨z, rfl, hz⟩ := mem_lit_mul.mp hy
      obtain ⟨x, hx, v, hv, rfl⟩ := Language.mem_mul.mp hz
      obtain ⟨a, path, ha, hpath, rfl⟩ := (mem_hierarchical true).mp hx
      obtain ⟨q, f, hq, hf, rfl⟩ := mem_queryFragment.mp hv
      refine ⟨{ scheme := some sc, authority := a, path := path, query := q, fragment := f },
        ⟨?_, ha, hpath, hq, hf⟩, by simp [Parts.text, Parts.tailText]⟩
      rintro _ ⟨⟩
      exact hsc
    · obtain ⟨x, hx, y, hy, rfl⟩ := Language.mem_mul.mp h
      obtain ⟨a, path, ha, hpath, rfl⟩ := (mem_hierarchical false).mp hx
      obtain ⟨q, f, hq, hf, rfl⟩ := mem_queryFragment.mp hy
      exact ⟨{ scheme := none, authority := a, path := path, query := q, fragment := f },
        ⟨by simp, ha, hpath, hq, hf⟩, by simp [Parts.text, Parts.tailText]⟩
  · rintro ⟨⟨sc, a, path, q, f⟩, hvalid, rfl⟩
    have hquery := mem_queryFragment.mpr ⟨q, f, hvalid.query, hvalid.fragment, rfl⟩
    cases sc with
    | some sc =>
        left
        have hhier : authorityText a ++ path ∈ hierPart sub :=
          (mem_hierarchical true).mpr ⟨a, path, hvalid.authority, hvalid.path, rfl⟩
        have hbehind : [chr ':'] ++ (authorityText a ++ path ++ (behind '?' q ++ behind '#' f)) ∈
            lit [chr ':'] * (hierPart sub * queryFragment sub) :=
          mem_lit_mul.mpr ⟨_, rfl, Language.append_mem_mul hhier hquery⟩
        have hmem := Language.append_mem_mul (hvalid.scheme sc rfl) hbehind
        simpa only [Parts.text, Parts.tailText, before_some, List.append_assoc] using hmem
    | none =>
        right
        have hhier : authorityText a ++ path ∈ relativePart sub :=
          (mem_hierarchical false).mpr ⟨a, path, hvalid.authority, hvalid.path, rfl⟩
        have hmem := Language.append_mem_mul hhier hquery
        simpa only [Parts.text, Parts.tailText, before_none, List.nil_append,
          List.append_assoc] using hmem

end References

/-! ## Round trips -/

/-- The slices written out in order, with the delimiters between them. -/
def writeOut (src : List UInt8) (d : UriSegments) : List UInt8 :=
  let slashes := match d.host.get src with
    | none => []
    | some host => chr '/' :: chr '/' ::
        (before '@' (d.userinfo.get src) ++ (host ++ behind ':' (d.port.get src)))
  before ':' (d.scheme.get src) ++ (slashes ++ ((d.path.get src).getD [] ++
    (behind '?' (d.query.get src) ++ behind '#' (d.fragment.get src))))

/-- The slices of components spell the text of the components. -/
theorem Records.writeOut {src : List UInt8} {d : UriSegments} {parts : Parts}
    (h : Records src d parts) : writeOut src d = parts.text := by
  simp only [Uri.writeOut, h.scheme, h.userinfo, h.host, h.port, h.path, h.query, h.fragment,
    Option.getD_some]
  obtain ⟨sc, a, path, q, f⟩ := parts
  cases a <;> rfl

/-- What is accepted is the text of valid components with a plain host. -/
theorem exists_parts {s : List UInt8} {d : UriSegments} (hs : Ascii s)
    (hrun : uriParseSegments (s ++ [0]) = .ok (0, d)) :
    ∃ parts, parts.Valid codeSub ∧ parts.Plain ∧ parts.text = s ∧
      Records (s ++ [0]) d parts := by
  obtain ⟨parts, ⟨hvalid, rfl⟩, hplain, rfl⟩ := (uriParseSegments_eq_ok hs).mp hrun
  exact ⟨parts, hvalid, hplain, rfl, place_records parts⟩

/-- The slices of an accepted text spell the text, and no percent-encoded character is cut
by a slice. -/
theorem uriParseSegments_roundTrip {s : List UInt8} {d : UriSegments} (hs : Ascii s)
    (hrun : uriParseSegments (s ++ [0]) = .ok (0, d)) :
    writeOut (s ++ [0]) d = s ∧
      ∀ v ∈ [d.userinfo, d.path, d.query, d.fragment], ∀ x ∈ v.get (s ++ [0]),
        PctComplete x := by
  obtain ⟨parts, hvalid, -, htext, hrec⟩ := exists_parts hs hrun
  refine ⟨hrec.writeOut.trans htext, ?_⟩
  intro v hv x hx
  simp only [List.mem_cons, List.not_mem_nil, or_false] at hv
  rcases hv with rfl | rfl | rfl | rfl
  · rw [hrec.userinfo] at hx
    obtain ⟨a, ha, hx⟩ := Option.bind_eq_some_iff.mp hx
    have hmem := (hvalid.authority a ha).userinfo x hx
    rw [userinfo_eq] at hmem
    exact units_pctComplete (by decide) hmem
  · rw [hrec.path] at hx
    obtain rfl := Option.some.inj hx
    exact units_pctComplete (by decide) ((mem_pathRule codeSub_separable).mp hvalid.path).1
  · rw [hrec.query] at hx
    have hmem := hvalid.query x hx
    rw [query_eq] at hmem
    exact units_pctComplete (by decide) hmem
  · rw [hrec.fragment] at hx
    have hmem := hvalid.fragment x hx
    rw [fragment_eq] at hmem
    exact units_pctComplete (by decide) hmem

/-- A reference with every component comes back. -/
theorem uriParseSegments_roundTrip_full :
    ∃ d, writeOut (ascii "x://u%20@127.0.0.1:80/a%41?q#f" ++ [0]) d =
        ascii "x://u%20@127.0.0.1:80/a%41?q#f" ∧
      ∀ v ∈ [d.userinfo, d.path, d.query, d.fragment],
        ∀ x ∈ v.get (ascii "x://u%20@127.0.0.1:80/a%41?q#f" ++ [0]), PctComplete x := by
  have hcode : Prod.fst <$> uriParseSegments (ascii "x://u%20@127.0.0.1:80/a%41?q#f" ++ [0]) =
      .ok 0 := by
    decide
  cases hrun : uriParseSegments (ascii "x://u%20@127.0.0.1:80/a%41?q#f" ++ [0]) with
  | error e =>
      rw [hrun] at hcode
      cases hcode
  | ok res =>
      obtain ⟨code, d⟩ := res
      rw [hrun] at hcode
      obtain rfl : code = 0 := Except.ok.inj hcode
      exact ⟨d, uriParseSegments_roundTrip (by decide) hrun⟩

/-! ## Deciding references -/

/-- The alternative of the rule for hosts that matches a whole host: the first one. -/
def HostMatches (sub : UInt8 → Bool) (type : HostType) (w : List UInt8) : Prop :=
  match type with
  | .ipvf => w ∈ ipvFutureLiteral sub
  | .ipv6 => w ∈ ipv6Literal
  | .ipv4 => w ∈ ipv4Address
  | .name => w ∈ regName sub ∧ w ∉ ipv4Address

/-- The parser returns 0 exactly if the text is a URI reference, and then it records the
components that the grammar assigns and the type of the host. -/
def Decides (s : List UInt8) : Prop :=
  ((∃ d, uriParseSegments (s ++ [0]) = .ok (0, d)) ↔ s ∈ uriReference isSubDelim) ∧
    ∀ d parts, uriParseSegments (s ++ [0]) = .ok (0, d) → Assigns isSubDelim parts s →
      Records (s ++ [0]) d parts ∧
        ∀ a ∈ parts.authority, HostMatches isSubDelim d.hostType a.host

/-- The sub-delimiters with the backslash among them. -/
def isSubDelimOrBackslash (c : UInt8) : Bool := isSubDelim c || c == chr '\\'

/-- The texts on which host and tables do no harm: a reference has no host, an empty one or
an IPv4 address, and no apostrophe; and a text that only the backslash keeps from being
such a reference holds an apostrophe, too. -/
structure Supported (s : List UInt8) : Prop where
  reference : ∀ parts, Assigns isSubDelim parts s → parts.Plain ∧ chr '\'' ∉ s
  other : s ∉ uriReference isSubDelim → ∀ parts, Assigns isSubDelimOrBackslash parts s →
    parts.Plain → chr '\'' ∈ s

theorem isSubDelim_separable : Separable isSubDelim := by
  rw [Separable]
  decide

theorem isSubDelimOrBackslash_separable : Separable isSubDelimOrBackslash := by
  rw [Separable]
  decide

/-- A class of characters grows with the sub-delimiters. -/
theorem isPchar_of_sub {sub sub' : UInt8 → Bool} {c : UInt8}
    (hle : sub c = true → sub' c = true) (h : isPchar sub c = true) : isPchar sub' c = true := by
  simp only [isPchar, Bool.or_eq_true] at h ⊢
  exact h.imp_left (Or.imp_left (Or.imp_right hle))

/-- Components of a text without `k` stay valid when the sub-delimiters other than `k`
remain. -/
theorem Parts.Valid.transfer {sub sub' : UInt8 → Bool} {parts : Parts} {k : UInt8}
    (hvalid : parts.Valid sub) (hplain : parts.Plain) (hsub : Separable sub)
    (hsub' : Separable sub') (hle : ∀ c, sub c = true → c ≠ k → sub' c = true)
    (hk : k ∉ parts.text) : parts.Valid sub' := by
  obtain ⟨sc, authority, path, q, f⟩ := parts
  simp only [Parts.text, Parts.tailText, List.mem_append, not_or] at hk
  obtain ⟨-, hkauth, hkpath, hkq, hkf⟩ := hk
  have hpchar : ∀ c, isPchar sub c = true → c ≠ k → isPchar sub' c = true := fun c hc hne =>
    isPchar_of_sub (fun h => hle c h hne) hc
  have hquery : ∀ c, isQueryChar sub c = true → c ≠ k → isQueryChar sub' c = true := by
    intro c hc hne
    simp only [isQueryChar, Bool.or_eq_true] at hc ⊢
    exact hc.imp_left (Or.imp_left fun h => hpchar c h hne)
  refine ⟨hvalid.scheme, ?_, ?_, ?_, ?_⟩
  · rintro ⟨u, host, pt⟩ ha
    obtain ⟨hu, -, hpt⟩ := hvalid.authority _ ha
    obtain rfl : authority = some ⟨u, host, pt⟩ := ha
    refine ⟨?_, (hplain _ rfl).mem_host sub', hpt⟩
    rintro x ⟨⟩
    have hx := hu x rfl
    have hkx : k ∉ x := fun h => hkauth (by simp [authorityText, Authority.text, h])
    rw [userinfo_eq] at hx ⊢
    refine units_restrict (fun c hc hne => ?_) hx hkx
    simp only [isUserinfoChar, Bool.or_eq_true] at hc ⊢
    exact hc.imp_left (Or.imp_right fun h => hle c h hne)
  · obtain ⟨hunits, hfirst⟩ := (mem_pathRule hsub).mp hvalid.path
    refine (mem_pathRule hsub').mpr ⟨units_restrict (fun c hc hne => ?_) hunits hkpath, hfirst⟩
    simp only [isPathChar, Bool.or_eq_true] at hc ⊢
    exact hc.imp_left fun h => hpchar c h hne
  · rintro x ⟨⟩
    have hx := hvalid.query x rfl
    rw [query_eq] at hx ⊢
    exact units_restrict hquery hx fun h => hkq (by simp [h])
  · rintro x ⟨⟩
    have hx := hvalid.fragment x rfl
    rw [fragment_eq] at hx ⊢
    exact units_restrict hquery hx fun h => hkf (by simp [h])

/-- The text of components with a plain host holds no apostrophe, if that is no
sub-delimiter. -/
theorem apostrophe_notMem_text {sub : UInt8 → Bool} {parts : Parts} (hvalid : parts.Valid sub)
    (hplain : parts.Plain) (hsub : Separable sub) (hnot : sub (chr '\'') = false) :
    chr '\'' ∉ parts.text := by
  have hunits : ∀ {p : UInt8 → Bool} {x : List UInt8}, p (chr '\'') = false → x ∈ units p →
      chr '\'' ∉ x := fun hp hx => notMem_units hp (by decide) hx
  have huserinfo : isUserinfoChar sub (chr '\'') = false := by
    rw [isUserinfoChar, hnot]
    decide
  have hpchar : isPchar sub (chr '\'') = false := by
    rw [isPchar, hnot]
    decide
  have hpath : isPathChar sub (chr '\'') = false := by
    rw [isPathChar, hpchar]
    decide
  have hquery : isQueryChar sub (chr '\'') = false := by
    rw [isQueryChar, hpchar]
    decide
  have hscheme : ∀ x ∈ parts.scheme, chr '\'' ∉ x := fun x hx hmem =>
    absurd ((mem_scheme.mp (hvalid.scheme x hx)).2 _ hmem) (by decide)
  have hauthority : chr '\'' ∉ authorityText parts.authority := by
    cases hauth : parts.authority with
    | none => exact List.not_mem_nil
    | some a =>
        obtain ⟨hu, -, hport⟩ := hvalid.authority a hauth
        simp only [authorityText, Authority.text, List.mem_cons, List.mem_append, not_or]
        refine ⟨by decide, by decide, notMem_before (fun x hx => ?_) (by decide), ?_,
          notMem_behind (fun x hx hmem => ?_) (by decide)⟩
        · exact hunits huserinfo (userinfo_eq sub ▸ hu x hx)
        · rcases hplain a hauth with hempty | hhost
          · rw [hempty]
            exact List.not_mem_nil
          · exact fun hmem => absurd ((ipv4Address_chars hhost).1 _ hmem) (by decide)
        · exact absurd (mem_kstar_one.mp (hport x hx) _ hmem) (by decide)
  simp only [Parts.text, Parts.tailText, List.mem_append, not_or]
  exact ⟨notMem_before hscheme (by decide), hauthority,
    hunits hpath ((mem_pathRule hsub).mp hvalid.path).1,
    notMem_behind (fun x hx => hunits hquery (query_eq sub ▸ hvalid.query x hx)) (by decide),
    notMem_behind (fun x hx => hunits hquery (fragment_eq sub ▸ hvalid.fragment x hx)) (by decide)⟩

/-- The parser accepts exactly the texts of components with a plain host that follow the
rules with the backslash, and hold no apostrophe. -/
theorem uriParseSegments_eq_ok_backslash {s : List UInt8} {d : UriSegments} (hs : Ascii s) :
    uriParseSegments (s ++ [0]) = .ok (0, d) ↔
      ∃ parts, Assigns isSubDelimOrBackslash parts s ∧ chr '\'' ∉ s ∧ parts.Plain ∧
        d = parts.place := by
  have hzero : (0 : UInt8) ∉ s := fun h => (hs 0 h).1 rfl
  rw [uriParseSegments_eq_ok hs]
  refine exists_congr fun parts => ?_
  constructor
  · rintro ⟨⟨hvalid, rfl⟩, hplain, hd⟩
    have hle : ∀ c, codeSub c = true → c ≠ 0 → isSubDelimOrBackslash c = true := by
      intro c hc _
      simp only [codeSub, Bool.or_eq_true, Bool.and_eq_true] at hc
      simp only [isSubDelimOrBackslash, Bool.or_eq_true]
      exact hc.imp_left And.left
    exact ⟨⟨hvalid.transfer hplain codeSub_separable isSubDelimOrBackslash_separable hle hzero,
      rfl⟩, apostrophe_notMem_text hvalid hplain codeSub_separable (by decide), hplain, hd⟩
  · rintro ⟨⟨hvalid, rfl⟩, hmark, hplain, hd⟩
    have hle : ∀ c, isSubDelimOrBackslash c = true → c ≠ chr '\'' → codeSub c = true := by
      intro c hc hne
      simp only [isSubDelimOrBackslash, Bool.or_eq_true] at hc
      simp only [codeSub, Bool.or_eq_true, Bool.and_eq_true]
      exact hc.imp_left fun h => ⟨h, bne_iff_ne.mpr hne⟩
    exact ⟨⟨hvalid.transfer hplain isSubDelimOrBackslash_separable codeSub_separable hle hmark,
      rfl⟩, hplain, hd⟩

/-- Components of a reference are components with the backslash, too. -/
theorem Assigns.backslash {s : List UInt8} {parts : Parts} (hs : Ascii s) (hplain : parts.Plain)
    (h : Assigns isSubDelim parts s) : Assigns isSubDelimOrBackslash parts s := by
  obtain ⟨hvalid, rfl⟩ := h
  have hle : ∀ c, isSubDelim c = true → c ≠ 0 → isSubDelimOrBackslash c = true := fun c hc _ => by
    rw [isSubDelimOrBackslash, hc, Bool.true_or]
  exact ⟨hvalid.transfer hplain isSubDelim_separable isSubDelimOrBackslash_separable hle
    fun h => (hs 0 h).1 rfl, rfl⟩

/-- The type that the parser gives to a plain host is the alternative that matches it. -/
theorem hostMatches_plainType {sub : UInt8 → Bool} {w : List UInt8} (hw : PlainHost w) :
    HostMatches sub (plainType w) w := by
  cases w with
  | nil =>
      refine ⟨Language.nil_mem_kstar _, fun h => ?_⟩
      exact (ipv4Address_chars h).2.1 rfl
  | cons c w =>
      rcases hw with hw | hw
      · cases hw
      · exact hw

/-- The parser decides exactly the supported texts. -/
theorem uriParseSegments_decides_iff {s : List UInt8} (hs : Ascii s) :
    Decides s ↔ Supported s := by
  constructor
  · rintro ⟨hiff, hcomponents⟩
    refine ⟨fun parts hparts => ?_, fun hnot parts hparts hplain => ?_⟩
    · obtain ⟨d, hrun⟩ := hiff.mpr (mem_uriReference.mpr ⟨parts, hparts⟩)
      obtain ⟨hrec, -⟩ := hcomponents d parts hrun hparts
      obtain ⟨parts', ⟨-, rfl⟩, hmark, hplain, rfl⟩ :=
        (uriParseSegments_eq_ok_backslash hs).mp hrun
      obtain rfl := hrec.unique (place_records parts')
      exact ⟨hplain, hmark⟩
    · by_contra hmark
      have hrun := (uriParseSegments_eq_ok_backslash hs).mpr ⟨parts, hparts, hmark, hplain, rfl⟩
      exact hnot (hiff.mp ⟨_, hrun⟩)
  · rintro ⟨hreference, hother⟩
    have haccept : ∀ parts, Assigns isSubDelim parts s →
        uriParseSegments (s ++ [0]) = .ok (0, parts.place) := by
      intro parts hparts
      obtain ⟨hplain, hmark⟩ := hreference parts hparts
      exact (uriParseSegments_eq_ok_backslash hs).mpr
        ⟨parts, hparts.backslash hs hplain, hmark, hplain, rfl⟩
    refine ⟨⟨?_, ?_⟩, ?_⟩
    · rintro ⟨d, hrun⟩
      obtain ⟨parts, hparts, hmark, hplain, -⟩ := (uriParseSegments_eq_ok_backslash hs).mp hrun
      by_contra hnot
      exact hmark (hother hnot parts hparts hplain)
    · intro hmem
      obtain ⟨parts, hparts⟩ := mem_uriReference.mp hmem
      exact ⟨_, haccept parts hparts⟩
    · intro d parts hrun hparts
      obtain rfl : d = parts.place :=
        (Prod.mk.inj (Except.ok.inj (hrun.symm.trans (haccept parts hparts)))).2
      obtain ⟨hplain, -⟩ := hreference parts hparts
      refine ⟨?_, fun a ha => ?_⟩
      · rw [← hparts.2]
        exact place_records parts
      · have htype : parts.place.hostType = plainType a.host := by
          rw [Parts.place, show parts.authority = some a from ha]
          rfl
        rw [htype]
        exact hostMatches_plainType (hplain a ha)

/-- A reference to an address is decided. -/
theorem uriParseSegments_decides_address :
    Decides (ascii "http://127.0.0.1/") ↔ Supported (ascii "http://127.0.0.1/") :=
  uriParseSegments_decides_iff (by decide)

/-- A reference with a name for its host is not accepted. -/
theorem uriParseSegments_rejects_name : ¬ Decides (ascii "http://localhost/") := by
  intro h
  have hcode : Prod.fst <$> uriParseSegments (ascii "http://localhost/" ++ [0]) = .ok EINVAL := by
    decide
  have hmem : ascii "http://localhost/" ∈ uriReference isSubDelim := by
    refine mem_uriReference.mpr ⟨{
      scheme := some (ascii "http")
      authority := some { userinfo := none, host := ascii "localhost", port := none }
      path := ascii "/"
      query := none
      fragment := none }, ⟨?_, ?_, ?_, by simp, by simp⟩, by decide⟩
    · rintro _ ⟨⟩
      exact mem_scheme.mpr (by decide)
    · rintro _ ⟨⟩
      refine ⟨by simp, Or.inr ?_, by simp⟩
      rw [regName_eq]
      exact mem_units_of_forall (by decide)
    · exact (mem_pathRule isSubDelim_separable).mpr ⟨mem_units_of_forall (by decide), rfl⟩
  obtain ⟨d, hrun⟩ := h.1.mpr hmem
  rw [hrun] at hcode
  have hzero : (0 : ℤ) = EINVAL := Except.ok.inj hcode
  exact absurd hzero (by decide)

end Hlibc.Uri
