import Hlibc.Uri.JmpAddress
import Hlibc.Uri.JmpRuns
import Hlibc.Uri.Reference

/-!
# What `uri_jmp.c` recognises

`uri_parse_segments_jmp` recognises a dialect: the sub-delimiters are those of the standard, a
path that stands alone starts with no colon, a percent sign that encodes nothing ends what
could be user information, and the first character of a host is taken unseen.  Where there
is no such character, it reads behind the text.
-/

set_option autoImplicit false

namespace Hlibc.Uri.Jmp

open Grammar

/-! ## The dialect -/

/-- The hosts. -/
def IsHost : HostType → List UInt8 → Prop
  | .ipvf, host => IsIpvf isSubDelim host
  | .ipv6, host => ∃ t, host = chr '[' :: (t ++ [chr ']']) ∧ IsIpv6 t
  | .ipv4, host => ∃ c x, host = c :: x ∧ c ≠ chr '[' ∧ DottedFront (10 + ·) 3 x []
  | .name, host => ∃ c x, host = c :: x ∧ c ≠ chr '[' ∧ x ∈ units (isNameChar isSubDelim) ∧
      ¬ DottedFront (10 + ·) 3 x []

/-- The dialect of the parser. -/
def dialect : Dialect where
  sub := isSubDelim
  relative path := path.headD 0 ≠ chr ':'
  userStop := [chr '@', chr '%']
  host := IsHost

/-- What the parser records for a fragment: the size is counted backwards. -/
def fragmentView : Dialect.FragmentView
  | _, none => .null
  | off, some x => { str := some off, size := ptrDiff off (off + x.length + 1) }

/-! ## The fragment and the query -/

section Tail

variable {src w x y r : List UInt8} {pos last : ℕ} {dest : UriSegments}

theorem run_fragment (h : StringAt src pos w)
    (hscan : scan (startsUnit (isQueryChar isSubDelim)) w = (x, y)) :
    Recognizes (fun d => y = [] ∧ d = { dest with fragment := fragmentView pos (some x) })
      (run src .fragment pos pos dest) := by
  have hbehind := h.behind_scan hscan
  rcases run_units .fragment rfl h hscan pos dest with ⟨hpct, hrun⟩ |
    ⟨hpct, hchar, hrun⟩
  · rw [hrun]
    refine .reject ?_
    rintro d ⟨rfl, -⟩
    exact absurd hpct (by decide)
  rw [hrun]
  have hstep : step src { label := .fragment, pos := pos + x.length, last := pos, dest := dest } =
      if y.headD 0 = 0 then
        .ok (.done (0, { dest with fragment := fragmentView pos (some x) }))
      else .ok (.done (EINVAL, dest)) := by
    simp only [step, hbehind.read, Exec.ok_bind, query_test, hchar, Bool.false_eq_true, if_false,
      if_neg hpct, State.finish, State.error, fragmentView]
  by_cases hzero : y.headD 0 = 0
  · rw [if_pos hzero] at hstep
    rw [run_done hstep]
    refine .accept fun d => and_iff_right ?_
    cases y with
    | nil => rfl
    | cons c y => exact absurd (hzero ▸ List.mem_cons_self) hbehind.zero_notMem
  · rw [if_neg hzero] at hstep
    rw [run_done hstep]
    refine .reject ?_
    rintro d ⟨rfl, -⟩
    exact hzero rfl

/-- Where a fragment may stand, or the text ends. -/
theorem fragment_cases (h : StringAt src pos w) (dest : UriSegments)
    (hfragment : dest.fragment = .null) :
    (∃ r, w = chr '#' :: r ∧ Recognizes (dialect.FragmentReads fragmentView pos w dest)
      (run src .fragment (pos + 1) (pos + 1) dest)) ∨
    (w = [] ∧ Recognizes (dialect.FragmentReads fragmentView pos w dest) (.ok (0, dest))) ∨
    (w.headD 0 ≠ chr '#' ∧ w.headD 0 ≠ 0 ∧ ∀ d', Recognizes
      (dialect.FragmentReads fragmentView pos w dest) (.ok (EINVAL, d'))) := by
  by_cases hhead : w.headD 0 = chr '#'
  · obtain ⟨r, rfl⟩ := exists_cons_of_headD hhead (by decide)
    refine Or.inl ⟨r, rfl, ?_⟩
    obtain ⟨⟨x, y⟩, hscan⟩ : ∃ xy, scan (startsUnit (isQueryChar isSubDelim)) r = xy := ⟨_, rfl⟩
    exact (run_fragment h.tail hscan).congr fun d => Dialect.fragmentReads_mark hscan
  cases w with
  | nil =>
      refine Or.inr (Or.inl ⟨rfl, .accept fun d => ?_⟩)
      rw [Dialect.fragmentReads_absent hhead, and_iff_right rfl, fragmentView, ← hfragment]
  | cons c w =>
      have hzero : c ≠ 0 := by
        rintro rfl
        exact h.zero_notMem List.mem_cons_self
      refine Or.inr (Or.inr ⟨hhead, hzero, fun d' => .reject fun d hd => ?_⟩)
      rw [Dialect.fragmentReads_absent hhead] at hd
      cases hd.1

theorem run_queryEnd (h : StringAt src pos w) (hfragment : dest.fragment = .null) :
    Recognizes (dialect.FragmentReads fragmentView pos w
      { dest with query := { str := some last, size := pos - last } })
      (run src .queryEnd pos last dest) := by
  obtain ⟨dest', hdest⟩ : ∃ dest', { dest with
      query := { str := some last, size := pos - last } } = dest' := ⟨_, rfl⟩
  have hstep : step src { label := .queryEnd, pos := pos, last := last, dest := dest } =
      if w.headD 0 = chr '#' then
        .ok (.next { label := .fragment, pos := pos + 1, last := pos + 1, dest := dest' })
      else if w.headD 0 = 0 then .ok (.done (0, dest'))
      else .ok (.done (EINVAL, dest')) := by
    rw [← hdest]
    simp only [step, h.read, Exec.ok_bind, State.goto, State.finish, State.error]
  rw [hdest]
  have hnull : dest'.fragment = .null := by
    rw [← hdest]
    exact hfragment
  rcases fragment_cases h dest' hnull with ⟨r, rfl, hrest⟩ | ⟨rfl, hrest⟩ | ⟨hhash, hzero, hrest⟩
  · rw [run_next hstep]
    exact hrest
  · rw [run_done hstep]
    exact hrest
  · rw [if_neg hhash, if_neg hzero] at hstep
    rw [run_done hstep]
    exact hrest dest'

theorem run_query (h : StringAt src (pos + 1) r) (hfragment : dest.fragment = .null) :
    Recognizes (dialect.QueryReads fragmentView pos (chr '?' :: r) dest)
      (run src .query (pos + 1) (pos + 1) dest) := by
  obtain ⟨⟨x, y⟩, hscan⟩ : ∃ xy, scan (startsUnit (isQueryChar isSubDelim)) r = xy := ⟨_, rfl⟩
  have hbehind := h.behind_scan hscan
  have hreads : ∀ d, dialect.QueryReads fragmentView pos (chr '?' :: r) dest d ↔ _ := fun d =>
    Dialect.queryReads_mark isSubDelim_separable hscan
  rcases run_units .query rfl h hscan (pos + 1) dest with ⟨hpct, hrun⟩ |
    ⟨hpct, hchar, hrun⟩
  · rw [hrun]
    refine .reject fun d hd => ?_
    exact ((hreads d).mp hd).startsWith.headD_ne (by decide) (by decide) hpct
  · have hstep : step src
        { label := .query, pos := pos + 1 + x.length, last := pos + 1, dest := dest } = .ok (.next
          { label := .queryEnd, pos := pos + 1 + x.length, last := pos + 1, dest := dest }) := by
      simp only [step, hbehind.read, Exec.ok_bind, query_test, hchar, Bool.false_eq_true,
        if_false, if_neg hpct, State.goto]
    rw [hrun, run_next hstep]
    refine Recognizes.congr (run_queryEnd hbehind hfragment) fun d => ?_
    rw [hreads d, Nat.add_sub_cancel_left]

/-! ## The path -/

theorem run_pathEmpty (last : ℕ) (h : StringAt src pos w) (hquery : dest.query = .null)
    (hfragment : dest.fragment = .null) :
    Recognizes (dialect.QueryReads fragmentView pos w
      { dest with path := { str := some last, size := pos - last } })
      (run src .pathEmpty pos last dest) := by
  obtain ⟨dest', hdest⟩ : ∃ dest', { dest with
      path := { str := some last, size := pos - last } } = dest' := ⟨_, rfl⟩
  have hstep : step src { label := .pathEmpty, pos := pos, last := last, dest := dest } =
      if w.headD 0 = chr '#' then
        .ok (.next { label := .fragment, pos := pos + 1, last := pos + 1, dest := dest' })
      else if w.headD 0 = chr '?' then
        .ok (.next { label := .query, pos := pos + 1, last := pos + 1, dest := dest' })
      else if w.headD 0 = 0 then .ok (.done (0, dest'))
      else .ok (.done (EINVAL, dest')) := by
    rw [← hdest]
    simp only [step, h.read, Exec.ok_bind, State.goto, State.finish, State.error]
  rw [hdest]
  have hnull : dest'.fragment = .null := by
    rw [← hdest]
    exact hfragment
  have hsame : { dest' with query := .null } = dest' := by
    rw [← hdest, ← hquery]
  by_cases hmark : w.headD 0 = chr '?'
  · obtain ⟨r, rfl⟩ := exists_cons_of_headD hmark (by decide)
    rw [run_next hstep]
    exact run_query h.tail hnull
  have hreads : ∀ d, dialect.QueryReads fragmentView pos w dest' d ↔
      dialect.FragmentReads fragmentView pos w dest' d := by
    intro d
    rw [Dialect.queryReads_absent hmark, hsame]
  rw [if_neg hmark] at hstep
  rcases fragment_cases h dest' hnull with ⟨r, rfl, hrest⟩ | ⟨rfl, hrest⟩ | ⟨hhash, hzero, hrest⟩
  · rw [run_next hstep]
    exact hrest.congr hreads
  · rw [run_done hstep]
    exact hrest.congr hreads
  · rw [if_neg hhash, if_neg hzero] at hstep
    rw [run_done hstep]
    exact (hrest dest').congr hreads

theorem run_pathSegments (last : ℕ) (h : StringAt src pos w)
    (hscan : scan (startsUnit (isPathChar isSubDelim)) w = (x, y)) (hquery : dest.query = .null)
    (hfragment : dest.fragment = .null) :
    Recognizes (dialect.QueryReads fragmentView (pos + x.length) y
      { dest with path := { str := some last, size := pos + x.length - last } })
      (run src .pathSegments pos last dest) := by
  have hbehind := h.behind_scan hscan
  rcases run_units .pathSegments rfl h hscan last dest with ⟨hpct, hrun⟩ |
    ⟨hpct, hchar, hrun⟩
  · rw [hrun]
    exact .reject fun d hd => hd.startsWith.headD_ne (by decide) (by decide) hpct
  · have hstep : step src
        { label := .pathSegments, pos := pos + x.length, last := last, dest := dest } =
          .ok (.next {
            label := .pathEmpty, pos := pos + x.length, last := last, dest := dest }) := by
      simp only [step, hbehind.read, Exec.ok_bind, path_test, hchar, Bool.false_eq_true,
        if_false, if_neg hpct, State.goto]
    rw [hrun, run_next hstep]
    exact run_pathEmpty last hbehind hquery hfragment

theorem pathSegments_recognizes (h : StringAt src pos w) (hquery : dest.query = .null)
    (hfragment : dest.fragment = .null) (hok : ∀ x y, w = x ++ y →
      x ∈ units (isPathChar isSubDelim) → startsUnit (isPathChar isSubDelim) y = false →
      dialect.PathOk dest.scheme.str.isSome dest.host.str.isSome x) :
    Recognizes (dialect.PathReads fragmentView pos w dest)
      (run src .pathSegments pos pos dest) := by
  obtain ⟨⟨x, y⟩, hscan⟩ : ∃ xy, scan (startsUnit (isPathChar isSubDelim)) w = xy := ⟨_, rfl⟩
  obtain ⟨hunits, hstop, hw⟩ := (scan_units_iff (pathUnits_hex isSubDelim)).mp hscan
  have hrest := run_pathSegments pos h hscan hquery hfragment
  rw [Nat.add_sub_cancel_left] at hrest
  refine hrest.congr fun d => ?_
  rw [Dialect.pathReads_scan (D := dialect) isSubDelim_separable hscan,
    and_iff_right (hok x y hw hunits hstop)]

/-- No path is read, if none but the empty one may stand. -/
theorem pathEmpty_recognizes (h : StringAt src pos w) (hquery : dest.query = .null)
    (hfragment : dest.fragment = .null)
    (hok : dialect.PathOk dest.scheme.str.isSome dest.host.str.isSome [])
    (hempty : ∀ path r, w = path ++ r →
      dialect.PathOk dest.scheme.str.isSome dest.host.str.isSome path → path = []) :
    Recognizes (dialect.PathReads fragmentView pos w dest) (run src .pathEmpty pos pos dest) := by
  have hrest := run_pathEmpty pos h hquery hfragment
  rw [Nat.sub_self] at hrest
  refine hrest.congr fun d => ?_
  constructor
  · rintro ⟨path, r, hpath, hw, hd⟩
    obtain rfl := hempty path r hw hpath
    obtain rfl : w = r := hw
    exact hd
  · intro hd
    exact ⟨[], w, hok, rfl, hd⟩

theorem run_path_authority (h : StringAt src pos w) (hhost : dest.host.str.isSome = true)
    (hquery : dest.query = .null) (hfragment : dest.fragment = .null) :
    Recognizes (dialect.PathReads fragmentView pos w dest) (run src .path pos pos dest) := by
  have hstep : step src { label := .path, pos := pos, last := pos, dest := dest } =
      if w.headD 0 = chr '/' then
        .ok (.next { label := .pathSegments, pos := pos, last := pos, dest := dest })
      else .ok (.next { label := .pathEmpty, pos := pos, last := pos, dest := dest }) := by
    simp only [step, if_pos hhost, h.read, Exec.ok_bind, State.goto]
  by_cases hslash : w.headD 0 = chr '/'
  · rw [if_pos hslash] at hstep
    rw [run_next hstep]
    refine pathSegments_recognizes h hquery hfragment fun x y hw hunits hstop => ⟨hunits, ?_⟩
    rw [if_pos hhost]
    cases x with
    | nil => rfl
    | cons c x =>
        rw [hw, List.cons_append, List.headD_cons] at hslash
        simp [firstSegment, hslash]
  · rw [if_neg hslash] at hstep
    rw [run_next hstep]
    refine pathEmpty_recognizes h hquery hfragment ⟨Language.nil_mem_kstar _, ?_⟩ ?_
    · rw [if_pos hhost]
      rfl
    · rintro path r rfl ⟨-, hfirst⟩
      rw [if_pos hhost] at hfirst
      cases path with
      | nil => rfl
      | cons c path =>
          have hc : c ≠ chr '/' := hslash
          simp [firstSegment, hc] at hfirst

theorem run_path_scheme (h : StringAt src pos w) (hhost : dest.host.str.isSome = false)
    (hscheme : dest.scheme.str.isSome = true) (hquery : dest.query = .null)
    (hfragment : dest.fragment = .null) (htwo : ¬ ∃ r, w = chr '/' :: chr '/' :: r) :
    Recognizes (dialect.PathReads fragmentView pos w dest) (run src .path pos pos dest) := by
  have hslashes := (slashes_cases h).resolve_left fun hslashes => htwo hslashes.1
  have hstep : step src { label := .path, pos := pos, last := pos, dest := dest } =
      .ok (.next { label := .pathSegments, pos := pos, last := pos, dest := dest }) := by
    simp only [step, hhost, Bool.false_eq_true, if_false, hslashes.2, Exec.ok_bind, hscheme,
      if_true, State.goto]
  rw [run_next hstep]
  refine pathSegments_recognizes h hquery hfragment fun x y hw hunits hstop => ⟨hunits, ?_⟩
  rw [hhost, if_neg Bool.false_ne_true, hscheme]
  exact fun hnone => absurd hnone (by decide)

/-- Once its first unit is taken, a path that stands alone is taken whole. -/
theorem pathSegments_behind {u : List UInt8} (h : StringAt src pos (u ++ r))
    (hu : u ∈ one (isPathChar isSubDelim) + pctEncoded) (hhost : dest.host.str.isSome = false)
    (hcolon : u.headD 0 ≠ chr ':') (hquery : dest.query = .null)
    (hfragment : dest.fragment = .null) :
    Recognizes (dialect.PathReads fragmentView pos (u ++ r) dest)
      (run src .pathSegments (pos + u.length) pos dest) := by
  obtain ⟨⟨x, y⟩, hscan⟩ : ∃ xy, scan (startsUnit (isPathChar isSubDelim)) r = xy := ⟨_, rfl⟩
  have hscan' : scan (startsUnit (isPathChar isSubDelim)) (u ++ r) = (u ++ x, y) := by
    rw [scan_unit (pathUnits_hex isSubDelim) hu, hscan]
  obtain ⟨hunits, -, -⟩ := (scan_units_iff (pathUnits_hex isSubDelim)).mp hscan'
  have hok : dialect.PathOk dest.scheme.str.isSome dest.host.str.isSome (u ++ x) := by
    refine ⟨hunits, ?_⟩
    rw [hhost, if_neg Bool.false_ne_true]
    intro _
    cases u with
    | nil => exact absurd hu nil_notMem_units_one
    | cons c u => exact hcolon
  have hrest := run_pathSegments pos h.append hscan hquery hfragment
  rw [Nat.add_assoc, ← List.length_append, Nat.add_sub_cancel_left] at hrest
  refine hrest.congr fun d => ?_
  rw [Dialect.pathReads_scan (D := dialect) isSubDelim_separable hscan', and_iff_right hok]

/-- What starts a path that stands alone, other than a percent sign. -/
theorem noscheme_char {c : UInt8} (h : isNcChar isSubDelim c = true ∨ c = chr '/') :
    isPathChar isSubDelim c = true ∧ c ≠ chr ':' ∧ c ≠ chr '%' := by
  rcases h with hc | rfl
  · refine ⟨?_, ?_, ?_⟩
    · simp only [isNcChar, Bool.or_eq_true] at hc
      simp only [isPathChar, isPchar, Bool.or_eq_true]
      tauto
    · rintro rfl
      exact absurd hc (by decide)
    · rintro rfl
      exact absurd hc (by decide)
  · decide

/-- The characters of a path are such characters, or colons. -/
theorem noscheme_of_pathChar {c : UInt8} (h : isPathChar isSubDelim c = true)
    (hcolon : c ≠ chr ':') : isNcChar isSubDelim c = true ∨ c = chr '/' := by
  simp only [isPathChar, isPchar, Bool.or_eq_true, beq_iff_eq] at h
  simp only [isNcChar, Bool.or_eq_true, beq_iff_eq]
  tauto

theorem run_pathNoscheme_pct (h : StringAt src pos (chr '%' :: r))
    (hhost : dest.host.str.isSome = false) (hquery : dest.query = .null)
    (hfragment : dest.fragment = .null) :
    Recognizes (dialect.PathReads fragmentView pos (chr '%' :: r) dest)
      (run src .pathNoscheme pos pos dest) := by
  have hread : readByte src pos = .ok (chr '%') := h.read
  rw [run_pct .pathSegments h (by
    simp only [step, hread, Exec.ok_bind, noscheme_test, show isNcChar isSubDelim (chr '%') =
      false by decide, Bool.false_eq_true, if_false, if_true])]
  by_cases hpair : startsPct (chr '%' :: r) = true
  · rw [if_pos hpair]
    obtain ⟨a, b, r, heq, ha, hb⟩ := exists_of_startsPct hpair
    rw [heq] at h ⊢
    exact pathSegments_behind (u := [chr '%', a, b]) h
      (Or.inr (mem_pctEncoded.mpr ⟨a, b, rfl, ha, hb⟩)) hhost (by decide : chr '%' ≠ chr ':')
      hquery hfragment
  · rw [if_neg hpair]
    refine .reject fun d hd => ?_
    have hstop : startsUnit (isPathChar isSubDelim) (chr '%' :: r) = false := by
      rw [startsUnit, Bool.eq_false_iff.mpr hpair]
      decide
    have hreads := (Dialect.pathReads_scan (D := dialect) isSubDelim_separable
      (scan_neg hstop)).mp hd
    have hmark : (chr '%' :: r).headD 0 = chr '%' := rfl
    exact hreads.2.startsWith.headD_ne (by decide) (by decide) hmark

theorem run_pathNoscheme (h : StringAt src pos w) (hhost : dest.host.str.isSome = false)
    (hscheme : dest.scheme.str.isSome = false) (hquery : dest.query = .null)
    (hfragment : dest.fragment = .null) :
    Recognizes (dialect.PathReads fragmentView pos w dest)
      (run src .pathNoscheme pos pos dest) := by
  by_cases htaken : isNcChar isSubDelim (w.headD 0) = true ∨ w.headD 0 = chr '/'
  · obtain ⟨hchar, hcolon, hmark⟩ := noscheme_char htaken
    cases w with
    | nil => exact absurd hchar (by decide)
    | cons c r =>
        rw [List.headD_cons] at htaken hmark hchar hcolon
        have hread : readByte src pos = .ok c := h.read
        have hstep : step src { label := .pathNoscheme, pos := pos, last := pos, dest := dest } =
            .ok (.next { label := .pathSegments, pos := pos + 1, last := pos, dest := dest }) := by
          simp only [step, hread, Exec.ok_bind, noscheme_test, State.goto]
          rcases htaken with hc | hc
          · rw [if_pos hc]
          · rw [if_neg hmark, if_pos hc, ite_self]
        rw [run_next hstep]
        exact pathSegments_behind (u := [c]) h (Or.inl ⟨c, rfl, hchar⟩) hhost hcolon hquery
          hfragment
  by_cases hmark : w.headD 0 = chr '%'
  · obtain ⟨r, rfl⟩ := exists_cons_of_headD hmark (by decide)
    exact run_pathNoscheme_pct h hhost hquery hfragment
  · have hnone := htaken
    rw [not_or, Bool.not_eq_true] at hnone
    obtain ⟨hnc, hslash⟩ := hnone
    have hstep : step src { label := .pathNoscheme, pos := pos, last := pos, dest := dest } =
        .ok (.next { label := .pathEmpty, pos := pos, last := pos, dest := dest }) := by
      simp only [step, h.read, Exec.ok_bind, noscheme_test, hnc, Bool.false_eq_true, if_false,
        if_neg hmark, if_neg hslash, State.goto]
    rw [run_next hstep]
    refine pathEmpty_recognizes h hquery hfragment ⟨Language.nil_mem_kstar _, ?_⟩ ?_
    · rw [hhost, if_neg Bool.false_ne_true]
      exact fun _ => (by decide : (0 : UInt8) ≠ chr ':')
    · rintro path r rfl ⟨hunits, hfirst⟩
      rw [hhost, if_neg Bool.false_ne_true] at hfirst
      cases path with
      | nil => rfl
      | cons c path =>
          have hpath : isPathChar isSubDelim c = true := by
            rcases mem_units_cases hunits List.mem_cons_self with hc | hc | hc
            · exact hc
            · exact absurd hc hmark
            · exact pathUnits_hex isSubDelim c hc
          exact absurd (noscheme_of_pathChar hpath (hfirst hscheme)) htaken

theorem run_path_alone (h : StringAt src pos w) (hhost : dest.host.str.isSome = false)
    (hscheme : dest.scheme.str.isSome = false) (hquery : dest.query = .null)
    (hfragment : dest.fragment = .null) (htwo : ¬ ∃ r, w = chr '/' :: chr '/' :: r) :
    Recognizes (dialect.PathReads fragmentView pos w dest) (run src .path pos pos dest) := by
  have hslashes := (slashes_cases h).resolve_left fun hslashes => htwo hslashes.1
  have hstep : step src { label := .path, pos := pos, last := pos, dest := dest } =
      .ok (.next { label := .pathNoscheme, pos := pos, last := pos, dest := dest }) := by
    simp only [step, hhost, Bool.false_eq_true, if_false, hslashes.2, Exec.ok_bind, hscheme,
      State.goto]
  rw [run_next hstep]
  exact run_pathNoscheme h hhost hscheme hquery hfragment

theorem run_path (h : StringAt src pos w) (hhost : dest.host.str.isSome = false)
    (hquery : dest.query = .null) (hfragment : dest.fragment = .null)
    (htwo : ¬ ∃ r, w = chr '/' :: chr '/' :: r) :
    Recognizes (dialect.PathReads fragmentView pos w dest) (run src .path pos pos dest) := by
  cases hscheme : dest.scheme.str.isSome with
  | true => exact run_path_scheme h hhost hscheme hquery hfragment htwo
  | false => exact run_path_alone h hhost hscheme hquery hfragment htwo

/-! ## The port -/

theorem run_port (h : StringAt src (pos + 1) r) (hhost : dest.host.str.isSome = true)
    (hquery : dest.query = .null) (hfragment : dest.fragment = .null) :
    Recognizes (dialect.PortReads fragmentView pos (chr ':' :: r) dest)
      (run src .port (pos + 1) (pos + 1) dest) := by
  obtain ⟨⟨x, y⟩, hscan⟩ : ∃ xy, scan (startsChar isdigit) r = xy := ⟨_, rfl⟩
  obtain ⟨-, hstop, -⟩ := scan_chars_iff.mp hscan
  have hbehind := h.behind_scan hscan
  have hdigit : isdigit (y.headD 0) = false :=
    (startsChar_headD (by decide) y).symm.trans hstop
  have hsize : pos + 1 + x.length + 1 - (pos + 1) - 1 = x.length := by omega
  have hstep : step src
      { label := .port, pos := pos + 1 + x.length, last := pos + 1, dest := dest } =
        .ok (.next {
          label := .path, pos := pos + 1 + x.length, last := pos + 1 + x.length,
          dest := { dest with port := { str := some (pos + 1), size := x.length } } }) := by
    simp only [step, hbehind.read, Exec.ok_bind, digit_eq, hdigit, Bool.false_eq_true, if_false,
      State.goto, hsize]
  rw [run_chars .port rfl h hscan, run_next hstep]
  exact Recognizes.congr (run_path_authority hbehind (by exact hhost) (by exact hquery)
    (by exact hfragment)) fun d => Dialect.portReads_mark hhost hscan

theorem run_hostEnd (last : ℕ) (dest : UriSegments) (h : StringAt src pos w)
    (hport : dest.port = .null) (hquery : dest.query = .null)
    (hfragment : dest.fragment = .null) :
    Recognizes (dialect.PortReads fragmentView pos w
      { dest with host := { str := some last, size := pos - last } })
      (run src .hostEnd pos last dest) := by
  obtain ⟨dest', hdest⟩ : ∃ dest', { dest with
      host := { str := some last, size := pos - last } } = dest' := ⟨_, rfl⟩
  have hstep : step src { label := .hostEnd, pos := pos, last := last, dest := dest } =
      if w.headD 0 = chr ':' then
        .ok (.next { label := .port, pos := pos + 1, last := pos + 1, dest := dest' })
      else .ok (.next { label := .path, pos := pos, last := pos, dest := dest' }) := by
    rw [← hdest]
    simp only [step, h.read, Exec.ok_bind, State.goto]
  have hhost : dest'.host.str.isSome = true := by
    rw [← hdest]
    rfl
  have hnulls : dest'.port = .null ∧ dest'.query = .null ∧ dest'.fragment = .null := by
    rw [← hdest]
    exact ⟨hport, hquery, hfragment⟩
  obtain ⟨hport', hquery', hfragment'⟩ := hnulls
  rw [hdest]
  by_cases hmark : w.headD 0 = chr ':'
  · obtain ⟨r, rfl⟩ := exists_cons_of_headD hmark (by decide)
    rw [run_next hstep]
    exact run_port h.tail hhost hquery' hfragment'
  · rw [if_neg hmark] at hstep
    rw [run_next hstep]
    refine (run_path_authority h hhost hquery' hfragment').congr fun d => ?_
    rw [Dialect.portReads_absent hmark, ← hport']

end Tail

end Hlibc.Uri.Jmp
