import Hlibc.Uri.JmpHost

/-!
# What `uri_jmp.c` does with a whole text

`uri_parse_segments_jmp` reads behind the text exactly if the text ends where a host should
start, or behind its bracket; every other text it recognises by its dialect.
-/

set_option autoImplicit false

namespace Hlibc.Uri.Jmp

open Grammar

/-! ## Reading behind the text -/

section Overruns

variable {src : List UInt8} {pos : ℕ}

theorem readByte_behind (h : StringAt src pos []) : readByte src (pos + 1) = .error .read := by
  have hlen := congrArg List.length h.drop
  rw [List.length_drop, List.nil_append, List.length_singleton] at hlen
  rw [readByte, List.getElem?_eq_none (by omega)]

theorem run_host_nil (h : StringAt src pos []) (dest : UriSegments) :
    run src .host pos pos dest = .error .read := by
  have hpass : octetsPass hlibIsdigit (10 + ·) src (0, pos + 1) = .error .read := by
    simp [octetsPass, octetScan, readByte_behind h]
  have hmove : parseIpv4Move src (pos + 1) = .error .read := by
    rw [parseIpv4Move, octetsScan, loop_error hpass]
    rfl
  have hstep : step src { label := .hostIpv4, pos := pos + 1, last := pos, dest := dest } =
      .error .read := by
    simp only [step, hmove, Exec.error_bind]
  rw [run_host_character h (by decide), run_error hstep]

theorem run_host_bracket_nil (h : StringAt src pos [chr '[']) (dest : UriSegments) :
    run src .host pos pos dest = .error .read := by
  have hbracket : readByte src pos = .ok (chr '[') := h.read
  have hend : readByte src (pos + 1) = .ok 0 := h.tail.read
  have hbehind : readByte src (pos + 2) = .error .read := readByte_behind h.tail
  have hpass : segmentPass src { pos := pos + 2, count := 0, seen := false } = .error .read := by
    simp only [segmentPass, hbehind, Exec.error_bind]
  have hcolon : ¬ (0 : UInt8) = chr ':' := by decide
  have hmove : parseIpv6Move src pos = .error .read := by
    simp only [parseIpv6Move, hbracket, hend, Exec.ok_bind, ne_eq, not_true_eq_false, if_false,
      if_neg hcolon, segments, loop_error hpass, Exec.error_bind]
  have hstep : step src { label := .hostIpv6, pos := pos, last := pos, dest := dest } =
      .error .read := by
    simp only [step, hmove, Exec.error_bind]
  rw [run_host_ipv6 h (by decide), run_error hstep]

end Overruns

/-! ## The authority -/

/-- The text from the host on, behind the slashes of an authority. -/
def hostText (w : List UInt8) : List UInt8 :=
  if (scan (startsUnit (isUserinfoChar isSubDelim)) w).2.headD 0 = chr '@' then
    (scan (startsUnit (isUserinfoChar isSubDelim)) w).2.tail
  else w

/-- The text behind the slashes of an authority ends where its host should start, or behind
the bracket. -/
def OverrunsHost (w : List UInt8) : Prop :=
  (scan (startsUnit (isUserinfoChar isSubDelim)) w).2.headD 0 ≠ chr '%' ∧
    (hostText w = [] ∨ hostText w = [chr '['])

instance (w : List UInt8) : Decidable (OverrunsHost w) :=
  inferInstanceAs (Decidable (_ ∧ _))

/-- The computation reads behind the text where it should, and recognises what is read
elsewhere. -/
def Settles (overruns : Prop) (P : UriSegments → Prop) (x : Exec (ℤ × UriSegments)) : Prop :=
  overruns ∧ x = .error .read ∨ ¬ overruns ∧ Recognizes P x

theorem Settles.congr {overruns overruns' : Prop} {P P' : UriSegments → Prop}
    {x : Exec (ℤ × UriSegments)} (h : Settles overruns P x) (ho : overruns' ↔ overruns)
    (hP : ∀ d, P' d ↔ P d) : Settles overruns' P' x := by
  rcases h with ⟨hover, hx⟩ | ⟨hnot, hx⟩
  · exact Or.inl ⟨ho.mpr hover, hx⟩
  · exact Or.inr ⟨fun hover => hnot (ho.mp hover), hx.congr hP⟩

section Authority

variable {src w : List UInt8} {pos : ℕ} {dest : UriSegments}

theorem run_host_settles (h : StringAt src pos w) (hport : dest.port = .null)
    (hquery : dest.query = .null) (hfragment : dest.fragment = .null) :
    Settles (w = [] ∨ w = [chr '[']) (dialect.HostReads fragmentView pos w dest)
      (run src .host pos pos dest) := by
  by_cases hnil : w = []
  · subst hnil
    exact Or.inl ⟨Or.inl rfl, run_host_nil h dest⟩
  by_cases hbracket : w = [chr '[']
  · subst hbracket
    exact Or.inl ⟨Or.inr rfl, run_host_bracket_nil h dest⟩
  · refine Or.inr ⟨?_, run_host_recognizes h hnil hbracket hport hquery hfragment⟩
    rw [not_or]
    exact ⟨hnil, hbracket⟩

theorem run_userinfo_settles (h : StringAt src pos w) (huserinfo : dest.userinfo = .null)
    (hport : dest.port = .null) (hquery : dest.query = .null)
    (hfragment : dest.fragment = .null) :
    Settles (OverrunsHost w) (dialect.AuthorityReads fragmentView pos w dest)
      (run src .userinfo pos pos dest) := by
  obtain ⟨⟨x, y⟩, hscan⟩ : ∃ xy, scan (startsUnit (isUserinfoChar isSubDelim)) w = xy := ⟨_, rfl⟩
  have hbehind := h.behind_scan hscan
  rcases run_units .userinfo rfl h hscan pos dest with ⟨hpct, hrun⟩ | ⟨hpct, hchar, hrun⟩
  · refine Or.inr ⟨fun hover => hover.1 (by rw [hscan]; exact hpct), ?_⟩
    have hat : y.headD 0 ≠ chr '@' := by
      rw [hpct]
      decide
    rw [hrun]
    refine .reject fun d hd => ?_
    have hstop := ((Dialect.authorityReads_absent isSubDelim_separable hscan hat).mp hd).1
    rw [hpct] at hstop
    exact hstop (.tail _ (.head _))
  have hover : OverrunsHost w ↔ hostText w = [] ∨ hostText w = [chr '['] :=
    and_iff_right (by rw [hscan]; exact hpct)
  rw [hrun]
  by_cases hat : y.headD 0 = chr '@'
  · obtain ⟨r, rfl⟩ := exists_cons_of_headD hat (by decide)
    have hread : readByte src (pos + x.length) = .ok (chr '@') := hbehind.read
    have hsize : pos + x.length + 1 - pos - 1 = x.length := by omega
    have hstep : step src { label := .userinfo, pos := pos + x.length, last := pos, dest := dest } =
        .ok (.next { label := .host, pos := pos + x.length + 1, last := pos + x.length + 1,
                     dest := { dest with
                       userinfo := { str := some pos, size := x.length } } }) := by
      simp only [step, hread, Exec.ok_bind, userinfo_test, show isUserinfoChar isSubDelim
        (chr '@') = false from hchar, Bool.false_eq_true, if_false, show ¬ chr '@' = chr '%' from
        hpct, if_true, State.goto, hsize]
    have htext : hostText w = r := by
      rw [hostText, hscan, if_pos hat]
      rfl
    rw [run_next hstep]
    refine Settles.congr (run_host_settles hbehind.tail (by exact hport) (by exact hquery)
      (by exact hfragment)) (by rw [hover, htext]) fun d => ?_
    exact Dialect.authorityReads_mark isSubDelim_separable hscan List.mem_cons_self rfl
  · have hstep : step src { label := .userinfo, pos := pos + x.length, last := pos, dest := dest } =
        .ok (.next { label := .host, pos := pos, last := pos, dest := dest }) := by
      simp only [step, hbehind.read, Exec.ok_bind, userinfo_test, hchar, Bool.false_eq_true,
        if_false, if_neg hpct, if_neg hat, State.goto]
    have htext : hostText w = w := by
      rw [hostText, hscan, if_neg hat]
    have hstop : y.headD 0 ∉ dialect.userStop := by
      intro hmem
      rcases List.mem_cons.mp hmem with hmem | hmem
      · exact hat hmem
      · exact hpct (List.mem_singleton.mp hmem)
    rw [run_next hstep]
    refine (run_host_settles h hport hquery hfragment).congr (by rw [hover, htext]) fun d => ?_
    rw [Dialect.authorityReads_absent isSubDelim_separable hscan hat, and_iff_right hstop,
      ← huserinfo]

/-! ## The whole text -/

/-- The text behind the scheme and its colon, or the whole text. -/
def behindScheme (s : List UInt8) : List UInt8 :=
  if isAlpha (s.headD 0) = true ∧ (scan (startsChar isSchemeChar) s).2.headD 0 = chr ':' then
    (scan (startsChar isSchemeChar) s).2.tail
  else s

/-- In a text without a scheme, there is an authority that ends where its host should start,
or behind the bracket. -/
def OverrunsHier (w : List UInt8) : Prop :=
  w.take 2 = [chr '/', chr '/'] ∧ OverrunsHost (w.drop 2)

instance (w : List UInt8) : Decidable (OverrunsHier w) :=
  inferInstanceAs (Decidable (_ ∧ _))

/-- The parser reads behind the text. -/
def Overruns (s : List UInt8) : Prop := OverrunsHier (behindScheme s)

instance (s : List UInt8) : Decidable (Overruns s) :=
  inferInstanceAs (Decidable (OverrunsHier _))

theorem run_authority_settles (h : StringAt src pos w) (hhost : dest.host.str.isSome = false)
    (huserinfo : dest.userinfo = .null) (hport : dest.port = .null) (hquery : dest.query = .null)
    (hfragment : dest.fragment = .null) :
    Settles (OverrunsHier w) (dialect.HierReads fragmentView pos w dest)
      (run src .authority pos pos dest) := by
  rcases slashes_cases h with ⟨⟨r, rfl⟩, hslashes⟩ | ⟨htwo, hslashes⟩
  · have hstep : step src { label := .authority, pos := pos, last := pos, dest := dest } =
        .ok (.next { label := .userinfo, pos := pos + 2, last := pos + 2, dest := dest }) := by
      simp only [step, hslashes, Exec.ok_bind, if_true, State.goto]
    rw [run_next hstep]
    exact (run_userinfo_settles h.tail.tail huserinfo hport hquery hfragment).congr
      (and_iff_right rfl) fun d => Dialect.hierReads_slashes
  · have hstep : step src { label := .authority, pos := pos, last := pos, dest := dest } =
        .ok (.next { label := .path, pos := pos, last := pos, dest := dest }) := by
      simp only [step, hslashes, Exec.ok_bind, Bool.false_eq_true, if_false, State.goto]
    have hnot : ¬ OverrunsHier w := by
      rintro ⟨htake, -⟩
      refine htwo ⟨w.drop 2, ?_⟩
      rw [← List.take_append_drop 2 w, htake]
      simp
    rw [run_next hstep]
    exact Or.inr ⟨hnot, (run_path h hhost hquery hfragment htwo).congr fun d =>
      Dialect.hierReads_path htwo⟩

end Authority

/-- A letter is taken for the start of a scheme, and the machine goes on to its end. -/
theorem run_scheme {src s x y : List UInt8} (h : StringAt src 0 s)
    (halpha : isAlpha (s.headD 0) = true) (hscan : scan (startsChar isSchemeChar) s = (x, y))
    (dest : UriSegments) : run src .scheme 0 0 dest = run src .schemeLoop x.length 0 dest := by
  cases s with
  | nil => exact absurd halpha (by decide)
  | cons c s =>
      have hread : readByte src 0 = .ok c := h.read
      have hc : isAlpha c = true := halpha
      have hstart : startsChar isSchemeChar (c :: s) = true := by
        simp [startsChar, isSchemeChar, hc]
      have hstep : step src { label := .scheme, pos := 0, last := 0, dest := dest } =
          .ok (.next { label := .schemeLoop, pos := 0 + 1, last := 0, dest := dest }) := by
        simp only [step, hread, Exec.ok_bind, alpha_eq, hc, if_true, State.goto]
      rw [scan_cons_pos hstart] at hscan
      obtain ⟨rfl, -⟩ := Prod.mk.inj hscan
      rw [run_next hstep, run_chars .schemeLoop rfl h.tail (Prod.eta _).symm, List.length_cons,
        Nat.zero_add, Nat.add_comm]

/-- `uri_parse_segments_jmp` reads behind the text, or recognises its dialect. -/
theorem uriParseSegmentsJmp_settles {s : List UInt8} (hs : 0 ∉ s) :
    Settles (Overruns s) (dialect.SchemeReads fragmentView s)
      (uriParseSegmentsJmp (s ++ [0])) := by
  have h := StringAt.start hs
  obtain ⟨⟨x, y⟩, hscan⟩ : ∃ xy, scan (startsChar isSchemeChar) s = xy := ⟨_, rfl⟩
  obtain ⟨-, hstop, -⟩ := scan_chars_iff.mp hscan
  have hbehind := h.behind_scan hscan
  rw [Nat.zero_add] at hbehind
  rw [startsChar_headD (by decide)] at hstop
  change Settles _ _ (run (s ++ [0]) .scheme 0 0 .zero)
  by_cases hgood : isAlpha (s.headD 0) = true ∧ y.headD 0 = chr ':'
  · obtain ⟨halpha, hcolon⟩ := hgood
    obtain ⟨r, rfl⟩ := exists_cons_of_headD hcolon (by decide)
    have hread : readByte (s ++ [0]) x.length = .ok (chr ':') := hbehind.read
    have hstep : step (s ++ [0])
        { label := .schemeLoop, pos := x.length, last := 0, dest := .zero } =
          .ok (.next { label := .authority, pos := x.length + 1, last := x.length + 1,
                       dest := { UriSegments.zero with
                         scheme := { str := some 0, size := x.length } } }) := by
      simp only [step, hread, Exec.ok_bind, scheme_test, show isSchemeChar (chr ':') = false by
        decide, Bool.false_eq_true, if_false, if_true, State.goto]
      rfl
    have htext : behindScheme s = r := by
      rw [behindScheme, hscan, if_pos ⟨halpha, hcolon⟩]
      rfl
    rw [run_scheme h halpha hscan, run_next hstep]
    exact (run_authority_settles hbehind.tail rfl rfl rfl rfl rfl).congr
      (by rw [Overruns, htext]) fun d => Dialect.schemeReads_mark hscan halpha rfl
  · have hback : run (s ++ [0]) .scheme 0 0 .zero = run (s ++ [0]) .authority 0 0 .zero := by
      cases halpha : isAlpha (s.headD 0) with
      | false =>
          exact run_next (by
            simp only [step, h.read, Exec.ok_bind, alpha_eq, halpha, Bool.false_eq_true, if_false,
              State.goto])
      | true =>
          have hcolon : ¬ y.headD 0 = chr ':' := fun hcolon => hgood ⟨halpha, hcolon⟩
          rw [run_scheme h halpha hscan]
          exact run_next (by
            simp only [step, hbehind.read, Exec.ok_bind, scheme_test, hstop, Bool.false_eq_true,
              if_false, if_neg hcolon, State.goto])
    have htext : behindScheme s = s := by
      rw [behindScheme, hscan, if_neg hgood]
    rw [hback]
    exact (run_authority_settles h rfl rfl rfl rfl rfl).congr (by rw [Overruns, htext])
      fun d => Dialect.schemeReads_absent hscan hgood

end Hlibc.Uri.Jmp
