import Hlibc.InetOverrun
import Hlibc.Uri.Segments

/-!
# Where the parser stays inside its objects

For a string of any bytes, `uri_parse_segments` returns exactly if no byte from 128
on stands where it looks into a table, and the text between brackets does not lead
`ipv6_to_bin` out of its buffers.
-/

set_option autoImplicit false

namespace Hlibc.Uri

open Grammar Inet

/-! ## What is asked behind a character -/

section Behind

variable {w r : List UInt8} {c : UInt8} {A : Prop} {P : List UInt8 → Prop}

theorem forall_behind_iff : (∀ r', c :: r = c :: r' → P r') ↔ P r := by
  constructor
  · intro hall
    exact hall r rfl
  · intro hr r' heq
    rw [← (List.cons.inj heq).2]
    exact hr

theorem forall_behind_of_ne (hhead : w.headD 0 ≠ c) : ∀ r, w = c :: r → P r := by
  rintro r rfl
  exact absurd rfl hhead

theorem either_behind_iff :
    ((c :: r).headD 0 ≠ c → A) ∧ (∀ r', c :: r = c :: r' → P r') ↔ P r := by
  rw [forall_behind_iff, and_iff_right]
  exact fun hne => absurd rfl hne

theorem either_absent_iff (hhead : w.headD 0 ≠ c) :
    (w.headD 0 ≠ c → A) ∧ (∀ r, w = c :: r → P r) ↔ A := by
  rw [and_iff_left (forall_behind_of_ne hhead), forall_prop_of_true hhead]

end Behind

/-! ## The fragment and the query -/

/-- From the fragment on. -/
def SafeFragment (w : List UInt8) : Prop :=
  ∀ r, w = chr '#' :: r → AsciiFront (scan (startsUnit (isQueryChar codeSub)) r).2

/-- From the query on. -/
def SafeQuery (w : List UInt8) : Prop :=
  (w.headD 0 ≠ chr '?' → SafeFragment w) ∧
    ∀ r, w = chr '?' :: r → AsciiFront (scan (startsUnit (isQueryChar codeSub)) r).2 ∧
      SafeFragment (scan (startsUnit (isQueryChar codeSub)) r).2

section Tail

variable {src w : List UInt8} {pos : ℕ} {dest : UriSegments}

theorem uriEnd_returns (h : StringAt src pos w) : Exec.Returns (uriEnd src pos dest) := by
  rw [uriEnd, h.read]
  exact ⟨_, rfl⟩

theorem uriFragment_returns_iff (h : StringAt src pos w) :
    Exec.Returns (uriFragment src pos dest) ↔ SafeFragment w := by
  rw [uriFragment, h.read, Exec.ok_bind]
  by_cases hhead : w.headD 0 = chr '#'
  · obtain ⟨r, rfl⟩ := exists_cons_of_headD hhead (by decide)
    have hskip : skipWhile src isFragmentCset (pos + 1) = _ :=
      h.tail.skip_units fragmentCset_holds rfl
    have hend : ∀ dest : UriSegments, Exec.Returns (uriEnd src
        (pos + 1 + (scan (startsUnit (isQueryChar codeSub)) r).1.length) dest) := fun dest =>
      uriEnd_returns (h.tail.behind_scan (Prod.eta _).symm)
    simp only [if_pos hhead, parseFragment, hskip, bind_assoc, Exec.ok_bind, ne_eq,
      not_true_eq_false, if_false, Exec.returns_check_bind, hend, and_true]
    rw [SafeFragment, forall_behind_iff]
  · rw [if_neg hhead]
    exact iff_of_true (uriEnd_returns h) (forall_behind_of_ne hhead)

theorem uriQuery_returns_iff (h : StringAt src pos w) :
    Exec.Returns (uriQuery src pos dest) ↔ SafeQuery w := by
  rw [uriQuery, h.read, Exec.ok_bind]
  by_cases hhead : w.headD 0 = chr '?'
  · obtain ⟨r, rfl⟩ := exists_cons_of_headD hhead (by decide)
    have hskip : skipWhile src isQueryCset (pos + 1) = _ :=
      h.tail.skip_units queryCset_holds rfl
    have hrest : ∀ dest : UriSegments, Exec.Returns (uriFragment src
        (pos + 1 + (scan (startsUnit (isQueryChar codeSub)) r).1.length) dest) ↔
          SafeFragment (scan (startsUnit (isQueryChar codeSub)) r).2 := fun dest =>
      uriFragment_returns_iff (h.tail.behind_scan (Prod.eta _).symm)
    simp only [if_pos hhead, parseQuery, hskip, bind_assoc, Exec.ok_bind, ne_eq,
      not_true_eq_false, if_false, Exec.returns_check_bind, hrest]
    rw [SafeQuery, either_behind_iff]
  · rw [if_neg hhead, uriFragment_returns_iff h, SafeQuery, either_absent_iff hhead]

end Tail

/-! ## The path and the port -/

/-- From the path on. -/
def SafePath (hasScheme hasAuthority : Bool) (w : List UInt8) : Prop :=
  FirstSegmentOk hasScheme hasAuthority (scan (startsUnit (isPathChar codeSub)) w).1 →
    AsciiFront (scan (startsUnit (isPathChar codeSub)) w).2 ∧
      SafeQuery (scan (startsUnit (isPathChar codeSub)) w).2

/-- From the port on. -/
def SafePort (w : List UInt8) : Prop :=
  (w.headD 0 ≠ chr ':' → SafePath true true w) ∧
    ∀ r, w = chr ':' :: r → SafePath true true (scan (startsChar isdigit) r).2

section Path

variable {src w : List UInt8} {pos : ℕ} {dest : UriSegments}

theorem uriPath_returns_iff (h : StringAt src pos w) :
    Exec.Returns (uriPath src pos dest) ↔
      SafePath dest.scheme.str.isSome dest.host.str.isSome w := by
  have hparse := h.parsePath_eq (Prod.eta (scan (startsUnit (isPathChar codeSub)) w)).symm
    dest.scheme.str.isSome dest.host.str.isSome
  have hrest : ∀ dest : UriSegments, Exec.Returns (uriQuery src
      (pos + (scan (startsUnit (isPathChar codeSub)) w).1.length) dest) ↔
        SafeQuery (scan (startsUnit (isPathChar codeSub)) w).2 := fun dest =>
    uriQuery_returns_iff (h.behind_scan (Prod.eta _).symm)
  rw [uriPath, hparse, SafePath]
  by_cases hfirst : FirstSegmentOk dest.scheme.str.isSome dest.host.str.isSome
      (scan (startsUnit (isPathChar codeSub)) w).1
  · rw [if_pos hfirst]
    simp only [Exec.returns_check_bind, ne_eq, not_true_eq_false, if_false, hrest]
    exact ⟨fun hsafe _ => hsafe, fun hsafe => hsafe hfirst⟩
  · rw [if_neg hfirst]
    exact iff_of_true ⟨_, rfl⟩ fun hok => absurd hok hfirst

theorem uriPort_returns_iff (h : StringAt src pos w) (hhost : dest.host.str.isSome = true) :
    Exec.Returns (uriPort src pos dest) ↔ SafePort w := by
  have hpath : ∀ {pos : ℕ} {w : List UInt8} {dest : UriSegments}, StringAt src pos w →
      dest.host.str.isSome = true →
      (Exec.Returns (uriPath src pos dest) ↔ SafePath true true w) := by
    intro pos w dest h hhost
    rw [uriPath_returns_iff h, hhost]
    exact Iff.rfl
  rw [uriPort, h.read, Exec.ok_bind]
  by_cases hhead : w.headD 0 = chr ':'
  · obtain ⟨r, rfl⟩ := exists_cons_of_headD hhead (by decide)
    have hskip := h.tail.skip_digits (p := isdigit) rfl
    simp only [if_pos hhead, parsePort, hskip, Exec.ok_bind, ne_eq, not_true_eq_false, if_false]
    rw [hpath (h.tail.behind_scan (Prod.eta _).symm) (by exact hhost), SafePort,
      either_behind_iff]
  · rw [if_neg hhead, hpath h hhost, SafePort, either_absent_iff hhead]

/-- In front of a bracket nothing is read but the bracket. -/
theorem safePort_bracket (r : List UInt8) : SafePort (chr '[' :: r) := by
  have hstop : startsUnit (isPathChar codeSub) (chr '[' :: r) = false :=
    startsUnit_eq_false (startsWith_cons (chr '[') r) (by decide)
  have hhead : ∀ c : Char, chr '[' ≠ chr c → ∀ r', chr '[' :: r ≠ chr c :: r' :=
    fun c hc r' heq => hc (List.cons.inj heq).1
  refine ⟨fun _ _ => ?_, fun r' heq => absurd heq (hhead ':' (by decide) r')⟩
  rw [scan_neg hstop]
  refine ⟨(by decide : (chr '[').toNat < 128), fun _ r' heq => ?_, fun r' heq => ?_⟩
  · exact absurd heq (hhead '#' (by decide) r')
  · exact absurd heq (hhead '?' (by decide) r')

end Path

/-! ## Literals of a later version -/

/-- Inside a literal of a later version, whose text behind the bracket is `r`. -/
def SafeIpvf (r : List UInt8) : Prop :=
  ∀ d r₁ r₂, r = chr 'v' :: d :: r₁ → isxdigit d = true →
    (scan (startsChar isxdigit) r₁).2 = chr '.' :: r₂ →
      AsciiFront (scan (startsChar (isUserinfoChar codeSub)) r₂).2

section Ipvf

variable {src r w : List UInt8} {pos : ℕ}

/-- The `v` and a first digit behind the bracket are asked for. -/
theorem ipvfFront_cases (h : StringAt src pos (chr '[' :: r)) :
    (∃ d r₁, r = chr 'v' :: d :: r₁ ∧ isxdigit d = true ∧
      orElse ((· != chr '[') <$> readByte src pos) (orElse ((· != chr 'v') <$>
        readByte src (pos + 1)) ((fun c => !isxdigit c) <$> readByte src (pos + 2))) =
          .ok false) ∨
    (¬ ∃ d r₁, r = chr 'v' :: d :: r₁ ∧ isxdigit d = true) ∧
      orElse ((· != chr '[') <$> readByte src pos) (orElse ((· != chr 'v') <$>
        readByte src (pos + 1)) ((fun c => !isxdigit c) <$> readByte src (pos + 2))) =
          .ok true := by
  have hbracket : readByte src pos = .ok (chr '[') := h.read
  rw [hbracket, h.tail.read]
  by_cases hv : r.headD 0 = chr 'v'
  swap
  · right
    have hbad : (r.headD 0 != chr 'v') = true := bne_iff_ne.mpr hv
    refine ⟨?_, ?_⟩
    · rintro ⟨d, r₁, rfl, -⟩
      exact hv rfl
    · simp only [orElse, Exec.map_ok, Exec.ok_bind, bne_self_eq_false, Bool.false_eq_true,
        if_false, hbad, if_true]
  obtain ⟨r, rfl⟩ := exists_cons_of_headD hv (by decide)
  have hdigit := h.tail.tail.read
  cases r with
  | nil =>
      right
      refine ⟨by simp, ?_⟩
      rw [hdigit]
      rfl
  | cons d r =>
      rw [hdigit]
      cases hd : isxdigit d with
      | false =>
          right
          refine ⟨?_, by simp [orElse, hd]⟩
          rintro ⟨d', r₁, heq, hd'⟩
          rw [← (List.cons.inj (List.cons.inj heq).2).1, hd] at hd'
          cases hd'
      | true => exact Or.inl ⟨d, r, rfl, hd, by simp [orElse, hd]⟩

theorem ipvfText_returns_iff (h : StringAt src pos w) (start : ℕ) :
    Exec.Returns (do
      let bad ← orElse ((· != chr '.') <$> readByte src pos)
        ((fun ok => !ok) <$> isIpvfCset src (pos + 1))
      if bad then (.ok (EINVAL, start) : Exec (ℤ × ℕ)) else
      let pos ← skipWhile src isIpvfCset (pos + 2)
      let c ← readByte src pos
      if c ≠ chr ']' then .ok (EINVAL, start) else
      .ok (0, pos + 1)) ↔
      ∀ r, w = chr '.' :: r → AsciiFront (scan (startsChar (isUserinfoChar codeSub)) r).2 := by
  by_cases hdot : w.headD 0 = chr '.'
  swap
  · have hbad : (w.headD 0 != chr '.') = true := bne_iff_ne.mpr hdot
    refine iff_of_true ⟨(EINVAL, start), ?_⟩ (forall_behind_of_ne hdot)
    rw [h.read]
    simp only [orElse, Exec.map_ok, Exec.ok_bind, hbad, if_true]
  obtain ⟨r, rfl⟩ := exists_cons_of_headD hdot (by decide)
  have hcset : isIpvfCset src (pos + 1) = _ := h.tail.inCset_eq ipvfCset_holds
  rw [forall_behind_iff, h.read, hcset, List.headD_cons]
  cases hstart : startsChar (isUserinfoChar codeSub) r with
  | false =>
      have hzero : isUserinfoChar codeSub (r.headD 0) = false := by
        cases r with
        | nil => rfl
        | cons c r => exact hstart
      rw [scan_neg hstart, hzero]
      by_cases hfront : AsciiFront r
      · rw [if_pos hfront]
        exact iff_of_true ⟨(EINVAL, start), rfl⟩ hfront
      · rw [if_neg hfront]
        exact iff_of_false (Exec.not_returns_error _) hfront
  | true =>
      cases r with
      | nil => cases hstart
      | cons c r =>
          have hc : isUserinfoChar codeSub c = true := hstart
          have hascii : AsciiFront (c :: r) := ipvfCset_holds.lt hc
          have hskip : skipWhile src isIpvfCset (pos + 2) = _ :=
            h.tail.tail.skip_chars ipvfCset_holds rfl
          have hend := (h.tail.tail.behind_scan
            (Prod.eta (scan (startsChar (isUserinfoChar codeSub)) r)).symm).read
          rw [if_pos hascii, scan_cons_pos hstart, List.headD_cons, hc]
          simp only [orElse, Exec.map_ok, Exec.ok_bind, bne_self_eq_false, Bool.false_eq_true,
            if_false, Bool.not_true, hskip, Exec.returns_check_bind]
          refine and_iff_left ?_
          rw [hend, Exec.ok_bind]
          split <;> exact Exec.returns_ok _

/-- `parse_ipvf` returns if the literal is safe; it takes only texts that start with a `v`. -/
theorem parseIpvf_returns_iff (h : StringAt src pos (chr '[' :: r)) :
    Exec.Returns (parseIpvf src pos) ↔ SafeIpvf r := by
  rcases ipvfFront_cases h with ⟨d, r, rfl, hd, hfront⟩ | ⟨hnot, hfront⟩
  swap
  · refine iff_of_true ⟨(EINVAL, pos), ?_⟩ ?_
    · simp only [parseIpvf, hfront, Exec.ok_bind, if_true]
    · intro d r₁ r₂ heq hd
      exact absurd ⟨d, r₁, heq, hd⟩ hnot
  have hsafe : SafeIpvf (chr 'v' :: d :: r) ↔ ∀ r₂,
      (scan (startsChar isxdigit) r).2 = chr '.' :: r₂ →
        AsciiFront (scan (startsChar (isUserinfoChar codeSub)) r₂).2 := by
    constructor
    · intro hsafe r₂
      exact hsafe d r r₂ rfl hd
    · intro hall d' r₁ r₂ heq _
      rw [← (List.cons.inj (List.cons.inj heq).2).2]
      exact hall r₂
  have hskip : skipWhile src (fun src pos => isxdigit <$> readByte src pos) (pos + 3) = _ :=
    h.tail.tail.tail.skip_digits (p := isxdigit) (by decide)
  have hbehind := h.tail.tail.tail.behind_scan (Prod.eta (scan (startsChar isxdigit) r)).symm
  rw [hsafe, ← ipvfText_returns_iff hbehind pos, parseIpvf, hfront, Exec.ok_bind,
    if_neg (by decide), hskip, Exec.ok_bind]

end Ipvf

/-! ## The text between brackets -/

/-- Inside the text between brackets, which is `r` with its bracket: what is copied of it is
a string that `ipv6_to_bin` expands inside its object, or forty bytes that it does not read
to their end. -/
def SafeIpv6 (r : List UInt8) : Prop :=
  let h := (scan (startsChar (· != chr ']')) r).1
  (40 ≤ h.length → ¬ RunsOff (h.take 40)) ∧
    (h.length < 40 → (scan (startsChar (· != chr ']')) r).2 ≠ [] →
      ∀ gs c vs, Accepts h gs c vs → Fits c (2 * gs.length + vs.length) 16)

section Bracket

variable {src r x y : List UInt8} {pos : ℕ}

theorem copyBracketPass_full {host : List UInt8} (hfull : host.length = 40) :
    copyBracketPass src { i := host.length, pos := pos, host := host } =
      .ok (.done (some host)) := by
  simp [copyBracketPass, hfull]

theorem copyBracketPass_next {c a : UInt8} {w done junk : List UInt8}
    (h : StringAt src pos (c :: w)) (hc : c ≠ chr ']') (hroom : done.length < 40) :
    copyBracketPass src { i := done.length, pos := pos, host := done ++ a :: junk } =
      .ok (.next { i := (done ++ [c]).length, pos := pos + 1, host := done ++ [c] ++ junk }) := by
  have hzero : c ≠ 0 := by
    rintro rfl
    exact h.zero_notMem List.mem_cons_self
  simp [copyBracketPass, hroom, h.read, hzero, hc, writeByte_append rfl]

/-- What the loop that copies the text between brackets gives: forty bytes of it, or nothing
where the bracket is missing, or all of it with a null byte. -/
theorem copyBracket_loop (hstop : startsChar (· != chr ']') y = false) (rest : List UInt8) :
    ∀ (done junk : List UInt8) (pos budget : ℕ), StringAt src pos (rest ++ y) →
      (∀ c ∈ rest, (c != chr ']') = true) → (done ++ junk).length = 40 →
      done.length + budget = 41 →
      (40 ≤ (done ++ rest).length ∧
          loop (copyBracketPass src) budget { i := done.length, pos := pos, host := done ++ junk } =
            .ok (some ((done ++ rest).take 40))) ∨
        ((done ++ rest).length < 40 ∧ y = [] ∧
          loop (copyBracketPass src) budget { i := done.length, pos := pos, host := done ++ junk } =
            .ok none) ∨
        (done ++ rest).length < 40 ∧ y ≠ [] ∧ ∃ junk',
          loop (copyBracketPass src) budget { i := done.length, pos := pos, host := done ++ junk } =
            .ok (some (done ++ rest ++ 0 :: junk')) := by
  induction rest with
  | nil =>
      intro done junk pos budget h _ hlen hbudget
      rw [List.length_append] at hlen
      obtain ⟨budget, rfl⟩ : ∃ k, budget = k + 1 := ⟨budget - 1, by omega⟩
      rw [List.append_nil]
      by_cases hfull : done.length < 40
      · right
        obtain ⟨a, junk, rfl⟩ : ∃ a junk', junk = a :: junk' :=
          List.exists_cons_of_length_pos (by omega)
        have hread := h.read
        cases y with
        | nil =>
            have hpass : copyBracketPass src
                { i := done.length, pos := pos, host := done ++ a :: junk } = .ok (.done none) := by
              simp [copyBracketPass, hfull, hread]
            exact Or.inl ⟨hfull, rfl, loop_done hpass budget⟩
        | cons c y =>
            have hc : c = chr ']' := by
              simpa [startsChar] using hstop
            subst hc
            have hzero : chr ']' ≠ 0 := by decide
            have hpass : copyBracketPass src
                { i := done.length, pos := pos, host := done ++ a :: junk } =
                  .ok (.done (some (done ++ 0 :: junk))) := by
              simp [copyBracketPass, hfull, hread, hzero, writeByte_append rfl]
            exact Or.inr ⟨hfull, by simp, junk, loop_done hpass budget⟩
      · left
        obtain rfl : junk = [] := List.eq_nil_of_length_eq_zero (by omega)
        rw [List.append_nil, loop_done (copyBracketPass_full (by omega)),
          List.take_of_length_le (by omega)]
        exact ⟨Nat.not_lt.mp hfull, rfl⟩
  | cons c rest ih =>
      intro done junk pos budget h hrest hlen hbudget
      rw [List.length_append] at hlen
      obtain ⟨budget, rfl⟩ : ∃ k, budget = k + 1 := ⟨budget - 1, by omega⟩
      by_cases hfull : done.length < 40
      · obtain ⟨a, junk, rfl⟩ : ∃ a junk', junk = a :: junk' :=
          List.exists_cons_of_length_pos (by omega)
        have hc : c ≠ chr ']' := by
          simpa using hrest c List.mem_cons_self
        have hnext := ih (done ++ [c]) junk (pos + 1) budget h.tail
          (fun d hd => hrest d (List.mem_cons_of_mem c hd)) (by simp at hlen ⊢; omega)
          (by simp; omega)
        rw [loop_next (copyBracketPass_next h hc hfull), List.append_cons done c rest]
        exact hnext
      · left
        obtain rfl : junk = [] := List.eq_nil_of_length_eq_zero (by omega)
        rw [List.append_nil, loop_done (copyBracketPass_full (by omega)),
          List.take_append_of_le_length (by omega), List.take_of_length_le (by omega),
          List.length_append]
        exact ⟨by omega, rfl⟩

/-- The copy is made inside its buffer, and `ipv6_to_bin` of it returns if the text is safe. -/
theorem bracket_returns_iff (h : StringAt src pos r) :
    Exec.Returns (loop (copyBracketPass src) 41
        { i := 0, pos := pos, host := List.replicate 40 0 } >>= fun copied =>
          match copied with
          | none => (.ok (EINVAL, []) : Exec (ℤ × List UInt8))
          | some host => ipv6ToBin host (List.replicate 16 0)) ↔ SafeIpv6 r := by
  obtain ⟨⟨x, y⟩, hscan⟩ : ∃ xy, scan (startsChar (· != chr ']')) r = xy := ⟨_, rfl⟩
  obtain ⟨hchars, hstop, rfl⟩ := scan_chars_iff.mp hscan
  have hzero : 0 ∉ x := fun hmem => h.zero_notMem (List.mem_append_left y hmem)
  rw [SafeIpv6, hscan]
  rcases copyBracket_loop hstop x [] (List.replicate 40 0) pos 41 h hchars rfl rfl with
      ⟨hlong, hloop⟩ | ⟨hshort, hy, hloop⟩ | ⟨hshort, hy, junk, hloop⟩
  · rw [List.nil_append] at hlong hloop
    have hloop' : loop (copyBracketPass src) 41
        { i := 0, pos := pos, host := List.replicate 40 0 } = .ok (some (x.take 40)) := hloop
    rw [hloop', Exec.ok_bind]
    simp only
    rw [ipv6ToBin_unterminated (fun hmem => hzero (List.mem_of_mem_take hmem))
      (by rw [List.length_take]; omega) (by simp)]
    constructor
    · intro hstays
      exact ⟨fun _ => hstays, fun hshort => absurd hlong (Nat.not_le.mpr hshort)⟩
    · intro hsafe
      exact hsafe.1 hlong
  · rw [List.nil_append] at hshort
    have hloop' : loop (copyBracketPass src) 41
        { i := 0, pos := pos, host := List.replicate 40 0 } = .ok none := hloop
    rw [hloop', Exec.ok_bind]
    exact iff_of_true ⟨_, rfl⟩
      ⟨fun hlong => absurd hlong (Nat.not_le.mpr hshort), fun _ hne => absurd hy hne⟩
  · rw [List.nil_append] at hshort hloop
    have hloop' : loop (copyBracketPass src) 41
        { i := 0, pos := pos, host := List.replicate 40 0 } = .ok (some (x ++ 0 :: junk)) := hloop
    rw [hloop', Exec.ok_bind]
    simp only
    rw [Exec.Returns, ipv6ToBin_ok_iff hzero junk (by simp)]
    constructor
    · intro hfits
      exact ⟨fun hlong => absurd hlong (Nat.not_le.mpr hshort), fun _ _ => hfits⟩
    · intro hsafe
      exact hsafe.2 hshort hy

theorem safeIpv6_of_v (r : List UInt8) : SafeIpv6 (chr 'v' :: r) := by
  have hscan : scan (startsChar (· != chr ']')) (chr 'v' :: r) =
      (chr 'v' :: (scan (startsChar (· != chr ']')) r).1,
        (scan (startsChar (· != chr ']')) r).2) :=
    scan_cons_pos (by decide : (chr 'v' != chr ']') = true)
  have hnot : ∀ h : List UInt8, ¬ FrontOk (chr 'v' :: h) := by
    rintro h (⟨d, s', heq, hd⟩ | ⟨s', heq⟩)
    · rw [← (List.cons.inj heq).1] at hd
      exact absurd hd (by decide)
    · exact absurd (List.cons.inj heq).1 (by decide)
  rw [SafeIpv6, hscan]
  refine ⟨fun hlong hruns => ?_, fun _ _ gs c vs haccepts => ?_⟩
  · exact hnot _ (hruns.front (by rw [List.length_take]; omega))
  · rcases haccepts.written.front with hnil | hfront
    · cases hnil
    · exact absurd hfront (hnot _)

end Bracket

/-! ## The host -/

/-- From the host on. -/
def SafeHost (w : List UInt8) : Prop :=
  (∀ r, w = chr '[' :: r → SafeIpvf r ∧ SafeIpv6 r) ∧
    (w.headD 0 ≠ chr '[' →
      ((scan (startsChar isDigitOrDot) w).1 ∈ ipv4Address →
        SafePort (scan (startsChar isDigitOrDot) w).2) ∧
      ((scan (startsChar isDigitOrDot) w).1 ∉ ipv4Address →
        AsciiFront (scan (startsUnit (isNameChar codeSub)) w).2 ∧ SafePort w))

section Host

variable {src r w : List UInt8} {pos : ℕ} {dest : UriSegments}

theorem parseIpvf_eq_zero {p : ℕ} (h : StringAt src pos (chr '[' :: r))
    (hrun : parseIpvf src pos = .ok (0, p)) : ∃ r₁, r = chr 'v' :: r₁ := by
  rcases ipvfFront_cases h with ⟨d, r, rfl, -, -⟩ | ⟨-, hfront⟩
  · exact ⟨d :: r, rfl⟩
  · simp only [parseIpvf, hfront, Exec.ok_bind, if_true] at hrun
    exact absurd (Prod.mk.inj (Except.ok.inj hrun)).1 (by decide)

theorem parseHost_bracket_returns_iff (h : StringAt src pos (chr '[' :: r)) :
    Exec.Returns (parseHost src pos) ↔ SafeIpvf r ∧ SafeIpv6 r := by
  rw [← parseIpvf_returns_iff h]
  cases hipvf : parseIpvf src pos with
  | error e =>
      rw [parseHost, hipvf, Exec.error_bind]
      exact iff_of_false (Exec.not_returns_error e) fun hsafe => Exec.not_returns_error e hsafe.1
  | ok res =>
      obtain ⟨code, p⟩ := res
      rw [parseHost, hipvf, Exec.ok_bind, and_iff_right (Exec.returns_ok _)]
      by_cases hcode : code = 0
      · subst hcode
        obtain ⟨r, rfl⟩ := parseIpvf_eq_zero h hipvf
        exact iff_of_true ⟨_, rfl⟩ (safeIpv6_of_v r)
      · obtain rfl := parseIpvf_pos hipvf hcode
        have hbracket : readByte src p = .ok (chr '[') := h.read
        simp only [if_neg hcode, hbracket, Exec.ok_bind, if_true]
        rw [← bracket_returns_iff h.tail, Exec.returns_bind, Exec.returns_bind]
        refine exists_congr fun copied => and_congr_right fun _ => ?_
        cases copied with
        | none => exact iff_of_true ⟨_, rfl⟩ ⟨_, rfl⟩
        | some host =>
            refine Exec.returns_bind_iff fun res => ?_
            split <;> exact Exec.returns_ok _

/-- The digits and dots in front are tried inside their buffer. -/
theorem tryIpv4_cases {x y : List UInt8} (h : StringAt src pos w)
    (hscan : scan (startsChar isDigitOrDot) w = (x, y)) :
    x ∈ ipv4Address ∧
        loop (tryIpv4Pass src pos) 17 (0, List.replicate 16 0) = .ok (some x.length) ∨
      x ∉ ipv4Address ∧ loop (tryIpv4Pass src pos) 17 (0, List.replicate 16 0) = .ok none := by
  obtain ⟨hchars, hstop, rfl⟩ := scan_chars_iff.mp hscan
  have hzero : 0 ∉ x := fun hmem => absurd (hchars 0 hmem) (by decide)
  rcases tryIpv4_loop hstop x [] (List.replicate 16 0) 17 h hchars rfl rfl with
      ⟨hlong, hloop⟩ | ⟨junk, hloop⟩
  · refine Or.inr ⟨fun hx => ?_, hloop⟩
    exact absurd (ipv4Address_chars hx).2.2 (Nat.not_lt.mpr hlong)
  · rw [List.nil_append, List.nil_append] at hloop
    have hloop' : loop (tryIpv4Pass src pos) 17 (0, List.replicate 16 0) = _ := hloop
    have hroom : 0 + 4 ≤ (List.replicate 4 (0 : UInt8)).length := by decide
    obtain ⟨⟨code, dest⟩, hbin, -, -⟩ := ipv4ToBin_returns (terminated_append [] x junk) hroom
    have hmem : x ∈ ipv4Address ↔ code = 0 := by
      rw [mem_ipv4Address]
      constructor
      · rintro ⟨vs, hlen, rfl⟩
        have htaken : ipv4ToBin ([] ++ (dotted vs ++ 0 :: junk)) 0 (List.replicate 4 0) 0 =
            .ok (0, _) :=
          (ipv4ToBin_eq_ok [] (zero_notMem_dotted vs) hroom).mpr
            ⟨vs, hlen, rfl, writeBytes_of_le (by rwa [hlen])⟩
        exact (Prod.mk.inj (Except.ok.inj (hbin.symm.trans htaken))).1
      · rintro rfl
        obtain ⟨vs, hlen, hvs, -⟩ := (ipv4ToBin_eq_ok [] hzero hroom).mp hbin
        exact ⟨vs, hlen, hvs⟩
    have hbin' : ipv4ToBin (x ++ 0 :: junk) 0 (List.replicate 4 0) 0 = .ok (code, dest) := hbin
    rw [hbin', Exec.ok_bind] at hloop'
    by_cases hcode : code = 0
    · rw [if_pos hcode] at hloop'
      exact Or.inl ⟨hmem.mpr hcode, hloop'⟩
    · rw [if_neg hcode] at hloop'
      exact Or.inr ⟨mt hmem.mp hcode, hloop'⟩

theorem uriHost_returns_iff (h : StringAt src pos w) :
    Exec.Returns (uriHost src pos dest) ↔ SafeHost w := by
  by_cases hhead : w.headD 0 = chr '['
  · obtain ⟨r, rfl⟩ := exists_cons_of_headD hhead (by decide)
    have hsafe : SafeHost (chr '[' :: r) ↔ SafeIpvf r ∧ SafeIpv6 r := by
      rw [SafeHost, forall_behind_iff, and_iff_left fun hne => absurd hhead hne]
    rw [hsafe, ← parseHost_bracket_returns_iff h, uriHost]
    constructor
    · intro hreturns
      obtain ⟨res, hres, -⟩ := Exec.returns_bind.mp hreturns
      exact ⟨res, hres⟩
    · rintro ⟨⟨code, pos', type⟩, hres⟩
      rw [hres, Exec.ok_bind]
      by_cases hcode : code = 0
      · subst hcode
        obtain rfl := parseHost_bracket h hhead hres
        exact (uriPort_returns_iff h rfl).mpr (safePort_bracket r)
      · simp only [ne_eq, hcode, not_false_eq_true, if_true, Exec.returns_ok]
  · have hcode : ¬ (EINVAL : ℤ) = 0 := by decide
    have hsafe : SafeHost w ↔
        ((scan (startsChar isDigitOrDot) w).1 ∈ ipv4Address →
          SafePort (scan (startsChar isDigitOrDot) w).2) ∧
        ((scan (startsChar isDigitOrDot) w).1 ∉ ipv4Address →
          AsciiFront (scan (startsUnit (isNameChar codeSub)) w).2 ∧ SafePort w) := by
      rw [SafeHost, and_iff_right (forall_behind_of_ne hhead), forall_prop_of_true hhead]
    rw [hsafe]
    simp only [uriHost, parseHost, parseIpvf_noBracket h hhead, Exec.ok_bind, if_neg hcode, h.read,
      if_neg hhead]
    rcases tryIpv4_cases h (Prod.eta (scan (startsChar isDigitOrDot) w)).symm with
        ⟨hx, hloop⟩ | ⟨hx, hloop⟩
    · simp only [hloop, Exec.ok_bind, ne_eq, not_true_eq_false, if_false]
      rw [uriPort_returns_iff (h.behind_scan (Prod.eta _).symm) rfl]
      exact ⟨fun hport => ⟨fun _ => hport, fun hnot => absurd hx hnot⟩,
        fun hsafe => hsafe.1 hx⟩
    · have hskip : skipWhile src isNameCset pos = _ := h.skip_units nameCset_holds rfl
      have hport : ∀ dest : UriSegments, dest.host.str.isSome = true →
          (Exec.Returns (uriPort src pos dest) ↔ SafePort w) := fun dest => uriPort_returns_iff h
      simp only [hloop, Exec.ok_bind, hskip, bind_assoc, Exec.returns_check_bind, ne_eq,
        not_true_eq_false, if_false]
      rw [hport _ rfl]
      exact ⟨fun hport => ⟨fun hmem => absurd hmem hx, fun _ => hport⟩,
        fun hsafe => hsafe.2 hx⟩

end Host

/-! ## The whole text -/

/-- From the user information on. -/
def SafeAuthority (w : List UInt8) : Prop :=
  let y := (scan (startsUnit (isUserinfoChar codeSub)) w).2
  AsciiFront y ∧ (y.headD 0 ≠ chr '@' → SafeHost w) ∧ ∀ r, y = chr '@' :: r → SafeHost r

/-- Behind the scheme. -/
def SafeHier (hasScheme : Bool) (w : List UInt8) : Prop :=
  (∀ r, w = chr '/' :: chr '/' :: r → SafeAuthority r) ∧
    ((¬ ∃ r, w = chr '/' :: chr '/' :: r) → SafePath hasScheme false w)

/-- No byte from 128 on stands where the parser looks into a table, and the text between
brackets is read inside its buffers. -/
def SafeUri (s : List UInt8) : Prop :=
  let y := (scan (startsChar isSchemeChar) s).2
  (isAlpha (s.headD 0) = true → AsciiFront y) ∧
    (isAlpha (s.headD 0) = true ∧ y.headD 0 = chr ':' → SafeHier true y.tail) ∧
    (¬ (isAlpha (s.headD 0) = true ∧ y.headD 0 = chr ':') → SafeHier false s)

section Whole

variable {src w : List UInt8} {pos : ℕ} {dest : UriSegments}

theorem uriAuthority_returns_iff (h : StringAt src pos w) :
    Exec.Returns (uriAuthority src pos dest) ↔ SafeAuthority w := by
  have hbehind := h.behind_scan
    (Prod.eta (scan (startsUnit (isUserinfoChar codeSub)) w)).symm
  have hskip : skipWhile src isUserinfoCset pos = _ := h.skip_units userinfoCset_holds rfl
  have hcode : ¬ (EINVAL : ℤ) = 0 := by decide
  rw [uriAuthority, parseUserinfo, hskip, SafeAuthority]
  simp only [bind_assoc, Exec.returns_check_bind, hbehind.read, Exec.ok_bind]
  refine and_congr_right fun _ => ?_
  by_cases hhead : (scan (startsUnit (isUserinfoChar codeSub)) w).2.headD 0 = chr '@'
  · obtain ⟨r, hr⟩ := exists_cons_of_headD hhead (by decide)
    rw [hr] at hbehind hhead ⊢
    simp only [hhead, ne_eq, not_true_eq_false, if_false, Exec.ok_bind, if_true]
    rw [uriHost_returns_iff hbehind.tail]
    exact forall_behind_iff.symm.trans (and_iff_right fun hne => hne.elim).symm
  · simp only [ne_eq, hhead, not_false_eq_true, if_true, Exec.ok_bind, if_neg hcode]
    rw [uriHost_returns_iff h, true_imp_iff, and_iff_left (forall_behind_of_ne hhead)]

theorem uriHierPart_returns_iff (h : StringAt src pos w) (hhost : dest.host.str.isSome = false) :
    Exec.Returns (uriHierPart src pos dest) ↔ SafeHier dest.scheme.str.isSome w := by
  rcases slashes_cases h with ⟨⟨r, rfl⟩, hslashes⟩ | ⟨htwo, hslashes⟩
  · rw [uriHierPart, hslashes, Exec.ok_bind, if_pos rfl, uriAuthority_returns_iff h.tail.tail]
    constructor
    · intro hsafe
      refine ⟨fun r' heq => ?_, fun hnot => absurd ⟨r, rfl⟩ hnot⟩
      rw [← (List.cons.inj (List.cons.inj heq).2).2]
      exact hsafe
    · intro hsafe
      exact hsafe.1 r rfl
  · rw [uriHierPart, hslashes, Exec.ok_bind, if_neg Bool.false_ne_true, uriPath_returns_iff h,
      hhost]
    constructor
    · intro hsafe
      exact ⟨fun r heq => absurd ⟨r, heq⟩ htwo, fun _ => hsafe⟩
    · intro hsafe
      exact hsafe.2 htwo

end Whole

/-- `uri_parse_segments` of a string returns exactly if the string is safe. -/
theorem uriParseSegments_returns_iff {s : List UInt8} (hs : 0 ∉ s) :
    Exec.Returns (uriParseSegments (s ++ [0])) ↔ SafeUri s := by
  have h := StringAt.start hs
  have hbehind := h.behind_scan (Prod.eta (scan (startsChar isSchemeChar) s)).symm
  have hskip : skipWhile (s ++ [0]) isSchemeCset 0 = _ := h.skip_chars schemeCset_holds rfl
  have hcode : ¬ (EINVAL : ℤ) = 0 := by decide
  have hnone : ∀ dest : UriSegments, dest.scheme.str.isSome = false →
      dest.host.str.isSome = false →
      (Exec.Returns (uriHierPart (s ++ [0]) 0 dest) ↔ SafeHier false s) := by
    intro dest hscheme hhost
    rw [uriHierPart_returns_iff h hhost, hscheme]
  rw [uriParseSegments, parseScheme, h.read, Exec.ok_bind, hlibIsalpha_eq, SafeUri]
  cases halpha : isAlpha (s.headD 0) with
  | false =>
      simp only [Bool.not_false, if_true, Exec.ok_bind, if_neg hcode]
      rw [hnone _ rfl rfl]
      simp
  | true =>
      simp only [Bool.not_true, Bool.false_eq_true, if_false, hskip, bind_assoc,
        Exec.returns_check_bind, hbehind.read, Exec.ok_bind, true_imp_iff, true_and]
      refine and_congr_right fun _ => ?_
      by_cases hcolon : (scan (startsChar isSchemeChar) s).2.headD 0 = chr ':'
      · obtain ⟨r, hr⟩ := exists_cons_of_headD hcolon (by decide)
        rw [hr] at hbehind hcolon ⊢
        simp only [hcolon, ne_eq, not_true_eq_false, if_false, Exec.ok_bind, if_true]
        rw [uriHierPart_returns_iff hbehind.tail rfl]
        simp
      · simp only [ne_eq, hcolon, not_false_eq_true, if_true, Exec.ok_bind, if_neg hcode]
        rw [hnone _ rfl rfl]
        simp

theorem uriParseSegments_returns_iff_literal :
    Exec.Returns (uriParseSegments (ascii "http://u@[1:2::3]:80/a?b#c" ++ [0])) ↔
      SafeUri (ascii "http://u@[1:2::3]:80/a?b#c") :=
  uriParseSegments_returns_iff (by decide)

/-- The byte 128 is an index behind the table of the path. -/
theorem uriParseSegments_overruns_table : ¬ Exec.Returns (uriParseSegments ([0x80] ++ [0])) := by
  have hrun : uriParseSegments ([0x80] ++ [0]) = .error .read := by decide
  rw [hrun]
  exact Exec.not_returns_error _

/-- The address between the brackets is expanded past its sixteen bytes, and forty characters
between them leave no room for a null byte. -/
example : uriParseSegments (ascii "//[::1]" ++ [0]) = .error .write ∧
    uriParseSegments (ascii "//[1111:2222:3333:4444:5555:6666:7777::8888]" ++ [0]) =
      .error .read := by
  decide +kernel

end Hlibc.Uri
