import Hlibc.Uri.JmpRules

/-!
# The host in `uri_jmp.c`

The machine takes the first character of a host before it looks for an address, and two of
them before it looks for the groups of one; so it reads behind a text that ends there.
Everywhere else it recognises the hosts of its dialect.
-/

set_option autoImplicit false

namespace Hlibc.Uri.Jmp

open Grammar

section Host

variable {src w host r : List UInt8} {pos : ℕ} {c : UInt8} {dest : UriSegments}
  {type : HostType}

/-! ## Jumps to the host -/

theorem run_host_bracket (h : StringAt src pos (chr '[' :: w)) (dest : UriSegments) :
    run src .host pos pos dest = run src .hostIpvf (pos + 1) pos dest := by
  have hread : readByte src pos = .ok (chr '[') := h.read
  exact run_next (by simp only [step, hread, Exec.ok_bind, if_true, State.goto])

theorem run_host_character (h : StringAt src pos w) (hbracket : w.headD 0 ≠ chr '[')
    (dest : UriSegments) :
    run src .host pos pos dest = run src .hostIpv4 (pos + 1) pos dest :=
  run_next (by simp only [step, h.read, Exec.ok_bind, if_neg hbracket, State.goto])

theorem run_hostIpvf_v (h : StringAt src (pos + 1) (chr 'v' :: w)) (dest : UriSegments) :
    run src .hostIpvf (pos + 1) pos dest = run src .hostIpvfHex (pos + 2) pos dest := by
  have hread : readByte src (pos + 1) = .ok (chr 'v') := h.read
  exact run_next (by simp only [step, hread, Exec.ok_bind, if_true, State.goto])

theorem run_hostIpvf_other (h : StringAt src (pos + 1) w) (hv : w.headD 0 ≠ chr 'v')
    (dest : UriSegments) :
    run src .hostIpvf (pos + 1) pos dest = run src .hostIpv6 pos pos dest :=
  run_next (by simp only [step, h.read, Exec.ok_bind, if_neg hv, State.goto])

/-! ## Literals of a later version -/

/-- A literal of a later version is taken up to its bracket. -/
theorem run_ipvf (h : StringAt src pos (host ++ r)) (hhost : IsIpvf isSubDelim host)
    (dest : UriSegments) :
    run src .host pos pos dest =
      run src .hostEnd (pos + host.length) pos { dest with hostType := .ipvf } := by
  obtain ⟨x, y, hx, hdigits, hy, hchars, rfl⟩ := hhost
  obtain ⟨d, x, rfl⟩ := List.exists_cons_of_ne_nil hx
  obtain ⟨a, y, rfl⟩ := List.exists_cons_of_ne_nil hy
  have hshape : chr '[' :: chr 'v' :: (d :: x ++ chr '.' :: (a :: y ++ [chr ']'])) ++ r =
      chr '[' :: chr 'v' :: d :: (x ++ chr '.' :: a :: (y ++ chr ']' :: r)) := by simp
  rw [hshape] at h
  have hscan : scan (startsChar isxdigit) (x ++ chr '.' :: a :: (y ++ chr ']' :: r)) =
      (x, chr '.' :: a :: (y ++ chr ']' :: r)) :=
    scan_chars_iff.mpr ⟨fun b hb => hdigits b (List.mem_cons_of_mem d hb), rfl, rfl⟩
  have hscan' : scan (startsChar (isUserinfoChar isSubDelim)) (y ++ chr ']' :: r) =
      (y, chr ']' :: r) :=
    scan_chars_iff.mpr ⟨fun b hb => hchars b (List.mem_cons_of_mem a hb),
      (by decide : isUserinfoChar isSubDelim (chr ']') = false), rfl⟩
  have hfirst : readByte src (pos + 2) = .ok d := h.tail.tail.read
  have hdot := h.tail.tail.tail.behind_scan hscan
  have hreaddot : readByte src (pos + 1 + 1 + 1 + x.length) = .ok (chr '.') := hdot.read
  have hreadchar : readByte src (pos + 1 + 1 + 1 + x.length + 1) = .ok a := hdot.tail.read
  have hbracket := hdot.tail.tail.behind_scan hscan'
  have hreadend : readByte src (pos + 1 + 1 + 1 + x.length + 1 + 1 + y.length) =
      .ok (chr ']') := hbracket.read
  have hhex : run src .hostIpvfHex (pos + 2) pos dest =
      run src .hostIpvfHexLoop (pos + 1 + 1 + 1) pos dest :=
    run_next (by
      simp only [step, hfirst, Exec.ok_bind, hexdigit_eq, hdigits d List.mem_cons_self, if_true,
        State.goto])
  have hloop : run src .hostIpvfHexLoop (pos + 1 + 1 + 1 + x.length) pos dest =
      run src .hostIpvfTail (pos + 1 + 1 + 1 + x.length + 1) pos dest :=
    run_next (by
      simp only [step, hreaddot, Exec.ok_bind, hexdigit_eq, show isxdigit (chr '.') = false by
        decide, Bool.false_eq_true, if_false, if_true, State.goto])
  have htail : run src .hostIpvfTail (pos + 1 + 1 + 1 + x.length + 1) pos dest =
      run src .hostIpvfTailLoop (pos + 1 + 1 + 1 + x.length + 1 + 1) pos dest :=
    run_next (by
      simp only [step, hreadchar, Exec.ok_bind, userinfo_test, hchars a List.mem_cons_self,
        if_true, State.goto])
  have hend : run src .hostIpvfTailLoop (pos + 1 + 1 + 1 + x.length + 1 + 1 + y.length) pos
      dest = run src .hostEnd (pos + 1 + 1 + 1 + x.length + 1 + 1 + y.length + 1) pos
        { dest with hostType := .ipvf } :=
    run_next (by
      simp only [step, hreadend, Exec.ok_bind, userinfo_test, show isUserinfoChar isSubDelim
        (chr ']') = false by decide, Bool.false_eq_true, if_false, if_true, State.goto])
  rw [run_host_bracket h, run_hostIpvf_v h.tail, hhex,
    run_chars .hostIpvfHexLoop rfl h.tail.tail.tail hscan, hloop, htail,
    run_chars .hostIpvfTailLoop rfl hdot.tail.tail hscan', hend]
  congr 1
  simp only [List.length_cons, List.length_append, List.length_nil]
  omega

/-- Behind a bracket and a `v` there is a literal of a later version, or an error. -/
theorem run_ipvf_cases (h : StringAt src pos (chr '[' :: chr 'v' :: w))
    (dest : UriSegments) :
    run src .host pos pos dest = .ok (EINVAL, dest) ∨
      ∃ host r, chr '[' :: chr 'v' :: w = host ++ r ∧ IsIpvf isSubDelim host := by
  have hread := h.tail.tail.read
  rw [run_host_bracket h, run_hostIpvf_v h.tail]
  rcases startsChar_cases isxdigit w with hstop | ⟨d, w, rfl, hd⟩
  · left
    rw [startsChar_headD (by decide)] at hstop
    exact run_done (by
      simp only [step, hread, Exec.ok_bind, hexdigit_eq, hstop, Bool.false_eq_true, if_false,
        State.error])
  obtain ⟨⟨x, w₁⟩, hscan⟩ : ∃ xw, scan (startsChar isxdigit) w = xw := ⟨_, rfl⟩
  obtain ⟨hdigits, hstop, rfl⟩ := scan_chars_iff.mp hscan
  have hbehind := h.tail.tail.tail.behind_scan hscan
  have hhex : run src .hostIpvfHex (pos + 2) pos dest =
      run src .hostIpvfHexLoop (pos + 1 + 1 + 1) pos dest :=
    run_next (by
      simp only [step, hread, List.headD_cons, Exec.ok_bind, hexdigit_eq, hd, if_true,
        State.goto])
  rw [hhex, run_chars .hostIpvfHexLoop rfl h.tail.tail.tail hscan]
  rw [startsChar_headD (by decide)] at hstop
  by_cases hdot : w₁.headD 0 = chr '.'
  swap
  · left
    exact run_done (by
      simp only [step, hbehind.read, Exec.ok_bind, hexdigit_eq, hstop, Bool.false_eq_true,
        if_false, if_neg hdot, State.error])
  obtain ⟨w₂, rfl⟩ := exists_cons_of_headD hdot (by decide)
  have hloop : run src .hostIpvfHexLoop (pos + 1 + 1 + 1 + x.length) pos dest =
      run src .hostIpvfTail (pos + 1 + 1 + 1 + x.length + 1) pos dest :=
    run_next (by
      simp only [step, hbehind.read, Exec.ok_bind, hexdigit_eq, hstop, Bool.false_eq_true,
        if_false, if_pos hdot, State.goto])
  have hread' := hbehind.tail.read
  rw [hloop]
  rcases startsChar_cases (isUserinfoChar isSubDelim) w₂ with hstop' | ⟨a, w₃, rfl, ha⟩
  · left
    rw [startsChar_headD (by decide)] at hstop'
    exact run_done (by
      simp only [step, hread', Exec.ok_bind, userinfo_test, hstop', Bool.false_eq_true, if_false,
        State.error])
  obtain ⟨⟨y, w₄⟩, hscan'⟩ : ∃ xw, scan (startsChar (isUserinfoChar isSubDelim)) w₃ = xw :=
    ⟨_, rfl⟩
  obtain ⟨hchars, hstop', rfl⟩ := scan_chars_iff.mp hscan'
  have hbehind' := hbehind.tail.tail.behind_scan hscan'
  have htail : run src .hostIpvfTail (pos + 1 + 1 + 1 + x.length + 1) pos dest =
      run src .hostIpvfTailLoop (pos + 1 + 1 + 1 + x.length + 1 + 1) pos dest :=
    run_next (by
      simp only [step, hread', List.headD_cons, Exec.ok_bind, userinfo_test, ha, if_true,
        State.goto])
  rw [htail, run_chars .hostIpvfTailLoop rfl hbehind.tail.tail hscan']
  rw [startsChar_headD (by decide)] at hstop'
  by_cases hclose : w₄.headD 0 = chr ']'
  · right
    obtain ⟨r, rfl⟩ := exists_cons_of_headD hclose (by decide)
    exact ⟨_, r, by simp, isIpvf_cons hd hdigits ha hchars⟩
  · left
    exact run_done (by
      simp only [step, hbehind'.read, Exec.ok_bind, userinfo_test, hstop', Bool.false_eq_true,
        if_false, if_neg hclose, State.error])

/-! ## IPv6 -/

theorem run_host_ipv6 (h : StringAt src pos (chr '[' :: w)) (hv : w.headD 0 ≠ chr 'v')
    (dest : UriSegments) : run src .host pos pos dest = run src .hostIpv6 pos pos dest := by
  rw [run_host_bracket h, run_hostIpvf_other h.tail hv]

theorem IsIpv6.headD_ne {t : List UInt8} (ht : IsIpv6 t) (r : List UInt8) :
    (t ++ r).headD 0 ≠ chr 'v' := by
  cases ht with
  | compressed ht => exact (by decide : chr ':' ≠ chr 'v')
  | skipped hcolon hv ht => exact hv

theorem run_ipv6 {t : List UInt8} (h : StringAt src pos (chr '[' :: (t ++ chr ']' :: r)))
    (ht : IsIpv6 t) (dest : UriSegments) :
    run src .host pos pos dest =
      run src .hostEnd (pos + t.length + 2) pos { dest with hostType := .ipv6 } := by
  have hstep : step src { label := .hostIpv6, pos := pos, last := pos, dest := dest } =
      .ok (.next { label := .hostEnd, pos := pos + t.length + 2, last := pos,
                   dest := { dest with hostType := .ipv6 } }) := by
    simp only [step, parseIpv6Move_eq h ht, Exec.ok_bind, if_true, State.goto]
  rw [run_host_ipv6 h (ht.headD_ne _), run_next hstep]

theorem run_ipv6_cases (h : StringAt src pos (chr '[' :: c :: w)) (hv : c ≠ chr 'v')
    (dest : UriSegments) :
    run src .host pos pos dest = .ok (EINVAL, dest) ∨
      ∃ t r, c :: w = t ++ chr ']' :: r ∧ IsIpv6 t := by
  rcases parseIpv6Move_cases h hv with ⟨p, hmove⟩ | ⟨t, r, hw, ht, -⟩
  · left
    have hstep : step src { label := .hostIpv6, pos := pos, last := pos, dest := dest } =
        .ok (.done (EINVAL, dest)) := by
      simp only [step, hmove, Exec.ok_bind, Bool.false_eq_true, if_false, State.error]
    rw [run_host_ipv6 h hv, run_done hstep]
  · exact Or.inr ⟨t, r, hw, ht⟩

/-! ## IPv4 and names -/

/-- Where an address may end. -/
def EndsAddress (c : UInt8) : Prop :=
  c = chr '/' ∨ c = chr ':' ∨ c = chr '?' ∨ c = chr '#' ∨ c = 0

instance (c : UInt8) : Decidable (EndsAddress c) :=
  inferInstanceAs (Decidable (_ ∨ _))

theorem endsAddress_headD (hr : StartsWith (ascii ":/?#") r) : EndsAddress (r.headD 0) := by
  cases r with
  | nil => decide
  | cons c r =>
      have hall : ∀ c ∈ ascii ":/?#", EndsAddress c := by decide
      exact hall c (hr c r rfl)

/-- From a place in a name on, the name is taken to its end. -/
theorem run_hostName (h : StringAt src pos w) {x y : List UInt8}
    (hscan : scan (startsUnit (isNameChar isSubDelim)) w = (x, y)) (last : ℕ)
    (dest : UriSegments) :
    run src .hostName pos last dest =
      if y.headD 0 = chr '%' then .ok (EINVAL, dest)
      else run src .hostEnd (pos + x.length) last { dest with hostType := .name } := by
  have hbehind := h.behind_scan hscan
  rcases run_units .hostName rfl h hscan last dest with ⟨hpct, hrun⟩ | ⟨hpct, hchar, hrun⟩
  · rw [hrun, if_pos hpct]
  · have hstep : step src
        { label := .hostName, pos := pos + x.length, last := last, dest := dest } =
          .ok (.next { label := .hostEnd, pos := pos + x.length, last := last,
                       dest := { dest with hostType := .name } }) := by
      simp only [step, hbehind.read, Exec.ok_bind, name_test, hchar, Bool.false_eq_true, if_false,
        if_neg hpct, State.goto]
    rw [hrun, run_next hstep, if_neg hpct]

theorem run_hostIpv4_none (hmove : parseIpv4Move src pos = .ok (false, pos)) (last : ℕ)
    (dest : UriSegments) :
    run src .hostIpv4 pos last dest = run src .hostName pos last dest :=
  run_next (by
    simp only [step, hmove, Exec.ok_bind, Bool.false_eq_true, if_false, State.goto])

/-- Behind an address is the end of the host, or the name goes on. -/
theorem run_hostIpv4_some {p : List UInt8} (h : StringAt src pos (p ++ r))
    (hp : DottedFront (10 + ·) 3 p r) (last : ℕ) (dest : UriSegments) :
    run src .hostIpv4 pos last dest =
      if EndsAddress (r.headD 0) then
        run src .hostEnd (pos + p.length) last { dest with hostType := .ipv4 }
      else run src .hostName (pos + p.length) last dest := by
  have hmove := parseIpv4Move_eq h hp
  have hread := h.append.read
  by_cases hends : EndsAddress (r.headD 0)
  · rw [if_pos hends]
    exact run_next (by
      simp only [step, hmove, Exec.ok_bind, if_true, hread]
      exact if_pos hends)
  · rw [if_neg hends]
    exact run_next (by
      simp only [step, hmove, Exec.ok_bind, if_true, hread]
      exact if_neg hends)

theorem EndsAddress.notMem_name (hc : EndsAddress c) {x : List UInt8}
    (hx : x ∈ units (isNameChar isSubDelim)) : c ∉ x := by
  have hall : ∀ c ∈ [chr '/', chr ':', chr '?', chr '#', 0], isNameChar isSubDelim c = false ∧
      c ≠ chr '%' ∧ isxdigit c = false := by decide
  have hmem : c ∈ [chr '/', chr ':', chr '?', chr '#', 0] := by
    simpa [EndsAddress] using hc
  exact notMem_units (hall c hmem).1 (hall c hmem).2 hx

/-! ## Hosts -/

/-- A host of the dialect is taken up to the mark behind it. -/
theorem run_host_eq (h : StringAt src pos (host ++ r)) (hhost : IsHost type host)
    (hr : StartsWith (ascii ":/?#") r) (dest : UriSegments) :
    run src .host pos pos dest =
      run src .hostEnd (pos + host.length) pos { dest with hostType := type } := by
  cases type with
  | ipvf => exact run_ipvf h hhost dest
  | ipv6 =>
      obtain ⟨t, rfl, ht⟩ := hhost
      have hshape : chr '[' :: (t ++ [chr ']']) ++ r = chr '[' :: (t ++ chr ']' :: r) := by simp
      have hlen : pos + (chr '[' :: (t ++ [chr ']'])).length = pos + t.length + 2 := by
        simp only [List.length_cons, List.length_append, List.length_nil]
        omega
      rw [hshape] at h
      rw [run_ipv6 h ht, hlen]
  | ipv4 =>
      obtain ⟨c, x, rfl, hbracket, hx⟩ := hhost
      have hquad : DottedFront (10 + ·) 3 x r :=
        hx.congr fun _ => startsChar_eq_false hr (by decide)
      have hlen : pos + (c :: x).length = pos + 1 + x.length := by
        rw [List.length_cons]
        omega
      rw [run_host_character h hbracket, run_hostIpv4_some h.tail hquad,
        if_pos (endsAddress_headD hr), hlen]
  | name =>
      obtain ⟨c, x, rfl, hbracket, hunits, hnot⟩ := hhost
      have hscan : scan (startsUnit (isNameChar isSubDelim)) (x ++ r) = (x, r) :=
        (scan_units_iff (nameUnits_hex isSubDelim)).mpr
          ⟨hunits, startsUnit_eq_false hr (name_stops isSubDelim_separable), rfl⟩
      have hpct : r.headD 0 ≠ chr '%' := hr.headD_ne (by decide) (by decide)
      have hlen : pos + (c :: x).length = pos + 1 + x.length := by
        rw [List.length_cons]
        omega
      have htail : StringAt src (pos + 1) (x ++ r) := h.tail
      rw [run_host_character h hbracket, hlen]
      rcases parseIpv4Move_cases htail with ⟨hmove, -⟩ | ⟨p, r', hw, hp, -⟩
      · rw [run_hostIpv4_none hmove, run_hostName htail hscan, if_neg hpct]
      · obtain ⟨a, rfl, ha⟩ := hp.split hw (startsChar_eq_false hr (by decide))
        rw [List.append_assoc] at hw htail hscan
        obtain rfl := List.append_cancel_left hw
        cases a with
        | nil => exact absurd (by rwa [List.append_nil]) hnot
        | cons b a =>
            have hends : ¬ EndsAddress b := fun hb =>
              hb.notMem_name hunits (List.mem_append_right p List.mem_cons_self)
            rw [run_hostIpv4_some htail hp, if_neg (by exact hends),
              run_hostName htail.append (scan_suffix p hscan), if_neg hpct, Nat.add_assoc,
              ← List.length_append]

theorem append_mem_units {q : UInt8 → Bool} {x y : List UInt8} (hx : x ∈ units q)
    (hy : y ∈ units q) : x ++ y ∈ units q := by
  have hmul := Language.append_mem_mul hx hy
  rwa [units, kstar_mul_kstar] at hmul

theorem isHost_name {x y : List UInt8} (hbracket : c ≠ chr '[')
    (hx : x ∈ units (isNameChar isSubDelim)) (hnot : ¬ DottedFront (10 + ·) 3 x y)
    (hy : StartsWith (ascii ":/?#") y) : IsHost .name (c :: x) :=
  ⟨c, x, rfl, hbracket, hx, fun hquad =>
    hnot (hquad.congr fun _ => startsChar_eq_false hy (by decide))⟩

/-- Behind a first character there is an address or a name, or an error. -/
theorem run_host_found_character (h : StringAt src pos (c :: w)) (hbracket : c ≠ chr '[')
    (dest : UriSegments) :
    (∃ d, run src .host pos pos dest = .ok (EINVAL, d)) ∨ ∃ type host r, c :: w = host ++ r ∧
      (StartsWith (ascii ":/?#") r → IsHost type host) ∧ run src .host pos pos dest =
        run src .hostEnd (pos + host.length) pos { dest with hostType := type } := by
  have hlen : ∀ x : List UInt8, pos + (c :: x).length = pos + 1 + x.length := by
    intro x
    rw [List.length_cons]
    omega
  rw [run_host_character h hbracket]
  rcases parseIpv4Move_cases h.tail with ⟨hmove, hnone⟩ | ⟨p, r, rfl, hp, -⟩
  · rw [run_hostIpv4_none hmove]
    obtain ⟨⟨x, y⟩, hscan⟩ : ∃ xy, scan (startsUnit (isNameChar isSubDelim)) w = xy := ⟨_, rfl⟩
    obtain ⟨hunits, -, rfl⟩ := (scan_units_iff (nameUnits_hex isSubDelim)).mp hscan
    rw [run_hostName h.tail hscan]
    by_cases hpct : y.headD 0 = chr '%'
    · exact Or.inl ⟨dest, if_pos hpct⟩
    · refine Or.inr ⟨.name, c :: x, y, rfl, ?_, by rw [if_neg hpct, hlen]⟩
      exact isHost_name hbracket hunits fun hquad => hnone ⟨x, y, rfl, hquad⟩
  rw [run_hostIpv4_some h.tail hp]
  by_cases hends : EndsAddress (r.headD 0)
  · refine Or.inr ⟨.ipv4, c :: p, r, rfl, fun _ => ?_, by rw [if_pos hends, hlen]⟩
    exact ⟨c, p, rfl, hbracket, hp.congr fun _ => rfl⟩
  obtain ⟨⟨x, y⟩, hscan⟩ : ∃ xy, scan (startsUnit (isNameChar isSubDelim)) r = xy := ⟨_, rfl⟩
  obtain ⟨hunits, -, rfl⟩ := (scan_units_iff (nameUnits_hex isSubDelim)).mp hscan
  have hbehind : StringAt src (pos + 1 + p.length) (x ++ y) := h.tail.append
  rw [if_neg hends, run_hostName hbehind hscan]
  by_cases hpct : y.headD 0 = chr '%'
  · exact Or.inl ⟨dest, if_pos hpct⟩
  refine Or.inr ⟨.name, c :: (p ++ x), y, by simp, fun hy => ?_, ?_⟩
  · have hfront : p ∈ units (isNameChar isSubDelim) := by
      refine mem_units_of_forall fun d hd => ?_
      rcases hp.chars d hd with hd | rfl
      · simp [isNameChar, isUnreserved, hd]
      · decide
    refine isHost_name hbracket (append_mem_units hfront hunits) (fun hquad => ?_) hy
    obtain ⟨heq, -⟩ := hquad.unique hp (List.append_assoc p x y)
      (by rw [List.append_assoc]; exact h.tail.zero_notMem)
    have hnil : x = [] := by simpa using heq
    subst hnil
    exact hends (endsAddress_headD hy)
  · rw [if_neg hpct, hlen, List.length_append, Nat.add_assoc (pos + 1)]

theorem run_host_found (h : StringAt src pos w) (hne : w ≠ []) (hbracket : w ≠ [chr '['])
    (dest : UriSegments) :
    (∃ d, run src .host pos pos dest = .ok (EINVAL, d)) ∨ ∃ type host r, w = host ++ r ∧
      (StartsWith (ascii ":/?#") r → IsHost type host) ∧ run src .host pos pos dest =
        run src .hostEnd (pos + host.length) pos { dest with hostType := type } := by
  obtain ⟨c, w, rfl⟩ := List.exists_cons_of_ne_nil hne
  by_cases hc : c = chr '['
  swap
  · exact run_host_found_character h hc dest
  subst hc
  have hne' : w ≠ [] := fun hnil => hbracket (by rw [hnil])
  obtain ⟨c, w, rfl⟩ := List.exists_cons_of_ne_nil hne'
  by_cases hv : c = chr 'v'
  · subst hv
    rcases run_ipvf_cases h dest with hrun | ⟨host, r, hw, hhost⟩
    · exact Or.inl ⟨dest, hrun⟩
    · rw [hw] at h ⊢
      exact Or.inr ⟨.ipvf, host, r, rfl, fun _ => hhost, run_ipvf h hhost dest⟩
  · rcases run_ipv6_cases h hv dest with hrun | ⟨t, r, hw, ht⟩
    · exact Or.inl ⟨dest, hrun⟩
    · rw [hw] at h ⊢
      refine Or.inr ⟨.ipv6, chr '[' :: (t ++ [chr ']']), r, by simp, fun _ => ⟨t, rfl, ht⟩, ?_⟩
      have hlen : pos + (chr '[' :: (t ++ [chr ']'])).length = pos + t.length + 2 := by
        simp only [List.length_cons, List.length_append, List.length_nil]
        omega
      rw [run_ipv6 h ht, hlen]

theorem run_host_recognizes (h : StringAt src pos w) (hne : w ≠ []) (hbracket : w ≠ [chr '['])
    (hport : dest.port = .null) (hquery : dest.query = .null) (hfragment : dest.fragment = .null) :
    Recognizes (dialect.HostReads fragmentView pos w dest) (run src .host pos pos dest) := by
  have hbehind : ∀ type host r, w = host ++ r → run src .host pos pos dest =
      run src .hostEnd (pos + host.length) pos { dest with hostType := type } →
      Recognizes (dialect.PortReads fragmentView (pos + host.length) r
        { dest with hostType := type, host := { str := some pos, size := host.length } })
        (run src .host pos pos dest) := by
    rintro type host r rfl hrun
    have hrest := run_hostEnd pos { dest with hostType := type } h.append hport hquery hfragment
    rw [Nat.add_sub_cancel_left] at hrest
    rw [hrun]
    exact hrest
  refine Dialect.hostReads_recognizes ?_ fun type host r hhost hw hr =>
    hbehind type host r hw (run_host_eq (hw ▸ h) hhost hr dest)
  rcases run_host_found h hne hbracket dest with hrun | ⟨type, host, r, hw, hhost, hrun⟩
  · exact Or.inl hrun
  · exact Or.inr ⟨type, host, r, hw, hhost, hbehind type host r hw hrun⟩

end Host

end Hlibc.Uri.Jmp
