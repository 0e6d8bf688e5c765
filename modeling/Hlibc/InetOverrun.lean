import Hlibc.Ipv6Run

/-!
# Texts without a null byte

`ipv4_to_bin` and `ipv6_to_bin` on an object that holds no null byte.  They return
`EINVAL`, unless the object ends inside a text that they could still accept: then
they read past it.
-/

set_option autoImplicit false

namespace Hlibc.Inet

/-! ## Dotted quads -/

theorem ipv4ToBinPart_extends (src rest : List UInt8) (pos : ℕ) :
    Exec.Extends (ipv4ToBinPart src pos) (ipv4ToBinPart (src ++ rest) pos) := by
  refine (readByte_extends src rest pos).bind fun c => ?_
  split
  swap
  · exact Exec.Extends.refl _
  split
  · exact Exec.Extends.refl _
  refine (readByte_extends src rest (pos + 1)).bind fun c => ?_
  split
  swap
  · exact Exec.Extends.refl _
  exact (readByte_extends src rest (pos + 2)).bind fun c => Exec.Extends.refl _

theorem ipv4ToBinPass_extends (src rest : List UInt8) (off : ℕ) (st : Ipv4State) :
    Exec.Extends (ipv4ToBinPass src off st) (ipv4ToBinPass (src ++ rest) off st) := by
  rw [ipv4ToBinPass, ipv4ToBinPass]
  split
  swap
  · exact (readByte_extends src rest st.pos).bind fun c => Exec.Extends.refl _
  refine (ipv4ToBinPart_extends src rest st.pos).bind fun part => ?_
  rcases part with - | ⟨val, pos⟩
  · exact Exec.Extends.refl _
  · dsimp only
    split
    · exact (readByte_extends src rest pos).bind fun c => Exec.Extends.refl _
    · exact Exec.Extends.refl _

/-- `ipv4_to_bin` returns the same for a longer object. -/
theorem ipv4ToBin_extends (src rest : List UInt8) (pos : ℕ) (dest : List UInt8) (off : ℕ) :
    Exec.Extends (ipv4ToBin src pos dest off) (ipv4ToBin (src ++ rest) pos dest off) :=
  loop_extends (ipv4ToBinPass_extends src rest off) 5 _

/-- From its `i`th pass on, the loop fails, or what is left of the object is the front of
the numbers that are left. -/
theorem ipv4ToBin_loop_unterminated {off : ℕ} (n : ℕ) :
    ∀ {i : ℕ} {pre r dest : List UInt8}, i + n = 4 → 0 ∉ r → off + 4 ≤ dest.length →
      (∃ out, loop (ipv4ToBinPass (pre ++ r) off) (n + 1)
          { i := i, pos := pre.length, dest := dest } = .ok (EINVAL, out)) ∨
        loop (ipv4ToBinPass (pre ++ r) off) (n + 1)
          { i := i, pos := pre.length, dest := dest } = .error .read ∧
          ∃ vs : List UInt8, vs.length = n ∧ r <+: dotted vs := by
  induction n with
  | zero =>
      intro i pre r dest hin hr hdest
      have hi : ¬ i < 4 := by omega
      cases r with
      | nil =>
          refine Or.inr ⟨loop_error ?_ 0, [], rfl, List.nil_prefix⟩
          rw [ipv4ToBinPass, if_neg hi, List.append_nil, readByte_length]
          rfl
      | cons c r =>
          have hc : c ≠ 0 := fun h => hr (h ▸ List.mem_cons_self)
          have hread : readByte (pre ++ c :: r) pre.length = .ok c :=
            readByte_length_eq_ok.mpr ⟨r, rfl⟩
          refine Or.inl ⟨dest, loop_done ?_ 0⟩
          rw [ipv4ToBinPass, if_neg hi, hread, Exec.ok_bind, if_pos hc]
  | succ n ih =>
      intro i pre r dest hin hr hdest
      rcases ipv4ToBinPass_cases (by omega : i < 4) pre r (by omega : off + i < dest.length) with
          hpass | ⟨hpass, v, hv⟩ | ⟨v, r, rfl, hpass⟩
      · exact Or.inl ⟨dest, loop_done hpass _⟩
      · refine Or.inr ⟨loop_error hpass _, v :: List.replicate n 0, by simp, ?_⟩
        rw [← dotted_separator (by simp; omega : i + (List.replicate n (0 : UInt8)).length = 3),
          List.append_assoc]
        exact hv.trans (List.prefix_append _ _)
      · have hsrc : pre ++ (decimal v ++ separator i ++ r) =
            pre ++ decimal v ++ separator i ++ r := by
          simp
        have hset : off + 4 ≤ (dest.set (off + i) v).length := by
          rwa [List.length_set]
        rw [loop_next hpass, hsrc]
        rcases ih (by omega : i + 1 + n = 4) (fun hmem => hr (List.mem_append_right _ hmem)) hset
          with hinvalid | ⟨herror, vs, hlen, hvs⟩
        · exact Or.inl hinvalid
        · refine Or.inr ⟨herror, v :: vs, by simp [hlen], ?_⟩
          rw [← dotted_separator (by omega : i + vs.length = 3)]
          exact (List.prefix_append_right_inj _).mpr hvs

/-- `ipv4_to_bin` fails on a text without a null byte, unless it is the front of a text
that is accepted. -/
theorem ipv4ToBin_unterminated (pre : List UInt8) {r dest : List UInt8} {off : ℕ} (hr : 0 ∉ r)
    (hdest : off + 4 ≤ dest.length) :
    (∃ out, ipv4ToBin (pre ++ r) pre.length dest off = .ok (EINVAL, out)) ∨
      ipv4ToBin (pre ++ r) pre.length dest off = .error .read ∧
        ∃ vs : List UInt8, vs.length = 4 ∧ r <+: dotted vs :=
  ipv4ToBin_loop_unterminated 4 rfl hr hdest

/-- At the end of a front of a text that is accepted, `ipv4_to_bin` reads on. -/
theorem ipv4ToBin_prefix (pre : List UInt8) {r vs dest : List UInt8} {off : ℕ}
    (hvs : vs.length = 4) (hbegins : r <+: dotted vs) (hdest : off + 4 ≤ dest.length) :
    ipv4ToBin (pre ++ r) pre.length dest off = .error .read := by
  have hzero : 0 ∉ r := fun hmem => zero_notMem_dotted vs (hbegins.subset hmem)
  rcases ipv4ToBin_unterminated pre hzero hdest with ⟨out, hout⟩ | ⟨herror, -⟩
  swap
  · exact herror
  exfalso
  obtain ⟨r', hr'⟩ := hbegins
  have hlonger := ipv4ToBin_extends (pre ++ r) (r' ++ [0]) pre.length dest off _ hout
  have hsrc : pre ++ r ++ (r' ++ [0]) = pre ++ (dotted vs ++ 0 :: []) := by
    rw [← hr']
    simp
  have htaken : ipv4ToBin (pre ++ (dotted vs ++ 0 :: [])) pre.length dest off = .ok (0, _) :=
    (ipv4ToBin_eq_ok pre (zero_notMem_dotted vs) hdest).mpr
      ⟨vs, hvs, rfl, writeBytes_of_le (by rwa [hvs])⟩
  rw [hsrc, htaken] at hlonger
  exact absurd (Prod.mk.inj (Except.ok.inj hlonger)).1 (by decide)

/-! ## IPv6 -/

/-- The text is the front of one that `ipv6_to_bin` could accept, to whose last character
it reads. -/
inductive RunsOff (h : List UInt8) : Prop where
  | groups {gs : List (List UInt8)} {c : Option ℕ} (hreads : Reads gs c h)
  | quad {gs : List (List UInt8)} {c : Option ℕ} {t sep vs : List UInt8} (hreads : Reads gs c t)
      (htakes : TakesQuad gs c sep) (hvs : vs.length = 4)
      (hbegins : h <+: t ++ (sep ++ dotted vs))

section Overrun

variable {h dest : List UInt8}

theorem Leaves.unterminated {exit : Exec Ipv6Exit} (hleaves : Leaves h dest exit) (hzero : 0 ∉ h)
    (hdest : 16 ≤ dest.length) :
    Exec.Returns (exit >>= ipv6Expand h) ∨ RunsOff h := by
  cases hleaves with
  | invalid bin => exact Or.inl ⟨_, rfl⟩
  | @groups gs c t w d hreads hsrc hstop =>
      left
      have hd : d ≠ 0 := by
        rintro rfl
        exact hzero (by simp [hsrc])
      refine ⟨_, ipv6Expand_more rfl ?_ hd⟩
      rw [hsrc]
      exact readByte_length_eq_ok.mpr ⟨w, rfl⟩
  | double hreads hroom hsrc => exact absurd (by simp [hsrc]) hzero
  | @quad gs c t sep r hreads htakes hsrc =>
      have hroom := htakes.quad_room (t ++ sep).length hdest
      have hr : 0 ∉ r := fun hmem => hzero (by simp [hsrc, hmem])
      rw [← List.append_assoc] at hsrc
      rcases ipv4ToBin_unterminated (t ++ sep) hr hroom with ⟨out, hout⟩ | ⟨-, vs, hvs, hbegins⟩
      · left
        rw [← hsrc] at hout
        have hexit : quadExit h { stateAt dest gs c (t ++ sep).length with mapped := true } = _ :=
          quadExit_invalid hout (by decide)
        rw [hexit]
        exact ⟨_, rfl⟩
      · refine Or.inr (.quad hreads htakes hvs ?_)
        rw [hsrc, ← List.append_assoc]
        exact (List.prefix_append_right_inj _).mpr hbegins
  | outside hreads => exact Or.inr (.groups hreads)

/-- Only a group of four digits ends in the fortieth character. -/
theorem Reads.ends_of_long {gs : List (List UInt8)} {c : Option ℕ} (hreads : Reads gs c h)
    (hlong : 40 ≤ h.length) : ∀ g ∈ gs.getLast?, Ends g [] := by
  cases hreads with
  | start => simp
  | @group gs c c' t sep g hreads hroom hsep hg =>
      intro l hl
      rw [List.getLast?_concat, Option.mem_some_iff] at hl
      subst hl
      have htext := hreads.length_le_of_room hroom
      have hfour := hg.length_le
      have hsep : sep.length ≤ 2 := by
        cases hsep <;> simp
      rw [List.length_append, List.length_append] at hlong
      exact Or.inl (by omega)

/-- Behind groups that are all of the object, the loop reads on. -/
theorem Reads.overruns {gs : List (List UInt8)} {c : Option ℕ} (hreads : Reads gs c h)
    (hlong : 40 ≤ h.length) (hdest : 16 ≤ dest.length) :
    loop (ipv6ToBinPass h) 9 (stateAt dest [] none 0) = .error .read := by
  have hlen := hreads.length_le_eight
  obtain ⟨budget, hbudget⟩ : ∃ budget, 9 = gs.length + (budget + 1) := ⟨8 - gs.length, by omega⟩
  rw [hbudget, hreads.run hdest (List.append_nil h).symm (hreads.ends_of_long hlong)]
  refine loop_error ?_ budget
  simp only [ipv6ToBinPass, stateAt, readByte_length, Exec.error_bind]

/-- Behind the front of a dotted quad, `ipv4_to_bin` reads on. -/
theorem TakesQuad.overruns {gs : List (List UInt8)} {c : Option ℕ} {t sep vs : List UInt8}
    (htakes : TakesQuad gs c sep) (hreads : Reads gs c t) (hvs : vs.length = 4)
    (hbegins : h <+: t ++ (sep ++ dotted vs)) (hlong : 40 ≤ h.length)
    (hdest : 16 ≤ dest.length) :
    loop (ipv6ToBinPass h) 9 (stateAt dest [] none 0) = .error .read := by
  have htext := hreads.length_le_of_room htakes.room
  have hsep : sep.length ≤ 2 := by
    cases htakes.separates <;> simp
  obtain ⟨v, w, vs', rfl⟩ : ∃ v w vs', vs = v :: w :: vs' := by
    match vs, hvs with
    | v :: w :: vs', _ => exact ⟨v, w, vs', rfl⟩
  obtain ⟨hgroup, hshort⟩ := decimal_isGroup v
  have hfront : t ++ sep ++ (decimal v ++ [chr '.']) <+: h := by
    refine List.prefix_of_prefix_length_le ?_ hbegins ?_
    · rw [dotted]
      exact ⟨dotted (w :: vs'), by simp⟩
    · simp only [List.length_append, List.length_singleton]
      omega
  obtain ⟨r, rfl⟩ := hfront
  have hquad : decimal v ++ chr '.' :: r <+: dotted (v :: w :: vs') := by
    rw [← List.append_assoc t sep, List.append_assoc (t ++ sep)] at hbegins
    have hrest := (List.prefix_append_right_inj _).mp hbegins
    rwa [List.append_assoc, List.singleton_append] at hrest
  have hsrc : t ++ sep ++ (decimal v ++ [chr '.']) ++ r =
      t ++ (sep ++ (decimal v ++ chr '.' :: r)) := by
    simp
  have herror := ipv4ToBin_prefix (t ++ sep) hvs hquad
    (htakes.quad_room (t ++ sep).length hdest)
  rw [List.append_assoc] at herror
  rw [hsrc, hreads.run_quad htakes hdest hgroup hshort rfl]
  exact quadExit_error herror

theorem RunsOff.front (hruns : RunsOff h) (hlong : 40 ≤ h.length) : FrontOk h := by
  cases hruns with
  | groups hreads =>
      refine hreads.front ?_
      rintro rfl
      obtain ⟨-, rfl⟩ := hreads.eq_start
      exact absurd hlong (by decide)
  | @quad gs c t sep vs hreads htakes hvs hbegins =>
      obtain ⟨r, hr⟩ := hbegins
      have hfront := (hreads.front htakes.mapped.ne_nil).append (sep ++ dotted vs)
      rw [← hr] at hfront
      exact hfront.of_append (by omega)

/-- On an object of forty bytes or more without a null byte, `ipv6_to_bin` returns unless the
object is the front of a text that it could accept. -/
theorem ipv6ToBin_unterminated (hzero : 0 ∉ h) (hlong : 40 ≤ h.length) (hdest : 16 ≤ dest.length) :
    Exec.Returns (ipv6ToBin h dest) ↔ ¬ RunsOff h := by
  have hgoes : GoesOn 2 h := Or.inr (by omega)
  constructor
  · intro hreturns hruns
    rw [ipv6ToBin_eq hgoes (fun w => (hruns.front hlong).first)] at hreturns
    have herror : loop (ipv6ToBinPass h) 9 (stateAt dest [] none 0) = .error .read := by
      cases hruns with
      | groups hreads => exact hreads.overruns hlong hdest
      | quad hreads htakes hvs hbegins => exact htakes.overruns hreads hvs hbegins hlong hdest
    rw [herror, Exec.error_bind] at hreturns
    exact Exec.not_returns_error _ hreturns
  · intro hstays
    rcases first_or_colon hgoes with hfirst | ⟨d, w, rfl, hd⟩
    · rw [ipv6ToBin_eq hgoes hfirst]
      exact ((leaves_loop hdest (Or.inr hlong) hfirst).unterminated hzero hdest).resolve_right
        hstays
    · rw [ipv6ToBin_colon hd]
      exact ⟨_, rfl⟩

end Overrun

end Hlibc.Inet
