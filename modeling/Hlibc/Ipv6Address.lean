import Hlibc.Ipv6Run

/-!
# Hexadecimal addresses

The texts of IPv6 addresses without a dotted quad.  `ipv6_to_bin` reads all of
them, and also texts that lack a colon behind a group of four digits: those with
five digits in a row.
-/

set_option autoImplicit false

namespace Hlibc.Inet

/-! ## Addresses -/

/-- Groups separated by single colons. -/
def joined : List (List UInt8) → List UInt8
  | [] => []
  | g :: gs => g ++ gs.flatMap (chr ':' :: ·)

/-- Eight groups separated by single colons, or at most seven of them on the two sides of
a `::`. -/
def IsHexAddress (s : List UInt8) : Prop :=
  (∃ gs, gs.length = 8 ∧ (∀ g ∈ gs, IsGroup g) ∧ s = joined gs) ∨
    ∃ front back, front.length + back.length ≤ 7 ∧ (∀ g ∈ front, IsGroup g) ∧
      (∀ g ∈ back, IsGroup g) ∧ s = joined front ++ chr ':' :: chr ':' :: joined back

/-- Five hexadecimal digits stand in a row. -/
def FiveDigits (s : List UInt8) : Prop :=
  ∃ x, x.length = 5 ∧ (∀ c ∈ x, isxdigit c = true) ∧ x <:+: s

theorem joined_concat {gs : List (List UInt8)} (g : List UInt8) (hgs : gs ≠ []) :
    joined (gs ++ [g]) = joined gs ++ chr ':' :: g := by
  obtain ⟨h, gs, rfl⟩ := List.exists_cons_of_ne_nil hgs
  simp [joined]

/-! ## Addresses are read -/

section Reading

variable {gs more : List (List UInt8)} {c : Option ℕ} {t : List UInt8}

theorem not_full_iff : ¬ Full gs c ↔ gs.length + (if c.isSome then 1 else 0) < 8 :=
  Nat.not_le

theorem Reads.append_colons (h : Reads gs c t) (hgs : gs ≠ []) (hmore : ∀ g ∈ more, IsGroup g)
    (hroom : gs.length + more.length + (if c.isSome then 1 else 0) ≤ 8) :
    Reads (gs ++ more) c (t ++ more.flatMap (chr ':' :: ·)) := by
  induction more generalizing gs t with
  | nil =>
      rw [List.append_nil, List.flatMap_nil, List.append_nil]
      exact h
  | cons g more ih =>
      obtain ⟨hg, hmore⟩ := List.forall_mem_cons.mp hmore
      rw [List.length_cons] at hroom
      have hnext := h.group (not_full_iff.mpr (by omega)) (.colon hgs c) hg
      have hrest := ih hnext (by simp) hmore (by
        rw [List.length_append, List.length_singleton]
        omega)
      rw [List.append_assoc, List.append_assoc] at hrest
      exact hrest

theorem reads_joined (hgroups : ∀ g ∈ gs, IsGroup g) (hlen : gs.length ≤ 8) :
    Reads gs none (joined gs) := by
  cases gs with
  | nil => exact .start
  | cons g gs =>
      obtain ⟨hg, hgs⟩ := List.forall_mem_cons.mp hgroups
      have hfirst := Reads.start.group (by decide) (.start rfl) hg
      refine hfirst.append_colons (by simp) hgs ?_
      rw [List.length_cons] at hlen
      simp only [List.nil_append, List.length_singleton, Option.isSome_none, Bool.false_eq_true,
        if_false]
      omega

theorem reads_joined_double {front back : List (List UInt8)} {g : List UInt8}
    (hfront : ∀ l ∈ front, IsGroup l) (hback : ∀ l ∈ g :: back, IsGroup l)
    (hlen : front.length + (g :: back).length ≤ 7) :
    Reads (front ++ g :: back) (some front.length)
      (joined front ++ chr ':' :: chr ':' :: joined (g :: back)) := by
  rw [List.length_cons] at hlen
  obtain ⟨hg, hback⟩ := List.forall_mem_cons.mp hback
  have hroom : ¬ Full front none := not_full_iff.mpr (by simp; omega)
  have hnext := ((reads_joined hfront (by omega)).group hroom .double hg).append_colons
    (by simp) hback (by
      simp only [List.length_append, List.length_singleton, Option.isSome_some, if_true]
      omega)
  rw [List.append_assoc, List.append_assoc] at hnext
  exact hnext

theorem IsHexAddress.accepts {s : List UInt8} (h : IsHexAddress s) :
    ∃ gs c, Accepts s gs c [] := by
  rcases h with ⟨gs, hlen, hgs, rfl⟩ | ⟨front, back, hlen, hfront, hback, rfl⟩
  · refine ⟨gs, none, .groups (reads_joined hgs (Nat.le_of_eq hlen)), ?_⟩
    simp [Complete, hlen]
  · have hcomplete : ∀ gs : List (List UInt8), gs.length ≤ 7 →
        Complete (some front.length) (2 * gs.length + ([] : List UInt8).length) := by
      intro gs hgs
      simp only [Complete, Option.isSome_some, if_true, List.length_nil]
      omega
    cases back with
    | nil =>
        have hroom : ¬ Full front none := not_full_iff.mpr (by simp; omega)
        exact ⟨front, some front.length, .double (reads_joined hfront (by omega)) hroom,
          hcomplete front (by omega)⟩
    | cons g back =>
        refine ⟨front ++ g :: back, some front.length,
          .groups (reads_joined_double hfront hback hlen), hcomplete _ ?_⟩
        rw [List.length_append]
        exact hlen

end Reading

/-! ## What is read without five digits is an address -/

section Digits

variable {gs : List (List UInt8)} {c : Option ℕ} {x s t : List UInt8}

theorem FiveDigits.mono (h : FiveDigits t) (hwithin : t <:+: s) : FiveDigits s := by
  obtain ⟨x, hlen, hx, hin⟩ := h
  exact ⟨x, hlen, hx, hin.trans hwithin⟩

theorem Reads.suffix (h : Reads gs c t) : ∀ g ∈ gs.getLast?, IsGroup g ∧ g <:+ t := by
  cases h with
  | start => simp
  | group h hroom hsep hg =>
      intro l hl
      rw [List.getLast?_concat, Option.mem_some_iff] at hl
      subst hl
      exact ⟨hg, _, by rw [List.append_assoc]⟩

theorem EndsFull.fiveDigits (hfull : EndsFull gs) (h : Reads gs c t) {g : List UInt8}
    (hg : IsGroup g) : FiveDigits (t ++ g) := by
  obtain ⟨l, hl, hfour⟩ := hfull
  obtain ⟨hgroup, t', rfl⟩ := h.suffix l hl
  obtain ⟨d, g', rfl, hd⟩ := hg.exists_cons
  refine ⟨l ++ [d], ?_, ?_, t', g', ?_⟩
  · rw [List.length_append, List.length_singleton, hfour]
  · intro e he
    rcases List.mem_append.mp he with he | he
    · exact hgroup.digits e he
    · rw [List.mem_singleton.mp he]
      exact hd
  · simp

/-- Without five digits in a row, the groups are separated by colons. -/
theorem Reads.joined_of_not_fiveDigits (h : Reads gs c t) (hfive : ¬ FiveDigits t) :
    (∀ g ∈ gs, IsGroup g) ∧ (c = none → t = joined gs) ∧
      ∀ k ∈ c, ∃ front back, gs = front ++ back ∧ front.length = k ∧ back ≠ [] ∧
        t = joined front ++ chr ':' :: chr ':' :: joined back := by
  induction h with
  | start => exact ⟨by simp, fun _ => rfl, by simp⟩
  | @group gs c c' t sep g h hroom hsep hg ih =>
      have hfront : ¬ FiveDigits t := fun h => hfive (h.mono (List.prefix_append t _).isInfix)
      obtain ⟨hgroups, hnone, hsome⟩ := ih hfront
      have hall : ∀ l ∈ gs ++ [g], IsGroup l := by
        intro l hl
        rcases List.mem_append.mp hl with hl | hl
        · exact hgroups l hl
        · rw [List.mem_singleton.mp hl]
          exact hg
      refine ⟨hall, ?_⟩
      cases hsep with
      | start hnil =>
          subst hnil
          obtain ⟨-, rfl⟩ := h.eq_start
          exact ⟨fun _ => by simp [joined], by simp⟩
      | colon hne c =>
          refine ⟨fun hc => ?_, fun k hk => ?_⟩
          · rw [hnone hc, joined_concat g hne]
            rfl
          · obtain ⟨front, back, rfl, hlen, hback, rfl⟩ := hsome k hk
            refine ⟨front, back ++ [g], List.append_assoc _ _ _, hlen, by simp, ?_⟩
            rw [joined_concat g hback]
            simp
      | missing hfull c => exact absurd (hfull.fiveDigits h hg) hfive
      | double =>
          refine ⟨fun hc => absurd hc (by simp), ?_⟩
          rintro k ⟨⟩
          refine ⟨gs, [g], rfl, rfl, by simp, ?_⟩
          rw [hnone rfl]
          simp [joined]

theorem Accepts.isHexAddress (h : Accepts s gs c []) (hfive : ¬ FiveDigits s) :
    IsHexAddress s := by
  obtain ⟨hwritten, hcomplete⟩ := h
  generalize hvs : ([] : List UInt8) = vs at hwritten hcomplete
  cases hwritten with
  | groups h =>
      obtain ⟨hgroups, hnone, hsome⟩ := h.joined_of_not_fiveDigits hfive
      cases c with
      | none =>
          simp only [Complete, Option.isSome_none, Bool.false_eq_true, if_false,
            List.length_nil] at hcomplete
          have hlen := h.length_le_eight
          exact Or.inl ⟨gs, by omega, hgroups, hnone rfl⟩
      | some k =>
          obtain ⟨front, back, rfl, -, -, rfl⟩ := hsome k rfl
          simp only [Complete, Option.isSome_some, if_true, List.length_nil,
            List.length_append] at hcomplete
          exact Or.inr ⟨front, back, by omega,
            fun g hg => hgroups g (List.mem_append_left _ hg),
            fun g hg => hgroups g (List.mem_append_right _ hg), rfl⟩
  | @double gs t h hroom =>
      obtain ⟨hgroups, hnone, -⟩ :=
        h.joined_of_not_fiveDigits fun h => hfive (h.mono (List.prefix_append t _).isInfix)
      refine Or.inr ⟨gs, [], ?_, hgroups, by simp, by rw [hnone rfl]; rfl⟩
      rw [not_full_iff] at hroom
      simp only [Option.isSome_none, Bool.false_eq_true, if_false] at hroom
      simp only [List.length_nil]
      omega
  | quad h htakes hlen =>
      subst hvs
      cases hlen

/-! ## Addresses have no five digits in a row -/

/-- What does not hold a character stands on one side of it. -/
theorem infix_or_infix {d : UInt8} {a b : List UInt8} (hd : d ∉ x) (h : x <:+: a ++ d :: b) :
    x <:+: a ∨ x <:+: b := by
  obtain ⟨l, r, heq⟩ := h
  rcases List.append_eq_append_iff.mp heq with ⟨e, ha, -⟩ | ⟨e, hlx, hdb⟩
  · exact Or.inl ⟨l, e, ha.symm⟩
  cases e with
  | nil => exact Or.inl ⟨l, [], by rw [List.append_nil, hlx, List.append_nil]⟩
  | cons d' e =>
      obtain ⟨rfl, rfl⟩ := List.cons.inj hdb
      rcases List.append_eq_append_iff.mp hlx with ⟨f, -, hx⟩ | ⟨f, -, hx⟩
      · exact absurd (hx ▸ List.mem_append_right f List.mem_cons_self) hd
      · cases f with
        | nil =>
            obtain rfl : d :: e = x := hx
            exact absurd List.mem_cons_self hd
        | cons d' f =>
            obtain ⟨-, rfl⟩ := List.cons.inj hx
            exact Or.inr ⟨f, r, rfl⟩

theorem exists_infix_of_joined (hx : chr ':' ∉ x) (hne : x ≠ []) (h : x <:+: joined gs) :
    ∃ g ∈ gs, x <:+: g := by
  cases gs with
  | nil => exact absurd (List.infix_nil.mp h) hne
  | cons g gs =>
      rw [joined] at h
      induction gs generalizing g with
      | nil =>
          rw [List.flatMap_nil, List.append_nil] at h
          exact ⟨g, List.mem_cons_self, h⟩
      | cons l gs ih =>
          rcases infix_or_infix hx h with h | h
          · exact ⟨g, List.mem_cons_self, h⟩
          · obtain ⟨g', hg', hin⟩ := ih l h
            exact ⟨g', List.mem_cons_of_mem g hg', hin⟩

theorem not_fiveDigits_joined (hgroups : ∀ g ∈ gs, IsGroup g) : ¬ FiveDigits (joined gs) := by
  rintro ⟨x, hlen, hx, hin⟩
  have hcolon : chr ':' ∉ x := fun hmem => absurd (hx _ hmem) (by decide)
  have hne : x ≠ [] := by
    rintro rfl
    cases hlen
  obtain ⟨g, hg, hin⟩ := exists_infix_of_joined hcolon hne hin
  have hfour := (hgroups g hg).length_le
  have hle := hin.length_le
  omega

theorem IsHexAddress.not_fiveDigits (h : IsHexAddress s) : ¬ FiveDigits s := by
  rcases h with ⟨gs, -, hgs, rfl⟩ | ⟨front, back, -, hfront, hback, rfl⟩
  · exact not_fiveDigits_joined hgs
  · rintro ⟨x, hlen, hx, hin⟩
    have hcolon : chr ':' ∉ x := fun hmem => absurd (hx _ hmem) (by decide)
    rcases infix_or_infix hcolon hin with hin | hin
    · exact not_fiveDigits_joined hfront ⟨x, hlen, hx, hin⟩
    · rcases infix_or_infix (a := []) hcolon hin with hin | hin
      · rw [List.infix_nil.mp hin] at hlen
        cases hlen
      · exact not_fiveDigits_joined hback ⟨x, hlen, hx, hin⟩

end Digits

/-! ## The texts that `ipv6_to_bin` takes -/

/-- A text that is accepted and has no dot has no dotted quad. -/
theorem Accepts.eq_nil {s : List UInt8} {gs : List (List UInt8)} {c : Option ℕ}
    {vs : List UInt8} (h : Accepts s gs c vs) (hdot : chr '.' ∉ s) : vs = [] := by
  cases h.written with
  | groups => rfl
  | double => rfl
  | quad h htakes hvs =>
      match vs, hvs with
      | v :: w :: vs', _ => exact absurd (by simp [dotted]) hdot

/-- Among the texts without a dot, `ipv6_to_bin` takes exactly the addresses where this is
true of what it finds: no five digits stand in a row if, and only if, the part behind the
`::` is moved inside the object. -/
theorem ipv6ToBin_hexAddress_iff {s tail dest : List UInt8} (hs : 0 ∉ s) (hdot : chr '.' ∉ s)
    (hdest : 16 ≤ dest.length) :
    ((∃ out, ipv6ToBin (s ++ 0 :: tail) dest = .ok (0, out)) ↔ IsHexAddress s) ↔
      ∀ gs c, Accepts s gs c [] → (¬ FiveDigits s ↔ Fits c (2 * gs.length) dest.length) := by
  constructor
  · intro hiff gs c haccepts
    have hgives := haccepts.gives tail hdest
    have hreturns : (∃ out, ipv6ToBin (s ++ 0 :: tail) dest = .ok (0, out)) ↔
        Fits c (2 * gs.length) dest.length := by
      refine ⟨fun ⟨out, hout⟩ => by_contra fun hfits => ?_, hgives.fits⟩
      rw [hgives.overrun hfits] at hout
      cases hout
    rw [← hreturns, hiff]
    exact ⟨haccepts.isHexAddress, IsHexAddress.not_fiveDigits⟩
  · intro hall
    rw [ipv6ToBin_zero_iff hs tail hdest]
    constructor
    · rintro ⟨gs, c, vs, haccepts, hfits⟩
      obtain rfl := haccepts.eq_nil hdot
      exact haccepts.isHexAddress ((hall gs c haccepts).mpr hfits)
    · intro haddress
      obtain ⟨gs, c, haccepts⟩ := haddress.accepts
      exact ⟨gs, c, [], haccepts, (hall gs c haccepts).mp haddress.not_fiveDigits⟩

theorem ipv6ToBin_hexAddress_iff_eight :
    let s := ascii "1:2:3:4:5:6:7:8"
    ((∃ out, ipv6ToBin (s ++ 0 :: []) (List.replicate 16 0) = .ok (0, out)) ↔ IsHexAddress s) ↔
      ∀ gs c, Accepts s gs c [] → (¬ FiveDigits s ↔ Fits c (2 * gs.length) 16) :=
  ipv6ToBin_hexAddress_iff (by decide) (by decide) (by decide)

/-- Without their colons, eight groups of four digits are taken and are no address. -/
theorem not_hexAddress_of_missing_colons :
    let s := ascii "11112222333344445555666677778888"
    ¬ ((∃ out, ipv6ToBin (s ++ 0 :: []) (List.replicate 16 0) = .ok (0, out)) ↔
      IsHexAddress s) := by
  intro s hiff
  have htaken : ipv6ToBin (s ++ 0 :: []) (List.replicate 16 0) =
      .ok (0, [0x11, 0x11, 0x22, 0x22, 0x33, 0x33, 0x44, 0x44, 0x55, 0x55, 0x66, 0x66, 0x77,
        0x77, 0x88, 0x88]) := by
    decide +kernel
  have hfive : FiveDigits s :=
    ⟨ascii "11112", by decide, by decide +kernel, [], ascii "222333344445555666677778888",
      by decide +kernel⟩
  exact (hiff.mp ⟨_, htaken⟩).not_fiveDigits hfive

/-- The part behind the `::` is moved past an object of sixteen bytes. -/
example : ipv6ToBin (ascii "::1" ++ [0]) (List.replicate 16 0) = .error .write := by
  decide +kernel

end Hlibc.Inet
