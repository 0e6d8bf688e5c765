import Hlibc.Ipv4Text

/-!
# What `ipv6_to_bin` reads

The loop of `ipv6_to_bin` takes one group in a pass, with what separates it from
the groups in front.  `Reads` follows the passes on the text; what the passes
store is a function of the groups, so that the state of the loop is known from
what has been read.
-/

set_option autoImplicit false

namespace Hlibc.Inet

/-! ## Groups -/

/-- One to four hexadecimal digits. -/
structure IsGroup (g : List UInt8) : Prop where
  ne_nil : g ≠ []
  length_le : g.length ≤ 4
  digits : ∀ c ∈ g, isxdigit c = true

/-- The value of digits that stand behind digits of the value `v`. -/
def hexValue (v : ℕ) (g : List UInt8) : ℕ := g.foldl (fun v c => 16 * v + (hexVal c).toNat) v

/-- The two bytes that are stored for a group. -/
def groupBytes (g : List UInt8) : List UInt8 :=
  [UInt8.ofNat (hexValue 0 g >>> 4 &&& 0xFF), UInt8.ofNat (hexValue 0 g &&& 0xFF)]

/-- The last of the groups has four digits. -/
def EndsFull (gs : List (List UInt8)) : Prop := ∃ g ∈ gs.getLast?, g.length = 4

/-- What separates the groups read from the next one.  The number of groups in front of
the `::`, if there is one, is `c` before and `c'` behind it. -/
inductive Separates (gs : List (List UInt8)) : Option ℕ → List UInt8 → Option ℕ → Prop where
  | start (h : gs = []) : Separates gs none [] none
  | colon (h : gs ≠ []) (c : Option ℕ) : Separates gs c [chr ':'] c
  /-- Behind four digits the colon may be missing. -/
  | missing (h : EndsFull gs) (c : Option ℕ) : Separates gs c [] c
  | double : Separates gs none [chr ':', chr ':'] (some gs.length)

/-- The loop takes no more groups. -/
def Full (gs : List (List UInt8)) (c : Option ℕ) : Prop :=
  8 ≤ gs.length + if c.isSome then 1 else 0

instance (gs : List (List UInt8)) (c : Option ℕ) : Decidable (Full gs c) :=
  inferInstanceAs (Decidable (_ ≤ _))

/-- The groups that stand in a text, and how many of them are in front of the `::`. -/
inductive Reads : List (List UInt8) → Option ℕ → List UInt8 → Prop where
  | start : Reads [] none []
  | group {gs : List (List UInt8)} {c c' : Option ℕ} {t sep g : List UInt8} (h : Reads gs c t)
      (hroom : ¬ Full gs c) (hsep : Separates gs c sep c') (hg : IsGroup g) :
      Reads (gs ++ [g]) c' (t ++ (sep ++ g))

theorem isxdigit_dot : isxdigit (chr '.') = false := by decide

theorem IsGroup.exists_cons {g : List UInt8} (h : IsGroup g) :
    ∃ c g', g = c :: g' ∧ isxdigit c = true := by
  obtain ⟨c, g', rfl⟩ := List.exists_cons_of_ne_nil h.ne_nil
  exact ⟨c, g', rfl, h.digits c List.mem_cons_self⟩

@[simp] theorem length_flatMap_groupBytes (gs : List (List UInt8)) :
    (gs.flatMap groupBytes).length = 2 * gs.length := by
  induction gs with
  | nil => rfl
  | cons g gs ih =>
      rw [List.flatMap_cons, List.length_append, ih, List.length_cons]
      simp only [groupBytes, List.length_cons, List.length_nil]
      omega

theorem Reads.lt_length {gs : List (List UInt8)} {k : ℕ} {t : List UInt8}
    (h : Reads gs (some k) t) : k < gs.length := by
  generalize hc : some k = c at h
  induction h with
  | start => cases hc
  | group h hroom hsep hg ih =>
      rw [List.length_append, List.length_singleton]
      cases hsep with
      | start => cases hc
      | colon => exact Nat.lt_succ_of_lt (ih hc)
      | missing => exact Nat.lt_succ_of_lt (ih hc)
      | double =>
          obtain rfl := Option.some.inj hc
          exact Nat.lt_succ_self _

/-! ## States -/

/-- The value of `comp`. -/
def compAt : Option ℕ → ℤ
  | none => -1
  | some k => (2 * k : ℕ)

/-- The variables of `ipv6_to_bin` once these groups have been read, up to `pos`. -/
def stateAt (dest : List UInt8) (gs : List (List UInt8)) (c : Option ℕ) (pos : ℕ) :
    Ipv6State where
  pos := pos
  comp := compAt c
  count := 2 * gs.length
  mapped := false
  bin := gs.flatMap groupBytes ++ dest.drop (2 * gs.length)

section States

variable {dest : List UInt8} {gs : List (List UInt8)} {c : Option ℕ} {pos : ℕ}

theorem compAt_iff : -1 < compAt c ↔ c.isSome = true := by
  cases c with
  | none => simp [compAt]
  | some k =>
      simp only [compAt, Option.isSome_some, iff_true]
      omega

theorem full_iff : 16 ≤ 2 * gs.length + (if -1 < compAt c then 2 else 0) ↔ Full gs c := by
  rw [Full]
  cases hc : c.isSome with
  | false =>
      simp [compAt_iff, hc]
      omega
  | true =>
      simp [compAt_iff, hc]
      omega

end States

/-! ## One group -/

/-- The digits behind the first one are read up to the fourth, or to another character. -/
theorem ipv6Group_eq {src g r : List UInt8} {i v pos : ℕ} (hdigits : ∀ c ∈ g, isxdigit c = true)
    (hsrc : src.drop pos = g ++ r) (hlen : i + g.length ≤ 4)
    (hends : i + g.length = 4 ∨ ∃ d r', r = d :: r' ∧ isxdigit d = false ∧ d ≠ chr '.') :
    ipv6Group src false i v pos = .ok (hexValue v g, pos + g.length, false) := by
  induction g generalizing i v pos with
  | nil =>
      rw [ipv6Group]
      rcases hends with hfour | ⟨d, r', rfl, hd, hdot⟩
      · rw [if_neg (by simp at hfour; omega)]
        rfl
      · by_cases hi : i < 4
        · have hread : readByte src pos = .ok d := readByte_of_drop hsrc
          simp [hi, hread, hd, hdot, hexValue]
        · rw [if_neg hi]
          rfl
  | cons c g ih =>
      rw [List.length_cons] at hlen hends
      have hi : i < 4 := by omega
      have hread : readByte src pos = .ok c := readByte_of_drop hsrc
      obtain ⟨hc, hg⟩ := List.forall_mem_cons.mp hdigits
      have hrest := ih (i := i + 1) (v := 16 * v + (hexVal c).toNat) hg (drop_of_cons hsrc)
        (by omega) (by
          rcases hends with hfour | hother
          · exact Or.inl (by omega)
          · exact Or.inr hother)
      rw [ipv6Group, if_pos hi, hread, Exec.ok_bind, if_pos hc, hrest, List.length_cons,
        Nat.add_assoc, Nat.add_comm 1]
      rfl

/-- Less than four digits with a dot behind them: the position goes back in front of them. -/
theorem ipv6Group_dot {src g r : List UInt8} {mapped : Bool} {i v pos : ℕ}
    (hdigits : ∀ c ∈ g, isxdigit c = true) (hsrc : src.drop pos = g ++ chr '.' :: r)
    (hlen : i + g.length < 4) :
    ∃ v', ipv6Group src mapped i v pos = .ok (v', pos - i, true) := by
  have hi : i < 4 := by omega
  induction g generalizing i v pos with
  | nil =>
      have hread : readByte src pos = .ok (chr '.') := readByte_of_drop hsrc
      refine ⟨v, ?_⟩
      rw [ipv6Group, if_pos hi, hread, Exec.ok_bind, isxdigit_dot]
      rfl
  | cons c g ih =>
      rw [List.length_cons] at hlen
      have hread : readByte src pos = .ok c := readByte_of_drop hsrc
      obtain ⟨hc, hg⟩ := List.forall_mem_cons.mp hdigits
      obtain ⟨v', hrest⟩ := ih (i := i + 1) (v := 16 * v + (hexVal c).toNat) hg
        (drop_of_cons hsrc) (by omega) (by omega)
      refine ⟨v', ?_⟩
      rw [ipv6Group, if_pos hi, hread, Exec.ok_bind, if_pos hc, hrest, Nat.add_sub_add_right]

section Digits

variable {src dest : List UInt8} {gs : List (List UInt8)} {c : Option ℕ} {pos : ℕ}

theorem ipv6Digits_invalid {d : UInt8} {w : List UInt8} (hsrc : src.drop pos = d :: w)
    (hd : isxdigit d = false) :
    ipv6Digits src (stateAt dest gs c pos) =
      .ok (.done (.invalid (stateAt dest gs c pos).bin)) := by
  have hread : readByte src (stateAt dest gs c pos).pos = .ok d := readByte_of_drop hsrc
  rw [ipv6Digits, hread, Exec.ok_bind, hd]
  rfl

/-- The two bytes of a group are written behind those of the groups in front. -/
theorem write_group (g : List UInt8) (hdest : 2 * gs.length + 2 ≤ dest.length) :
    (do
      let bin ← writeByte (gs.flatMap groupBytes ++ dest.drop (2 * gs.length)) (2 * gs.length)
        (UInt8.ofNat (hexValue 0 g >>> 4 &&& 0xFF))
      writeByte bin (2 * gs.length + 1) (UInt8.ofNat (hexValue 0 g &&& 0xFF))) =
      .ok ((gs ++ [g]).flatMap groupBytes ++ dest.drop (2 * (gs ++ [g]).length)) := by
  have hlen := length_flatMap_groupBytes gs
  have hfirst : dest.drop (2 * gs.length) =
      dest[2 * gs.length] :: dest[2 * gs.length + 1] :: dest.drop (2 * gs.length + 2) := by
    rw [List.drop_eq_getElem_cons (by omega), List.drop_eq_getElem_cons (by omega)]
  have hlength : 2 * (gs ++ [g]).length = 2 * gs.length + 2 := by
    rw [List.length_append, List.length_singleton, Nat.mul_add]
  rw [hfirst, writeByte_append hlen.symm, Exec.ok_bind, List.append_cons,
    writeByte_append (by rw [List.length_append, hlen]; rfl), hlength, List.flatMap_append,
    List.flatMap_singleton, groupBytes, List.append_assoc, List.append_assoc]
  rfl

theorem ipv6Digits_group {g r : List UInt8} (hg : IsGroup g) (hsrc : src.drop pos = g ++ r)
    (hends : g.length = 4 ∨ ∃ d r', r = d :: r' ∧ isxdigit d = false ∧ d ≠ chr '.')
    (hdest : 2 * gs.length + 2 ≤ dest.length) :
    ipv6Digits src (stateAt dest gs c pos) =
      .ok (.next (stateAt dest (gs ++ [g]) c (pos + g.length))) := by
  obtain ⟨d, g', rfl, hd⟩ := hg.exists_cons
  have hlen : (d :: g').length = g'.length + 1 := List.length_cons
  have hread : readByte src pos = .ok d := readByte_of_drop hsrc
  have hgroup : ipv6Group src false 1 (hexVal d).toNat (pos + 1) =
      .ok (hexValue 0 (d :: g'), pos + (d :: g').length, false) := by
    have hvalue : hexValue (hexVal d).toNat g' = hexValue 0 (d :: g') := by
      rw [hexValue, hexValue, List.foldl_cons, Nat.mul_zero, Nat.zero_add]
    have hfour := hg.length_le
    rw [ipv6Group_eq (fun x hx => hg.digits x (List.mem_cons_of_mem d hx)) (drop_of_cons hsrc)
      (by omega) (hends.imp_left (by omega)), hvalue, hlen, Nat.add_assoc, Nat.add_comm 1]
  have hwrite := write_group (d :: g') hdest
  rw [Exec.bind_eq_ok] at hwrite
  obtain ⟨bin, hfirst, hsecond⟩ := hwrite
  have hcount : 2 * (gs ++ [d :: g']).length = 2 * gs.length + 2 := by
    rw [List.length_append, List.length_singleton, Nat.mul_add]
  simp only [ipv6Digits, stateAt, hread, Exec.ok_bind, hd, Bool.not_true, Bool.false_eq_true,
    if_false, hgroup, hfirst, hsecond, hcount]

theorem ipv6Digits_dot {g r : List UInt8} (hg : IsGroup g)
    (hsrc : src.drop pos = g ++ chr '.' :: r) (hshort : g.length < 4) :
    ipv6Digits src (stateAt dest gs c pos) =
      ipv6Mapped src { stateAt dest gs c pos with mapped := true } := by
  obtain ⟨d, g', rfl, hd⟩ := hg.exists_cons
  have hread : readByte src pos = .ok d := readByte_of_drop hsrc
  obtain ⟨v, hgroup⟩ : ∃ v, ipv6Group src false 1 (hexVal d).toNat (pos + 1) =
      .ok (v, pos + 1 - 1, true) := by
    rw [List.length_cons] at hshort
    exact ipv6Group_dot (fun x hx => hg.digits x (List.mem_cons_of_mem d hx)) (drop_of_cons hsrc)
      (by omega)
  simp only [ipv6Digits, stateAt, hread, Exec.ok_bind, hd, Bool.not_true, Bool.false_eq_true,
    if_false, hgroup, if_true, Nat.add_sub_cancel]

end Digits

/-! ## One pass -/

section Passes

variable {src dest w : List UInt8} {gs : List (List UInt8)} {c c' : Option ℕ} {pos : ℕ}
  {d : UInt8}

theorem ipv6ToBinPass_left (hsrc : src.drop pos = d :: w) (hstop : d = 0 ∨ Full gs c) :
    ipv6ToBinPass src (stateAt dest gs c pos) = .ok (.done (.left (stateAt dest gs c pos))) := by
  have hread : readByte src pos = .ok d := readByte_of_drop hsrc
  have hcond : d = 0 ∨ 16 ≤ 2 * gs.length + (if -1 < compAt c then 2 else 0) :=
    hstop.imp_right full_iff.mpr
  simp only [ipv6ToBinPass, stateAt, hread, Exec.ok_bind]
  exact if_pos hcond

theorem ipv6ToBinPass_none (hroom : ¬ Full gs c) (hsrc : src.drop pos = d :: w) (hzero : d ≠ 0)
    (hcolon : d ≠ chr ':') :
    ipv6ToBinPass src (stateAt dest gs c pos) = ipv6Digits src (stateAt dest gs c pos) := by
  have hread : readByte src pos = .ok d := readByte_of_drop hsrc
  have hcond : ¬ (d = 0 ∨ 16 ≤ 2 * gs.length + (if -1 < compAt c then 2 else 0)) :=
    not_or.mpr ⟨hzero, mt full_iff.mp hroom⟩
  simp only [ipv6ToBinPass, stateAt, hread, Exec.ok_bind, if_neg hcolon]
  exact if_neg hcond

theorem ipv6ToBinPass_colon (hroom : ¬ Full gs c) (hsrc : src.drop pos = chr ':' :: d :: w)
    (hcolon : d ≠ chr ':') :
    ipv6ToBinPass src (stateAt dest gs c pos) = ipv6Digits src (stateAt dest gs c (pos + 1)) := by
  have hread : readByte src pos = .ok (chr ':') := readByte_of_drop hsrc
  have hnext : readByte src (pos + 1) = .ok d := readByte_of_drop (drop_of_cons hsrc)
  have hcond : ¬ (chr ':' = 0 ∨ 16 ≤ 2 * gs.length + (if -1 < compAt c then 2 else 0)) :=
    not_or.mpr ⟨by decide, mt full_iff.mp hroom⟩
  simp only [ipv6ToBinPass, stateAt, hread, Exec.ok_bind, if_true, hnext, if_neg hcolon]
  exact if_neg hcond

theorem ipv6ToBinPass_second (hroom : ¬ Full gs c)
    (hsrc : src.drop pos = chr ':' :: chr ':' :: w) (hc : c.isSome = true) :
    ipv6ToBinPass src (stateAt dest gs c pos) =
      .ok (.done (.invalid (stateAt dest gs c pos).bin)) := by
  have hread : readByte src pos = .ok (chr ':') := readByte_of_drop hsrc
  have hnext : readByte src (pos + 1) = .ok (chr ':') := readByte_of_drop (drop_of_cons hsrc)
  have hcond : ¬ (chr ':' = 0 ∨ 16 ≤ 2 * gs.length + (if -1 < compAt c then 2 else 0)) :=
    not_or.mpr ⟨by decide, mt full_iff.mp hroom⟩
  simp only [ipv6ToBinPass, stateAt, hread, Exec.ok_bind, if_true, hnext,
    if_pos (compAt_iff.mpr hc)]
  exact if_neg hcond

theorem ipv6ToBinPass_double (hroom : ¬ Full gs none)
    (hsrc : src.drop pos = chr ':' :: chr ':' :: d :: w) :
    ipv6ToBinPass src (stateAt dest gs none pos) =
      if d = 0 then .ok (.done (.left (stateAt dest gs (some gs.length) (pos + 2))))
      else ipv6Digits src (stateAt dest gs (some gs.length) (pos + 2)) := by
  have hread : readByte src pos = .ok (chr ':') := readByte_of_drop hsrc
  have hnext : readByte src (pos + 1) = .ok (chr ':') := readByte_of_drop (drop_of_cons hsrc)
  have hlast : readByte src (pos + 1 + 1) = .ok d :=
    readByte_of_drop (drop_of_cons (drop_of_cons hsrc))
  have hcond : ¬ (chr ':' = 0 ∨ 16 ≤ 2 * gs.length + (if -1 < compAt none then 2 else 0)) :=
    not_or.mpr ⟨by decide, mt full_iff.mp hroom⟩
  have hnone : ¬ -1 < compAt none := by decide
  simp only [ipv6ToBinPass, stateAt, hread, Exec.ok_bind, if_true, hnext, if_neg hnone, hlast]
  exact if_neg hcond

/-- What separates a group from those in front is read with its first digit. -/
theorem ipv6ToBinPass_separates {sep : List UInt8} (hroom : ¬ Full gs c)
    (hsep : Separates gs c sep c') (hsrc : src.drop pos = sep ++ d :: w)
    (hd : isxdigit d = true) :
    ipv6ToBinPass src (stateAt dest gs c pos) =
      ipv6Digits src (stateAt dest gs c' (pos + sep.length)) := by
  have hzero : d ≠ 0 := by
    rintro rfl
    exact absurd hd (by decide)
  have hcolon : d ≠ chr ':' := by
    rintro rfl
    exact absurd hd (by decide)
  cases hsep with
  | start h => exact ipv6ToBinPass_none hroom hsrc hzero hcolon
  | colon h c => exact ipv6ToBinPass_colon hroom hsrc hcolon
  | missing h c => exact ipv6ToBinPass_none hroom hsrc hzero hcolon
  | double =>
      rw [ipv6ToBinPass_double hroom hsrc, if_neg hzero]
      rfl

end Passes

/-! ## Texts that are read -/

/-- The character behind a group ends it. -/
def Ends (g r : List UInt8) : Prop :=
  g.length = 4 ∨ ∃ d r', r = d :: r' ∧ isxdigit d = false ∧ d ≠ chr '.'

theorem Separates.ends {gs : List (List UInt8)} {c c' : Option ℕ} {sep l : List UInt8}
    (hsep : Separates gs c sep c') (hl : l ∈ gs.getLast?) (r : List UInt8) :
    Ends l (sep ++ r) := by
  cases hsep with
  | start hnil =>
      rw [hnil] at hl
      cases hl
  | colon h c => exact Or.inr ⟨chr ':', r, rfl, by decide, by decide⟩
  | missing hfull c =>
      obtain ⟨l', hl', hfour⟩ := hfull
      obtain rfl := Option.mem_unique hl hl'
      exact Or.inl hfour
  | double => exact Or.inr ⟨chr ':', chr ':' :: r, rfl, by decide, by decide⟩

/-- The loop reads a text that follows the rules, in front of a character that ends the
last group. -/
theorem Reads.run {src dest : List UInt8} {gs : List (List UInt8)} {c : Option ℕ}
    {t : List UInt8} (h : Reads gs c t) (hdest : 16 ≤ dest.length) {r : List UInt8}
    (hsrc : src = t ++ r) (hends : ∀ g ∈ gs.getLast?, Ends g r) (budget : ℕ) :
    loop (ipv6ToBinPass src) (gs.length + budget) (stateAt dest [] none 0) =
      loop (ipv6ToBinPass src) budget (stateAt dest gs c t.length) := by
  induction h generalizing r budget with
  | start => rw [List.length_nil, Nat.zero_add]; rfl
  | @group gs c c' t sep g h hroom hsep hg ih =>
      obtain ⟨d, g', rfl, hd⟩ := hg.exists_cons
      have hdrop : src.drop t.length = sep ++ (d :: g' ++ r) := by
        rw [hsrc, List.append_assoc, List.drop_left, List.append_assoc]
      have hbefore : ∀ l ∈ gs.getLast?, Ends l (sep ++ (d :: g') ++ r) := by
        intro l hl
        rw [List.append_assoc]
        exact hsep.ends hl _
      have hcount : 2 * gs.length + 2 ≤ dest.length := by
        rw [Full, Nat.not_le] at hroom
        omega
      have hpass : ipv6ToBinPass src (stateAt dest gs c t.length) =
          .ok (.next (stateAt dest (gs ++ [d :: g']) c' (t ++ (sep ++ d :: g')).length)) := by
        rw [ipv6ToBinPass_separates hroom hsep hdrop hd,
          ipv6Digits_group hg (drop_of_append hdrop) (hends (d :: g') (by simp)) hcount,
          List.length_append, List.length_append, Nat.add_assoc]
      rw [List.length_append, List.length_singleton, Nat.add_assoc, Nat.add_comm 1,
        ih (by rw [hsrc, List.append_assoc]) hbefore, loop_next hpass]

/-! ## Dotted quads -/

/-- The groups are those in front of a mapped address: zeros, and two bytes `0xFF`. -/
def Mapped (gs : List (List UInt8)) : Prop :=
  ∃ n ≤ 5, gs.flatMap groupBytes = List.replicate (2 * n) 0 ++ [0xFF, 0xFF]

/-- Behind the groups and this separator a dotted quad may stand. -/
structure TakesQuad (gs : List (List UInt8)) (c : Option ℕ) (sep : List UInt8) : Prop where
  room : ¬ Full gs c
  separates : Separates gs c sep c
  mapped : Mapped gs

theorem Mapped.ne_nil {gs : List (List UInt8)} (h : Mapped gs) : gs ≠ [] := by
  rintro rfl
  obtain ⟨n, -, hbytes⟩ := h
  cases n <;> cases hbytes

theorem Mapped.length_le {gs : List (List UInt8)} (h : Mapped gs) : gs.length ≤ 6 := by
  obtain ⟨n, hn, hbytes⟩ := h
  have hlen := congrArg List.length hbytes
  rw [length_flatMap_groupBytes, List.length_append, List.length_replicate] at hlen
  simp only [List.length_cons, List.length_nil] at hlen
  omega

theorem anyNonzero_eq (pre front rest : List UInt8) :
    anyNonzero (pre ++ (front ++ rest)) pre.length front.length =
      .ok (front.any (· != 0)) := by
  induction front generalizing pre with
  | nil => rfl
  | cons b front ih =>
      have hread : readByte (pre ++ (b :: front ++ rest)) pre.length = .ok b :=
        readByte_length_eq_ok.mpr ⟨front ++ rest, rfl⟩
      have hrest := ih (pre ++ [b])
      rw [List.append_assoc, List.length_append, List.length_singleton] at hrest
      rw [List.length_cons, anyNonzero, hread, List.any_cons]
      simp only [List.cons_append, List.nil_append] at hrest ⊢
      rw [hrest]
      by_cases hb : b = 0
      · simp [orElse, hb]
      · simp [orElse, hb]

section Quads

variable {src dest : List UInt8} {gs : List (List UInt8)} {c : Option ℕ} {pos : ℕ}

theorem compAt_eq_count :
    (compAt c == ((2 * gs.length : ℕ) : ℤ)) = decide (c = some gs.length) := by
  cases c with
  | none =>
      rw [Bool.eq_iff_iff, beq_iff_eq, decide_eq_true_eq, compAt]
      constructor
      · intro h
        omega
      · intro h
        cases h
  | some k =>
      rw [Bool.eq_iff_iff, beq_iff_eq, decide_eq_true_eq, compAt, Option.some_inj]
      omega

/-- The last two bytes of the groups, and those in front. -/
theorem exists_last_bytes (hne : gs ≠ []) :
    ∃ front a b, gs.flatMap groupBytes = front ++ [a, b] ∧ front.length + 2 = 2 * gs.length := by
  obtain ⟨gs', g, rfl⟩ : ∃ gs' g, gs = gs' ++ [g] :=
    ⟨gs.dropLast, gs.getLast hne, (List.dropLast_concat_getLast hne).symm⟩
  refine ⟨gs'.flatMap groupBytes, UInt8.ofNat (hexValue 0 g >>> 4 &&& 0xFF),
    UInt8.ofNat (hexValue 0 g &&& 0xFF), ?_, ?_⟩
  · rw [List.flatMap_append, List.flatMap_singleton]
    rfl
  · rw [length_flatMap_groupBytes, List.length_append, List.length_singleton, Nat.mul_add]

theorem mapped_iff {front : List UInt8} {a b : UInt8}
    (hbytes : gs.flatMap groupBytes = front ++ [a, b]) (hlen : front.length + 2 = 2 * gs.length) :
    Mapped gs ↔ 2 * gs.length ≤ 12 ∧ b = 0xFF ∧ a = 0xFF ∧ front.any (· != 0) = false := by
  constructor
  · rintro ⟨n, hn, hzeros⟩
    rw [hbytes] at hzeros
    obtain ⟨hfront, hlast⟩ := List.append_inj' hzeros rfl
    obtain ⟨ha, hlast⟩ := List.cons.inj hlast
    obtain ⟨hb, -⟩ := List.cons.inj hlast
    rw [hfront, List.length_replicate] at hlen
    refine ⟨by omega, hb, ha, ?_⟩
    rw [List.any_eq_false]
    intro x hx
    rw [hfront] at hx
    simp [List.eq_of_mem_replicate hx]
  · rintro ⟨hcount, rfl, rfl, hzeros⟩
    refine ⟨gs.length - 1, by omega, ?_⟩
    rw [hbytes]
    have hfront : front = List.replicate front.length 0 := by
      rw [List.eq_replicate_iff]
      refine ⟨rfl, fun x hx => ?_⟩
      simpa using List.any_eq_false.mp hzeros x hx
    rw [show 2 * (gs.length - 1) = front.length by omega, ← hfront]

/-- How the loop ends in front of a dotted quad, once the groups have been checked. -/
def quadExit (src : List UInt8) (st : Ipv6State) : Exec Ipv6Exit := do
  let (code, bin) ← ipv4ToBin src st.pos st.bin st.count
  if code ≠ 0 then .ok (.invalid bin)
  else .ok (.left { st with bin := bin, count := st.count + 4 })

theorem quadExit_left {src bin : List UInt8} {st : Ipv6State}
    (h : ipv4ToBin src st.pos st.bin st.count = .ok (0, bin)) :
    quadExit src st = .ok (.left { st with bin := bin, count := st.count + 4 }) := by
  rw [quadExit, h]
  rfl

theorem quadExit_invalid {src bin : List UInt8} {st : Ipv6State} {code : ℤ}
    (h : ipv4ToBin src st.pos st.bin st.count = .ok (code, bin)) (hcode : code ≠ 0) :
    quadExit src st = .ok (.invalid bin) := by
  rw [quadExit, h, Exec.ok_bind]
  exact if_pos hcode

theorem quadExit_error {src : List UInt8} {st : Ipv6State} {e : Fault}
    (h : ipv4ToBin src st.pos st.bin st.count = .error e) : quadExit src st = .error e := by
  rw [quadExit, h, Exec.error_bind]

theorem done_quadExit (src : List UInt8) (st : Ipv6State) :
    (Pass.done <$> quadExit src st : Exec (Pass Ipv6State Ipv6Exit)) = (do
      let (code, bin) ← ipv4ToBin src st.pos st.bin st.count
      if code ≠ 0 then .ok (.done (.invalid bin))
      else .ok (.done (.left { st with bin := bin, count := st.count + 4 }))) := by
  rw [quadExit]
  cases ipv4ToBin src st.pos st.bin st.count with
  | error e => rfl
  | ok res =>
      by_cases hcode : res.1 = 0
      · simp [hcode]
      · simp [hcode]

/-- The checks in front of a dotted quad: the groups are those of a mapped address, and
not all of them stand in front of the `::`. -/
theorem ipv6Mapped_eq (src dest : List UInt8) (gs : List (List UInt8)) (c : Option ℕ) (pos : ℕ) :
    ipv6Mapped src { stateAt dest gs c pos with mapped := true } =
        Pass.done <$> quadExit src { stateAt dest gs c pos with mapped := true } ∧
      Mapped gs ∧ c ≠ some gs.length ∨
    ipv6Mapped src { stateAt dest gs c pos with mapped := true } =
        .ok (.done (.invalid (stateAt dest gs c pos).bin)) ∧
      ¬ (Mapped gs ∧ c ≠ some gs.length) := by
  by_cases hne : gs = []
  · right
    refine ⟨?_, fun h => h.1.ne_nil hne⟩
    subst hne
    rfl
  obtain ⟨front, a, b, hbytes, hlen⟩ := exists_last_bytes hne
  rw [mapped_iff hbytes hlen]
  have hlast : readByte (gs.flatMap groupBytes ++ dest.drop (2 * gs.length))
      (2 * gs.length - 1) = .ok b := by
    rw [hbytes, List.append_assoc, ← hlen, Nat.add_sub_assoc (by decide), readByte_append_add]
    rfl
  have hprevious : readByte (gs.flatMap groupBytes ++ dest.drop (2 * gs.length))
      (2 * gs.length - 2) = .ok a := by
    rw [hbytes, List.append_assoc, ← hlen, Nat.add_sub_cancel, readByte_length_eq_ok]
    exact ⟨_, rfl⟩
  have hfront : anyNonzero (gs.flatMap groupBytes ++ dest.drop (2 * gs.length)) 0
      (2 * gs.length - 2) = .ok (front.any (· != 0)) := by
    rw [hbytes, List.append_assoc, ← hlen, Nat.add_sub_cancel]
    exact anyNonzero_eq [] front _
  have hcount : ¬ 2 * gs.length < 2 := by
    have := List.length_pos_iff.mpr hne
    omega
  rw [done_quadExit]
  simp only [ipv6Mapped, stateAt, hcount, hlast, hprevious, hfront, compAt_eq_count]
  by_cases hlarge : 12 < 2 * gs.length
  · right
    refine ⟨by simp [orElse, hlarge], ?_⟩
    rintro ⟨⟨hsmall, -⟩, -⟩
    exact Nat.not_lt_of_le hsmall hlarge
  by_cases hb : b = 0xFF
  swap
  · right
    simp [orElse, hlarge, hb]
  by_cases ha : a = 0xFF
  swap
  · right
    simp [orElse, hlarge, hb, ha]
  by_cases hc : c = some gs.length
  · right
    simp [orElse, hlarge, hb, ha, hc]
  cases hany : front.any (· != 0) with
  | true =>
      right
      simp [orElse, hlarge, hb, ha, hc]
  | false =>
      left
      exact ⟨by simp [orElse, hlarge, hb, ha, hc], ⟨Nat.le_of_not_lt hlarge, hb, ha, rfl⟩, hc⟩

/-- Behind the groups of a mapped address, the loop ends at the first number. -/
theorem Reads.run_quad {t sep g r : List UInt8} (h : Reads gs c t) (htakes : TakesQuad gs c sep)
    (hdest : 16 ≤ dest.length) (hg : IsGroup g) (hshort : g.length < 4)
    (hsrc : src = t ++ (sep ++ (g ++ chr '.' :: r))) :
    loop (ipv6ToBinPass src) 9 (stateAt dest [] none 0) =
      quadExit src { stateAt dest gs c (t ++ sep).length with mapped := true } := by
  obtain ⟨d, g', rfl, hd⟩ := hg.exists_cons
  have hlen := htakes.mapped.length_le
  obtain ⟨budget, hbudget⟩ : ∃ budget, 9 = gs.length + (budget + 1) :=
    ⟨8 - gs.length, by omega⟩
  have hdrop : src.drop t.length = sep ++ (d :: g' ++ chr '.' :: r) := by
    rw [hsrc, List.drop_left]
  have hbehind : c ≠ some gs.length := by
    rintro rfl
    exact Nat.lt_irrefl _ h.lt_length
  rw [hbudget, h.run hdest hsrc (fun l hl => htakes.separates.ends hl _)]
  refine loop_exit ?_ budget
  rw [ipv6ToBinPass_separates htakes.room htakes.separates hdrop hd,
    ipv6Digits_dot hg (drop_of_append hdrop) hshort, List.length_append]
  rcases ipv6Mapped_eq src dest gs c (t.length + sep.length) with ⟨heq, -⟩ | ⟨-, hnot⟩
  · exact heq
  · exact absurd ⟨htakes.mapped, hbehind⟩ hnot

end Quads

end Hlibc.Inet
