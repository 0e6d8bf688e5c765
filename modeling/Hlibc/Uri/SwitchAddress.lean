import Hlibc.Uri.AddressRules
import Hlibc.Uri.Safety
import Hlibc.Uri.Switch

/-!
# The addresses of `uri_switch.c`

`parse_ipv6` asks for no colon between groups, takes one in front of the first group and
behind the last, and counts three groups for an IPv4 address, whose first number it has taken
for a group before.
-/

set_option autoImplicit false

namespace Hlibc.Uri.Switch

open Grammar Inet

/-! ## Rules -/

/-- Colons in front of a group; two of them are the compression. -/
inductive Colons : Bool → List UInt8 → Bool → Prop
  | none {comp : Bool} : Colons comp [] comp
  | one {comp : Bool} : Colons comp [chr ':'] comp
  | two : Colons false [chr ':', chr ':'] true

/-- The number of groups that is counted fits the address. -/
def Fits (comp : Bool) (count : ℕ) : Prop := if comp then count < 8 else 8 ≤ count

/-- The text up to the bracket, behind `count` groups. -/
inductive Groups : Bool → ℕ → List UInt8 → Prop
  | stop {comp : Bool} {count : ℕ} (hfits : Fits comp count) : Groups comp count []
  | close {comp comp' : Bool} {count : ℕ} {l : List UInt8} (hroom : comp.toNat + count < 8)
      (hl : Colons comp l comp') (hfits : Fits comp' count) : Groups comp count l
  | group {comp comp' : Bool} {count : ℕ} {l g t : List UInt8} (hroom : comp.toNat + count < 8)
      (hl : Colons comp l comp') (hg : IsGroup g) (hends : GroupEnds g t)
      (ht : Groups comp' (count + 1) t) : Groups comp count (l ++ (g ++ t))
  | address {comp comp' : Bool} {count : ℕ} {l p : List UInt8}
      (hroom : comp.toNat + count < 8) (hl : Colons comp l comp')
      (hp : DottedFront (10 * ·) 3 p []) (hroom' : comp'.toNat + (count + 1) < 8)
      (hfits : Fits comp' (count + 3)) : Groups comp count (l ++ p)

/-- The text up to the bracket starts with no letter that is not a digit. -/
theorem Groups.headD_ne {comp : Bool} {count : ℕ} {t : List UInt8} (ht : Groups comp count t)
    (r : List UInt8) : (t ++ chr ']' :: r).headD 0 ≠ chr 'v' := by
  have hfront : ∀ {l w comp'}, Colons comp l comp' → w.headD 0 ≠ chr 'v' →
      (l ++ w).headD 0 ≠ chr 'v' := by
    intro l w comp' hl hw
    cases hl with
    | none => exact hw
    | one => exact (by decide : chr ':' ≠ chr 'v')
    | two => exact (by decide : chr ':' ≠ chr 'v')
  cases ht with
  | stop hfits => exact (by decide : chr ']' ≠ chr 'v')
  | close hroom hl hfits => exact hfront hl (by decide : chr ']' ≠ chr 'v')
  | group hroom hl hg hends ht =>
      rw [List.append_assoc, List.append_assoc]
      refine hfront hl fun hv => ?_
      obtain ⟨c, g, rfl, hc⟩ := hg.exists_cons
      obtain rfl : c = chr 'v' := hv
      exact absurd hc (by decide)
  | @address _ _ _ l p hroom hl hp hroom' hfits =>
      rw [List.append_assoc]
      refine hfront hl fun hv => ?_
      obtain ⟨c, p, rfl⟩ := List.exists_cons_of_ne_nil hp.ne_nil
      obtain rfl : c = chr 'v' := hv
      exact absurd (hp.chars _ List.mem_cons_self) (by decide)

/-! ## IPv4 -/

section Ipv4

variable {src w p r : List UInt8} {pos : ℕ}

theorem parseIpv4_eq (h : StringAt src pos (p ++ r)) (hp : DottedFront (10 * ·) 3 p r) :
    parseIpv4 src pos = .ok (0, pos + p.length) := by
  rw [parseIpv4, octetsScan_eq h hp]
  rfl

theorem parseIpv4_cases (h : StringAt src pos w) :
    parseIpv4 src pos = .ok (EINVAL, pos) ∧ (¬ ∃ p r, w = p ++ r ∧ DottedFront (10 * ·) 3 p r) ∨
      ∃ p r, w = p ++ r ∧ DottedFront (10 * ·) 3 p r ∧
        parseIpv4 src pos = .ok (0, pos + p.length) := by
  obtain ⟨res, hscan, hres⟩ := octetsScan_sound (10 * ·) h
  cases res with
  | none =>
      refine Or.inl ⟨by rw [parseIpv4, hscan]; rfl, ?_⟩
      rintro ⟨p, r, rfl, hp⟩
      rw [octetsScan_eq h hp] at hscan
      cases hscan
  | some q =>
      obtain ⟨p, r, rfl, hp, rfl⟩ := hres q rfl
      exact Or.inr ⟨p, r, rfl, hp, by rw [parseIpv4, hscan]; rfl⟩

end Ipv4

/-! ## IPv6 -/

/-- What `parse_ipv6` does behind its loop: the position behind the address. -/
def ipv6Check (src : List UInt8) : Option Ipv6State → Exec (Option ℕ)
  | none => .ok none
  | some st => do
      let c ← readByte src st.pos
      if c ≠ chr ']' ∨ (if st.comp then 8 ≤ st.count else st.count < 8) then .ok none
      else .ok (some (st.pos + 1))

section Ipv6

variable {src w l g p t r : List UInt8} {pos last count : ℕ} {comp comp' : Bool}

theorem ipv6Check_eq (h : StringAt src pos (chr ']' :: r)) (hfits : Fits comp count) :
    ipv6Check src (some { pos := pos, last := last, comp := comp, count := count }) =
      .ok (some (pos + 1)) := by
  have hread : readByte src pos = .ok (chr ']') := h.read
  have hcount : ¬ (if comp = true then 8 ≤ count else count < 8) := by
    rw [Fits] at hfits
    split at hfits <;> simp_all
  simp [ipv6Check, hread, hcount]

theorem ipv6Check_sound (last : ℕ) (comp : Bool) (count : ℕ) (h : StringAt src pos w) :
    ∃ res, ipv6Check src (some { pos := pos, last := last, comp := comp, count := count }) =
      .ok res ∧ ∀ q ∈ res, ∃ r, w = chr ']' :: r ∧ Fits comp count ∧ q = pos + 1 := by
  by_cases hbad : w.headD 0 ≠ chr ']' ∨ (if comp = true then 8 ≤ count else count < 8)
  · exact ⟨none, by simp only [ipv6Check, h.read, Exec.ok_bind, if_pos hbad], by simp⟩
  · refine ⟨some (pos + 1), by simp only [ipv6Check, h.read, Exec.ok_bind, if_neg hbad], ?_⟩
    rw [not_or, not_not] at hbad
    obtain ⟨r, rfl⟩ := exists_cons_of_headD hbad.1 (by decide)
    rintro _ ⟨⟩
    refine ⟨r, rfl, ?_, rfl⟩
    rw [Fits]
    split <;> simp_all

/-- A text starts with colons that a pass takes, or with a second compression. -/
theorem colons_cases (comp : Bool) (w : List UInt8) :
    (comp = true ∧ ∃ r, w = chr ':' :: chr ':' :: r) ∨ ∃ l r comp', w = l ++ r ∧
      Colons comp l comp' ∧ (l.length < 2 → r.headD 0 ≠ chr ':') := by
  by_cases hfirst : w.headD 0 = chr ':'
  · obtain ⟨w, rfl⟩ := exists_cons_of_headD hfirst (by decide)
    by_cases hsecond : w.headD 0 = chr ':'
    · obtain ⟨w, rfl⟩ := exists_cons_of_headD hsecond (by decide)
      cases comp with
      | true => exact Or.inl ⟨rfl, w, rfl⟩
      | false =>
          exact Or.inr ⟨[chr ':', chr ':'], w, true, rfl, .two, fun hlt => absurd hlt (by decide)⟩
    · exact Or.inr ⟨[chr ':'], w, comp, rfl, .one, fun _ => hsecond⟩
  · exact Or.inr ⟨[], w, comp, rfl, .none, fun _ => hfirst⟩

theorem ipv6Pass_twice (h : StringAt src pos (chr ':' :: chr ':' :: r))
    (hroom : true.toNat + count < 8) :
    ipv6Pass src { pos := pos, last := last, comp := true, count := count } =
      .ok (.done none) := by
  have hread : readByte src pos = .ok (chr ':') := h.read
  have hsecond : readByte src (pos + 1) = .ok (chr ':') := h.tail.read
  simp only [ipv6Pass, if_pos hroom, hread, hsecond, Exec.ok_bind, if_true]

/-- Behind the colons, a pass takes the bracket or a group. -/
theorem ipv6Pass_colons (last : ℕ) (h : StringAt src pos (l ++ w))
    (hroom : comp.toNat + count < 8) (hl : Colons comp l comp')
    (hcolon : l.length < 2 → w.headD 0 ≠ chr ':') (hdot : l = [] → w.headD 0 ≠ chr '.') :
    ipv6Pass src { pos := pos, last := last, comp := comp, count := count } =
      ipv6Group src { pos := pos + l.length, last := last, comp := comp', count := count } := by
  have hbehind := h.append.read
  cases hl with
  | none =>
      rw [List.length_nil, Nat.add_zero] at hbehind
      simp only [ipv6Pass, if_pos hroom, hbehind, Exec.ok_bind, if_neg (hcolon (by decide)),
        if_neg (hdot rfl)]
      rfl
  | one =>
      have hread : readByte src pos = .ok (chr ':') := h.read
      rw [List.length_singleton] at hbehind
      simp only [ipv6Pass, if_pos hroom, hread, hbehind, Exec.ok_bind, if_true,
        if_neg (hcolon (by decide))]
      rfl
  | two =>
      have hread : readByte src pos = .ok (chr ':') := h.read
      have hsecond : readByte src (pos + 1) = .ok (chr ':') := h.tail.read
      simp only [ipv6Pass, if_pos hroom, hread, hsecond, Exec.ok_bind, if_true,
        Bool.false_eq_true, if_false]
      rfl

/-- A dot sends a pass back to the group in front of it. -/
theorem ipv6Pass_dot {res : ℤ × ℕ} (h : StringAt src pos (chr '.' :: w))
    (hroom : comp.toNat + count < 8) (hres : parseIpv4 src last = .ok res) :
    ipv6Pass src { pos := pos, last := last, comp := comp, count := count } =
      .ok (.done (if res.1 ≠ 0 then none
        else some { pos := res.2, last := last, comp := comp, count := count + 2 })) := by
  have hread : readByte src pos = .ok (chr '.') := h.read
  have hcolon : ¬ chr '.' = chr ':' := by decide
  simp only [ipv6Pass, if_pos hroom, hread, Exec.ok_bind, if_neg hcolon, if_true, hres]
  split <;> rfl

theorem ipv6Pass_full (hfull : ¬ comp.toNat + count < 8) :
    ipv6Pass src { pos := pos, last := last, comp := comp, count := count } =
      .ok (.done (some { pos := pos, last := last, comp := comp, count := count })) := by
  simp only [ipv6Pass, if_neg hfull]

theorem ipv6Group_bracket (h : StringAt src pos (chr ']' :: r)) :
    ipv6Group src { pos := pos, last := last, comp := comp, count := count } =
      .ok (.done (some { pos := pos, last := last, comp := comp, count := count })) := by
  have hread : readByte src pos = .ok (chr ']') := h.read
  simp only [ipv6Group, hread, Exec.ok_bind, if_true]

theorem ipv6Group_none (h : StringAt src pos w) (hdigit : startsChar isxdigit w = false)
    (hbracket : w.headD 0 ≠ chr ']') :
    ipv6Group src { pos := pos, last := last, comp := comp, count := count } =
      .ok (.done none) := by
  rw [startsChar_headD (by decide)] at hdigit
  simp only [ipv6Group, h.read, Exec.ok_bind, if_neg hbracket, hlibIsxdigit_eq, hdigit,
    Bool.false_eq_true, if_false]

theorem ipv6Group_group (h : StringAt src pos (g ++ r)) (hg : IsGroup g) (hends : GroupEnds g r) :
    ipv6Group src { pos := pos, last := last, comp := comp, count := count } =
      .ok (.next { pos := pos + g.length, last := pos, comp := comp, count := count + 1 }) := by
  obtain ⟨c, hread, hdigit, hscan⟩ := hexScan_group h hg hends
  have hbracket : c ≠ chr ']' := by
    rintro rfl
    rw [hlibIsxdigit_eq] at hdigit
    exact absurd hdigit (by decide)
  simp only [ipv6Group, hread, Exec.ok_bind, if_neg hbracket, hdigit, if_true, hscan]

/-- `parse_ipv6` behind its first bracket. -/
def ipv6Run (src : List UInt8) (budget : ℕ) (st : Ipv6State) : Exec (Option ℕ) := do
  let res ← loop (ipv6Pass src) budget st
  ipv6Check src res

theorem ipv6Run_next {budget : ℕ} {st st' : Ipv6State} (h : ipv6Pass src st = .ok (.next st')) :
    ipv6Run src (budget + 1) st = ipv6Run src budget st' := by
  rw [ipv6Run, loop_next h, ipv6Run]

theorem ipv6Run_done {budget : ℕ} {st : Ipv6State} {res : Option Ipv6State}
    (h : ipv6Pass src st = .ok (.done res)) :
    ipv6Run src (budget + 1) st = ipv6Check src res := by
  rw [ipv6Run, loop_done h, Exec.ok_bind]

theorem ipv6Pass_group (h : StringAt src pos (l ++ (g ++ r))) (hroom : comp.toNat + count < 8)
    (hl : Colons comp l comp') (hg : IsGroup g) (hends : GroupEnds g r) :
    ipv6Pass src { pos := pos, last := last, comp := comp, count := count } =
      .ok (.next { pos := pos + (l ++ g).length, last := pos + l.length, comp := comp',
                   count := count + 1 }) := by
  have hdigit := headD_group hg r
  have hne : ∀ k, isxdigit k = false → (g ++ r).headD 0 ≠ k := by
    rintro k hk rfl
    exact absurd hdigit (by simp only [hk, Bool.false_eq_true, not_false_eq_true])
  rw [ipv6Pass_colons last h hroom hl (fun _ => hne _ (by decide)) (fun _ => hne _ (by decide)),
    ipv6Group_group h.append hg hends, List.length_append, Nat.add_assoc]

theorem ipv6Run_eq {budget : ℕ} (ht : Groups comp count t)
    (h : StringAt src pos (t ++ chr ']' :: r)) (hbudget : 8 < budget + comp.toNat + count)
    (hpos : 0 < budget) :
    ipv6Run src budget { pos := pos, last := last, comp := comp, count := count } =
      .ok (some (pos + t.length + 1)) := by
  obtain ⟨budget, rfl⟩ : ∃ k, budget = k + 1 := ⟨budget - 1, by omega⟩
  have hbracket : (chr ']' :: r).headD 0 ≠ chr ':' ∧ (chr ']' :: r).headD 0 ≠ chr '.' := by
    rw [List.headD_cons]
    decide
  induction ht generalizing pos last budget with
  | @stop comp count hfits =>
      have hpass : ipv6Pass src { pos := pos, last := last, comp := comp, count := count } =
          .ok (.done (some { pos := pos, last := last, comp := comp, count := count })) := by
        by_cases hroom : comp.toNat + count < 8
        · rw [ipv6Pass_colons last (l := []) h hroom .none (fun _ => hbracket.1)
            (fun _ => hbracket.2)]
          exact ipv6Group_bracket h
        · exact ipv6Pass_full hroom
      rw [ipv6Run_done hpass]
      exact ipv6Check_eq h hfits
  | close hroom hl hfits =>
      have hpass := ipv6Pass_colons last h hroom hl (fun _ => hbracket.1)
        (fun _ => hbracket.2)
      rw [ipv6Group_bracket h.append] at hpass
      rw [ipv6Run_done hpass]
      exact ipv6Check_eq h.append hfits
  | @group comp comp' count l g t hroom hl hg hends ht ih =>
      rw [List.append_assoc, List.append_assoc] at h
      have hends' : GroupEnds g (t ++ chr ']' :: r) := by
        intro hlt
        have hstop := hends hlt
        cases t with
        | nil => exact (by decide : isxdigit (chr ']') = false)
        | cons c t => exact hstop
      have hle : comp.toNat ≤ comp'.toNat := by cases hl <;> simp
      obtain ⟨budget, rfl⟩ : ∃ k, budget = k + 1 := ⟨budget - 1, by omega⟩
      rw [ipv6Run_next (ipv6Pass_group h hroom hl hg hends')]
      have hbehind : StringAt src (pos + (l ++ g).length) (t ++ chr ']' :: r) := by
        rw [← List.append_assoc] at h
        exact h.append
      rw [ih hbehind budget (by omega) (by omega)]
      simp only [List.length_append]
      congr 3
      omega
  | @address comp comp' count l p hroom hl hp hroom' hfits =>
      obtain ⟨o, p', ho, rfl, hp'⟩ := id hp
      rw [List.append_assoc] at h
      have hquad : DottedFront (10 * ·) 3 (o ++ chr '.' :: p') (chr ']' :: r) :=
        hp.congr fun _ => (by decide : isdigit (chr ']') = false)
      have hres := parseIpv4_eq h.append hquad
      have hle : comp.toNat ≤ comp'.toNat := by cases hl <;> simp
      obtain ⟨budget, rfl⟩ : ∃ k, budget = k + 1 := ⟨budget - 1, by omega⟩
      have hbehind := h.append.append
      rw [List.append_assoc, List.cons_append] at h
      have hdot : StringAt src (pos + (l ++ o).length) (chr '.' :: (p' ++ chr ']' :: r)) := by
        rw [← List.append_assoc] at h
        exact h.append
      rw [ipv6Run_next (ipv6Pass_group h hroom hl ho.isGroup fun _ =>
        (by decide : isxdigit (chr '.') = false))]
      obtain ⟨budget, rfl⟩ : ∃ k, budget = k + 1 := ⟨budget - 1, by omega⟩
      rw [ipv6Run_done (ipv6Pass_dot hdot hroom' hres)]
      simp only [ne_eq, not_true_eq_false, if_false]
      rw [ipv6Check_eq hbehind hfits]
      simp only [List.length_append]
      congr 3
      omega

/-- A run that is over gives nothing but an address that the rules give. -/
theorem ipv6Run_stop {budget : ℕ} {res : Option Ipv6State} {P : ℕ → Prop}
    (hpass : ipv6Pass src { pos := pos, last := last, comp := comp, count := count } =
      .ok (.done res))
    (hcheck : ∃ out, ipv6Check src res = .ok out ∧ ∀ q ∈ out, P q) :
    ∃ out, ipv6Run src (budget + 1) { pos := pos, last := last, comp := comp, count := count } =
      .ok out ∧ ∀ q ∈ out, P q := by
  rw [ipv6Run_done hpass]
  exact hcheck

theorem ipv6Run_sound {budget : ℕ} (last : ℕ) (comp : Bool) (count : ℕ)
    (h : StringAt src pos w) (hbudget : 8 < budget + comp.toNat + count) (hpos : 0 < budget)
    (hdot : w.headD 0 ≠ chr '.') :
    ∃ res, ipv6Run src budget { pos := pos, last := last, comp := comp, count := count } =
      .ok res ∧ ∀ q ∈ res, ∃ t r, w = t ++ chr ']' :: r ∧ Groups comp count t ∧
        q = pos + t.length + 1 := by
  induction budget generalizing pos last comp count w with
  | zero => exact absurd hpos (Nat.lt_irrefl 0)
  | succ budget ih =>
      by_cases hroom : comp.toNat + count < 8
      swap
      · obtain ⟨out, hcheck, hout⟩ := ipv6Check_sound last comp count h
        refine ipv6Run_stop (ipv6Pass_full hroom) ⟨out, hcheck, fun q hq => ?_⟩
        obtain ⟨r, rfl, hfits, rfl⟩ := hout q hq
        exact ⟨[], r, rfl, .stop hfits, rfl⟩
      rcases colons_cases comp w with ⟨rfl, r, rfl⟩ | ⟨l, w, comp', rfl, hl, hcolon⟩
      · exact ipv6Run_stop (ipv6Pass_twice h hroom) ⟨none, rfl, by simp⟩
      have hdot' : l = [] → w.headD 0 ≠ chr '.' := by
        rintro rfl
        exact hdot
      rcases group_cases w with hdigit | ⟨g, w, rfl, hg, hends⟩
      · have hpass := ipv6Pass_colons last h hroom hl hcolon hdot'
        by_cases hbracket : w.headD 0 = chr ']'
        · obtain ⟨r, rfl⟩ := exists_cons_of_headD hbracket (by decide)
          rw [ipv6Group_bracket h.append] at hpass
          obtain ⟨out, hcheck, hout⟩ := ipv6Check_sound last comp' count h.append
          refine ipv6Run_stop hpass ⟨out, hcheck, fun q hq => ?_⟩
          obtain ⟨r, hr, hfits, rfl⟩ := hout q hq
          exact ⟨l, r, by rw [hr], .close hroom hl hfits, rfl⟩
        · rw [ipv6Group_none h.append hdigit hbracket] at hpass
          exact ipv6Run_stop hpass ⟨none, rfl, by simp⟩
      have hle : comp.toNat ≤ comp'.toNat := by cases hl <;> simp
      rw [ipv6Run_next (ipv6Pass_group h hroom hl hg hends)]
      have hgroup := h.append
      rw [← List.append_assoc] at h
      obtain ⟨budget, rfl⟩ : ∃ k, budget = k + 1 := ⟨budget - 1, by omega⟩
      by_cases hnext : w.headD 0 = chr '.'
      swap
      · obtain ⟨out, hrun, hout⟩ := ih (pos + l.length) comp' (count + 1) h.append (by omega)
          (by omega) hnext
        refine ⟨out, hrun, fun q hq => ?_⟩
        obtain ⟨t, r, rfl, ht, rfl⟩ := hout q hq
        refine ⟨l ++ (g ++ t), r, by simp, .group hroom hl hg (fun hlt => ?_) ht, ?_⟩
        · have hstop := hends hlt
          cases t with
          | nil => rfl
          | cons c t => exact hstop
        · simp only [List.length_append]
          omega
      obtain ⟨r, rfl⟩ := exists_cons_of_headD hnext (by decide)
      by_cases hroom' : comp'.toNat + (count + 1) < 8
      swap
      · obtain ⟨out, hcheck, hout⟩ := ipv6Check_sound (pos + l.length) comp' (count + 1)
          h.append
        refine ipv6Run_stop (ipv6Pass_full hroom') ⟨out, hcheck, fun q hq => ?_⟩
        obtain ⟨r, hr, -⟩ := hout q hq
        exact absurd (List.cons.inj hr).1 (by decide)
      rcases parseIpv4_cases hgroup with ⟨hres, -⟩ | ⟨p, w, hw, hp, hres⟩
      · exact ipv6Run_stop (ipv6Pass_dot h.append hroom' hres) ⟨none, rfl, by simp⟩
      · rw [hw] at hgroup
        obtain ⟨out, hcheck, hout⟩ := ipv6Check_sound (pos + l.length) comp'
          (count + 1 + 2) hgroup.append
        refine ipv6Run_stop (ipv6Pass_dot h.append hroom' hres) ⟨out, hcheck, fun q hq => ?_⟩
        obtain ⟨r', rfl, hfits, rfl⟩ := hout q hq
        refine ⟨l ++ p, r', by rw [hw, List.append_assoc],
          .address hroom hl (hp.congr fun _ => rfl) hroom' hfits, ?_⟩
        rw [List.length_append]
        omega

/-- `parse_ipv6` is its first bracket and the run behind it. -/
theorem parseIpv6_run (h : StringAt src pos (chr '[' :: w)) :
    parseIpv6 src pos = ipv6Run src 9 { pos := pos + 1, last := pos, comp := false, count := 0 } >>=
      fun res => .ok (match res with
        | none => (EINVAL, pos)
        | some p => (0, p)) := by
  have hread : readByte src pos = .ok (chr '[') := h.read
  simp only [parseIpv6, hread, Exec.ok_bind, ne_eq, not_true_eq_false, if_false, ipv6Run,
    bind_assoc]
  congr 1
  funext res
  cases res with
  | none => rfl
  | some st =>
      simp only [ipv6Check, bind_assoc, ne_eq]
      congr 1
      funext c
      by_cases hbad : ¬ c = chr ']' ∨ (if st.comp = true then 8 ≤ st.count else st.count < 8)
      · simp only [if_pos hbad, Exec.ok_bind]
      · simp only [if_neg hbad, Exec.ok_bind]

theorem parseIpv6_eq (h : StringAt src pos (chr '[' :: (t ++ chr ']' :: r)))
    (ht : Groups false 0 t) : parseIpv6 src pos = .ok (0, pos + t.length + 2) := by
  have hrun : ipv6Run src 9 { pos := pos + 1, last := pos, comp := false, count := 0 } = _ :=
    ipv6Run_eq ht h.tail (by decide) (by decide)
  have hlen : pos + 1 + t.length + 1 = pos + t.length + 2 := by omega
  rw [parseIpv6_run h, hrun, Exec.ok_bind, hlen]

/-- `parse_ipv6` takes an address that follows the rules, or nothing. -/
theorem parseIpv6_cases (h : StringAt src pos w) :
    parseIpv6 src pos = .ok (EINVAL, pos) ∨ ∃ t r, w = chr '[' :: (t ++ chr ']' :: r) ∧
      Groups false 0 t ∧ parseIpv6 src pos = .ok (0, pos + t.length + 2) := by
  by_cases hbracket : w.headD 0 = chr '['
  swap
  · left
    simp only [parseIpv6, h.read, Exec.ok_bind, ne_eq, hbracket, not_false_eq_true, if_true]
  obtain ⟨w, rfl⟩ := exists_cons_of_headD hbracket (by decide)
  by_cases hdot : w.headD 0 = chr '.'
  · left
    obtain ⟨r, rfl⟩ := exists_cons_of_headD hdot (by decide)
    have hres : parseIpv4 src pos = .ok (EINVAL, pos) := by
      rcases parseIpv4_cases h with ⟨hres, -⟩ | ⟨p, r', hw, hp, -⟩
      · exact hres
      · cases p with
        | nil => exact absurd rfl hp.ne_nil
        | cons c p =>
            obtain ⟨rfl, -⟩ := List.cons.inj hw
            exact absurd (hp.chars _ List.mem_cons_self) (by decide)
    rw [parseIpv6_run h, ipv6Run_done (ipv6Pass_dot h.tail (by decide) hres)]
    rfl
  · obtain ⟨res, hrun, hres⟩ := ipv6Run_sound pos false 0 h.tail
      (by decide : 8 < 9 + false.toNat + 0) (by decide) hdot
    cases res with
    | none =>
        left
        rw [parseIpv6_run h, hrun, Exec.ok_bind]
    | some q =>
        right
        obtain ⟨t, r, rfl, ht, -⟩ := hres q rfl
        exact ⟨t, r, rfl, ht, parseIpv6_eq h ht⟩

end Ipv6

/-! ## Literals of a later version -/

section Ipvf

variable {src w host r : List UInt8} {pos : ℕ}

theorem parseIpvf_eq (h : TextAt src pos (host ++ r)) (hhost : IsIpvf codeSub host) :
    parseIpvf src pos = .ok (0, pos + host.length) := by
  obtain ⟨x, y, hx, hdigits, hy, hchars, rfl⟩ := hhost
  obtain ⟨d, x, rfl⟩ := List.exists_cons_of_ne_nil hx
  obtain ⟨c, y, rfl⟩ := List.exists_cons_of_ne_nil hy
  have hshape : chr '[' :: chr 'v' :: (d :: x ++ chr '.' :: (c :: y ++ [chr ']'])) ++ r =
      chr '[' :: chr 'v' :: d :: (x ++ chr '.' :: c :: (y ++ chr ']' :: r)) := by simp
  rw [hshape] at h
  have htail := h.tail.tail.tail
  have hscan : scan (startsChar isxdigit) (x ++ chr '.' :: c :: (y ++ chr ']' :: r)) =
      (x, chr '.' :: c :: (y ++ chr ']' :: r)) :=
    scan_chars_iff.mpr ⟨fun a ha => hdigits a (List.mem_cons_of_mem d ha), rfl, rfl⟩
  have hscan' : scan (startsChar (isUserinfoChar codeSub)) (y ++ chr ']' :: r) =
      (y, chr ']' :: r) :=
    scan_chars_iff.mpr ⟨fun a ha => hchars a (List.mem_cons_of_mem c ha),
      (by decide : isUserinfoChar codeSub (chr ']') = false), rfl⟩
  have hskip : skipWhile src (fun src pos => isxdigit <$> readByte src pos) (pos + 3) = _ :=
    htail.string.skip_digits (p := isxdigit) (by decide)
  have hdot := htail.behind_scan hscan
  have hskip' : skipWhile src isIpvfCset (pos + 3 + x.length + 2) = _ :=
    hdot.tail.tail.string.skip_chars ipvfCset_holds rfl
  have hbracket := hdot.tail.tail.behind_scan hscan'
  have hcset : isIpvfCset src (pos + 3 + x.length + 1) = _ :=
    hdot.tail.inCset_eq ipvfCset_tabulates
  rw [hscan] at hskip
  rw [hscan', if_pos hbracket.asciiFront] at hskip'
  rw [List.headD_cons, hchars c List.mem_cons_self] at hcset
  have hreaddot : readByte src (pos + 3 + x.length) = .ok (chr '.') := hdot.read
  have hreadend : readByte src (pos + 3 + x.length + 2 + y.length) = .ok (chr ']') :=
    hbracket.read
  rcases ipvfFront_cases h.string with ⟨d', r₁, heq, hd, hfront⟩ | ⟨hnot, -⟩
  swap
  · exact absurd ⟨d, _, rfl, hdigits d List.mem_cons_self⟩ hnot
  rw [parseIpvf, hfront]
  simp only [Exec.ok_bind, Bool.false_eq_true, if_false, hskip, hreaddot, orElse, Exec.map_ok,
    bne_self_eq_false, hcset, Bool.not_true, hskip', hreadend, ne_eq, not_true_eq_false,
    List.length_cons, List.length_append, List.length_nil]
  congr 2
  omega

/-- `parse_ipvf` takes a literal of a later version, or nothing. -/
theorem parseIpvf_cases (h : TextAt src pos w) :
    parseIpvf src pos = .ok (EINVAL, pos) ∨ ∃ host r, w = host ++ r ∧ IsIpvf codeSub host ∧
      parseIpvf src pos = .ok (0, pos + host.length) := by
  by_cases hbracket : w.headD 0 = chr '['
  swap
  · exact Or.inl (parseIpvf_noBracket h.string hbracket)
  obtain ⟨w, rfl⟩ := exists_cons_of_headD hbracket (by decide)
  rcases ipvfFront_cases h.string with ⟨d, w, rfl, hd, hfront⟩ | ⟨-, hfront⟩
  swap
  · left
    simp only [parseIpvf, hfront, Exec.ok_bind, if_true]
  obtain ⟨⟨x, w₁⟩, hscan⟩ : ∃ xw, scan (startsChar isxdigit) w = xw := ⟨_, rfl⟩
  have hskip : skipWhile src (fun src pos => isxdigit <$> readByte src pos) (pos + 3) = _ :=
    h.tail.tail.tail.string.skip_digits (p := isxdigit) (by decide)
  have hbehind := h.tail.tail.tail.behind_scan hscan
  obtain ⟨hdigits, -, rfl⟩ := scan_chars_iff.mp hscan
  rw [hscan] at hskip
  by_cases hdot : w₁.headD 0 = chr '.'
  swap
  · left
    have hbad : (w₁.headD 0 != chr '.') = true := bne_iff_ne.mpr hdot
    rw [parseIpvf, hfront]
    simp only [Exec.ok_bind, Bool.false_eq_true, if_false, hskip, hbehind.read, orElse,
      Exec.map_ok, hbad, if_true]
  obtain ⟨w₂, rfl⟩ := exists_cons_of_headD hdot (by decide)
  have hreaddot : readByte src (pos + 3 + x.length) = .ok (chr '.') := hbehind.read
  have hcset : isIpvfCset src (pos + 3 + x.length + 1) = _ :=
    hbehind.tail.inCset_eq ipvfCset_tabulates
  rcases startsChar_cases (isUserinfoChar codeSub) w₂ with hstop | ⟨c, w₃, rfl, hc⟩
  · left
    rw [startsChar_headD (by decide)] at hstop
    rw [hstop] at hcset
    rw [parseIpvf, hfront]
    simp only [Exec.ok_bind, Bool.false_eq_true, if_false, hskip, hreaddot, orElse,
      Exec.map_ok, bne_self_eq_false, hcset, Bool.not_false, if_true]
  obtain ⟨⟨y, w₄⟩, hscan'⟩ : ∃ xw, scan (startsChar (isUserinfoChar codeSub)) w₃ = xw := ⟨_, rfl⟩
  have hskip' : skipWhile src isIpvfCset (pos + 3 + x.length + 2) = _ :=
    hbehind.tail.tail.string.skip_chars ipvfCset_holds rfl
  have hend := hbehind.tail.tail.behind_scan hscan'
  obtain ⟨hchars, -, rfl⟩ := scan_chars_iff.mp hscan'
  rw [hscan', if_pos hend.asciiFront] at hskip'
  rw [List.headD_cons, hc] at hcset
  by_cases hclose : w₄.headD 0 = chr ']'
  · right
    obtain ⟨r, rfl⟩ := exists_cons_of_headD hclose (by decide)
    have hliteral := isIpvf_cons hd hdigits hc hchars
    have hshape : chr '[' :: chr 'v' :: d :: (x ++ chr '.' :: c :: (y ++ chr ']' :: r)) =
        chr '[' :: chr 'v' :: (d :: x ++ chr '.' :: (c :: y ++ [chr ']'])) ++ r := by simp
    exact ⟨_, r, hshape, hliteral, parseIpvf_eq (hshape ▸ h) hliteral⟩
  · left
    rw [parseIpvf, hfront]
    simp only [Exec.ok_bind, Bool.false_eq_true, if_false, hskip, hreaddot, orElse,
      Exec.map_ok, bne_self_eq_false, hcset, Bool.not_true, hskip', hend.read, ne_eq, hclose,
      not_false_eq_true, if_true]

end Ipvf

end Hlibc.Uri.Switch
