import Hlibc.Ipv6Text
import Hlibc.Uri.AddressScan
import Hlibc.Uri.Host

/-!
# `etc/uri`: the rules of addresses

What the scans of `etc/uri` take for the numbers of an IPv4 address, and for a group of an
IPv6 address: in front of any text, and as much of it as the scans take.
-/

set_option autoImplicit false

namespace Hlibc.Uri

open Grammar Inet

/-! ## Numbers -/

/-- One number, where `next` is what a further digit does to the value in front of it. -/
inductive Octet (next : ℕ → ℕ) : List UInt8 → Prop
  | zero : Octet next [chr '0']
  | one {a : UInt8} (ha : isdigit a = true) (hne : a ≠ chr '0') : Octet next [a]
  | two {a b : UInt8} (ha : isdigit a = true) (hne : a ≠ chr '0') (hb : isdigit b = true) :
      Octet next [a, b]
  | three {a b c : UInt8} (ha : isdigit a = true) (hne : a ≠ chr '0') (hb : isdigit b = true)
      (hc : isdigit c = true)
      (hle : next (next (a.toNat - (chr '0').toNat) + b.toNat - (chr '0').toNat) + c.toNat -
        (chr '0').toNat ≤ 255) :
      Octet next [a, b, c]

/-- Behind a number that may go on, there is no further digit. -/
def OctetEnds (o r : List UInt8) : Prop :=
  o ≠ [chr '0'] → o.length < 3 → startsChar isdigit r = false

/-- The text `p` is `n + 1` numbers between dots, as they are taken in front of `r`. -/
def DottedFront (next : ℕ → ℕ) : ℕ → List UInt8 → List UInt8 → Prop
  | 0, p, r => Octet next p ∧ OctetEnds p r
  | n + 1, p, r => ∃ o p', Octet next o ∧ p = o ++ chr '.' :: p' ∧ DottedFront next n p' r

section Octets

variable {next : ℕ → ℕ} {src w o p r : List UInt8} {pos : ℕ}

theorem startsChar_headD {q : UInt8 → Bool} (hzero : q 0 = false) (w : List UInt8) :
    startsChar q w = q (w.headD 0) := by
  cases w with
  | nil => exact hzero.symm
  | cons c w => rfl

theorem Octet.ne_nil (h : Octet next o) : o ≠ [] := by
  cases h <;> exact List.cons_ne_nil _ _

theorem Octet.digits (h : Octet next o) : ∀ c ∈ o, isdigit c = true := by
  intro c hc
  cases h with
  | zero =>
      rw [List.mem_singleton.mp hc]
      decide
  | one ha hne =>
      rw [List.mem_singleton.mp hc]
      exact ha
  | two ha hne hb =>
      simp only [List.mem_cons, List.not_mem_nil, or_false] at hc
      rcases hc with rfl | rfl
      · exact ha
      · exact hb
  | three ha hne hb hc' hle =>
      simp only [List.mem_cons, List.not_mem_nil, or_false] at hc
      rcases hc with rfl | rfl | rfl
      · exact ha
      · exact hb
      · exact hc'

/-- The scan takes a number that ends where it stops. -/
theorem octetScan_eq (h : StringAt src pos (o ++ r)) (ho : Octet next o) (hends : OctetEnds o r) :
    octetScan isdigit next src pos = .ok (some (pos + o.length)) := by
  obtain ⟨d, hbehind, hstop⟩ : ∃ d, readByte src (pos + o.length) = .ok d ∧
      (o ≠ [chr '0'] → o.length < 3 → isdigit d = false) :=
    ⟨r.headD 0, h.append.read, fun hne hlt =>
      (startsChar_headD (by decide) r).symm.trans (hends hne hlt)⟩
  cases ho with
  | zero =>
      have hfirst : readByte src pos = .ok (chr '0') := h.read
      have hzero : isdigit (chr '0') = true := by decide
      simp [octetScan, hfirst, hzero]
  | @one a ha hne =>
      have hfirst : readByte src pos = .ok a := h.read
      have hend := hstop (by simpa using hne) (by simp)
      simp only [List.length_singleton] at hbehind
      simp [octetScan, hfirst, ha, hbehind, hend]
  | @two a b ha hne hb =>
      have hfirst : readByte src pos = .ok a := h.read
      have hsecond : readByte src (pos + 1) = .ok b := h.tail.read
      have hend := hstop (by simp) (by simp)
      simp only [List.length_cons, List.length_nil] at hbehind
      simp [octetScan, hfirst, ha, hne, hsecond, hb, hbehind, hend]
  | @three a b c ha hne hb hc hle =>
      have hfirst : readByte src pos = .ok a := h.read
      have hsecond : readByte src (pos + 1) = .ok b := h.tail.read
      have hthird : readByte src (pos + 2) = .ok c := h.tail.tail.read
      simp [octetScan, hfirst, ha, hne, hsecond, hb, hthird, hc, Nat.not_lt.mpr hle]

/-- A text starts with a character of a class, or not. -/
theorem startsChar_cases (q : UInt8 → Bool) (w : List UInt8) :
    startsChar q w = false ∨ ∃ c r, w = c :: r ∧ q c = true := by
  cases w with
  | nil => exact Or.inl rfl
  | cons c r =>
      cases hc : q c with
      | false => exact Or.inl hc
      | true => exact Or.inr ⟨c, r, rfl, hc⟩

/-- What the scan takes is a number that ends there. -/
theorem octetScan_sound (next : ℕ → ℕ) (h : StringAt src pos w) :
    ∃ res, octetScan isdigit next src pos = .ok res ∧ ∀ q ∈ res, ∃ o r, w = o ++ r ∧
      Octet next o ∧ OctetEnds o r ∧ q = pos + o.length := by
  have hzero : isdigit 0 = false := by decide
  have htaken : ∀ {o r}, w = o ++ r → Octet next o → OctetEnds o r →
      ∃ res, octetScan isdigit next src pos = .ok res ∧ ∀ q ∈ res, ∃ o r, w = o ++ r ∧
        Octet next o ∧ OctetEnds o r ∧ q = pos + o.length := by
    rintro o r rfl ho hends
    refine ⟨_, octetScan_eq h ho hends, ?_⟩
    rintro _ ⟨⟩
    exact ⟨o, r, rfl, ho, hends, rfl⟩
  rcases startsChar_cases isdigit w with hstop | ⟨a, w, rfl, ha⟩
  · rw [startsChar_headD hzero] at hstop
    exact ⟨none, by rw [octetScan, h.read, Exec.ok_bind, hstop]; rfl, by simp⟩
  by_cases hne : a = chr '0'
  · subst hne
    exact htaken (o := [chr '0']) rfl .zero fun hne => absurd rfl hne
  rcases startsChar_cases isdigit w with hstop | ⟨b, w, rfl, hb⟩
  · exact htaken (o := [a]) rfl (.one ha hne) fun _ _ => hstop
  rcases startsChar_cases isdigit w with hstop | ⟨c, w, rfl, hc⟩
  · exact htaken (o := [a, b]) rfl (.two ha hne hb) fun _ _ => hstop
  by_cases hle : next (next (a.toNat - (chr '0').toNat) + b.toNat - (chr '0').toNat) + c.toNat -
      (chr '0').toNat ≤ 255
  · exact htaken (o := [a, b, c]) rfl (.three ha hne hb hc hle) fun _ hlt => absurd hlt (by simp)
  · have hfirst : readByte src pos = .ok a := h.read
    have hsecond : readByte src (pos + 1) = .ok b := h.tail.read
    have hthird : readByte src (pos + 2) = .ok c := h.tail.tail.read
    refine ⟨none, ?_, by simp⟩
    simp [octetScan, hfirst, ha, hne, hsecond, hb, hthird, hc, Nat.not_le.mp hle]

theorem octets_loop {n i : ℕ} (hi : i + n = 3) (h : StringAt src pos (p ++ r))
    (hp : DottedFront next n p r) :
    loop (octetsPass isdigit next src) (n + 2) (i, pos) = .ok (some (pos + p.length)) := by
  induction n generalizing i pos p with
  | zero =>
      have hscan := octetScan_eq h hp.1 hp.2
      have hpass : octetsPass isdigit next src (i, pos) = .ok (.next (i + 1, pos + p.length)) := by
        simp only [octetsPass, if_pos (by omega : i < 4), hscan, Exec.ok_bind,
          if_neg (by omega : ¬ i < 3)]
      have hend : octetsPass isdigit next src (i + 1, pos + p.length) =
          .ok (.done (some (pos + p.length))) := by
        simp only [octetsPass, if_neg (by omega : ¬ i + 1 < 4)]
      rw [loop_next hpass, loop_done hend]
  | succ n ih =>
      obtain ⟨o, p', ho, rfl, hp'⟩ := hp
      rw [List.append_assoc] at h
      have hends : OctetEnds o (chr '.' :: p' ++ r) := fun _ _ =>
        (by decide : isdigit (chr '.') = false)
      have hscan := octetScan_eq h ho hends
      have hdot : readByte src (pos + o.length) = .ok (chr '.') := h.append.read
      have hpass : octetsPass isdigit next src (i, pos) =
          .ok (.next (i + 1, pos + o.length + 1)) := by
        simp only [octetsPass, if_pos (by omega : i < 4), hscan, Exec.ok_bind,
          if_pos (by omega : i < 3), hdot, ne_eq, not_true_eq_false, if_false]
      have hlen : pos + o.length + 1 + p'.length = pos + (o ++ chr '.' :: p').length := by
        rw [List.length_append, List.length_cons]
        omega
      rw [loop_next hpass, ih (by omega) h.append.tail hp', hlen]

theorem octets_loop_sound (next : ℕ → ℕ) {n i : ℕ} (hi : i + n = 3) (h : StringAt src pos w) :
    ∃ res, loop (octetsPass isdigit next src) (n + 2) (i, pos) = .ok res ∧ ∀ q ∈ res, ∃ p r,
      w = p ++ r ∧ DottedFront next n p r ∧ q = pos + p.length := by
  induction n generalizing i pos w with
  | zero =>
      obtain ⟨res, hscan, hres⟩ := octetScan_sound next h
      cases res with
      | none =>
          refine ⟨none, loop_done ?_ 1, by simp⟩
          simp only [octetsPass, if_pos (by omega : i < 4), hscan, Exec.ok_bind]
      | some q =>
          obtain ⟨o, r, rfl, ho, hends, rfl⟩ := hres q rfl
          refine ⟨_, octets_loop hi h (p := o) (r := r) ⟨ho, hends⟩, ?_⟩
          rintro _ ⟨⟩
          exact ⟨o, r, rfl, ⟨ho, hends⟩, rfl⟩
  | succ n ih =>
      obtain ⟨res, hscan, hres⟩ := octetScan_sound next h
      cases res with
      | none =>
          refine ⟨none, loop_done ?_ (n + 2), by simp⟩
          simp only [octetsPass, if_pos (by omega : i < 4), hscan, Exec.ok_bind]
      | some q =>
          obtain ⟨o, r, rfl, ho, -, rfl⟩ := hres q rfl
          have hbehind := h.append
          by_cases hdot : r.headD 0 = chr '.'
          · obtain ⟨r, rfl⟩ := exists_cons_of_headD hdot (by decide)
            have hpass : octetsPass isdigit next src (i, pos) =
                .ok (.next (i + 1, pos + o.length + 1)) := by
              simp only [octetsPass, if_pos (by omega : i < 4), hscan, Exec.ok_bind,
                if_pos (by omega : i < 3), hbehind.read, hdot, ne_eq, not_true_eq_false, if_false]
            obtain ⟨res, hloop, hres⟩ := ih (i := i + 1) (by omega) hbehind.tail
            refine ⟨res, (loop_next hpass _).trans hloop, fun q hq => ?_⟩
            obtain ⟨p, r', rfl, hp, rfl⟩ := hres q hq
            refine ⟨o ++ chr '.' :: p, r', by simp, ⟨o, p, ho, rfl, hp⟩, ?_⟩
            rw [List.length_append, List.length_cons]
            omega
          · refine ⟨none, loop_done ?_ (n + 2), by simp⟩
            simp only [octetsPass, if_pos (by omega : i < 4), hscan, Exec.ok_bind,
              if_pos (by omega : i < 3), hbehind.read, ne_eq, hdot, not_false_eq_true, if_true]

theorem octetsScan_eq (h : StringAt src pos (p ++ r)) (hp : DottedFront next 3 p r) :
    octetsScan isdigit next src pos = .ok (some (pos + p.length)) :=
  octets_loop rfl h hp

theorem octetsScan_sound (next : ℕ → ℕ) (h : StringAt src pos w) :
    ∃ res, octetsScan isdigit next src pos = .ok res ∧ ∀ q ∈ res, ∃ p r,
      w = p ++ r ∧ DottedFront next 3 p r ∧ q = pos + p.length :=
  octets_loop_sound next rfl h

/-- There is at most one address in front of a text. -/
theorem DottedFront.unique {p' r' : List UInt8} (hp : DottedFront next 3 p r)
    (hp' : DottedFront next 3 p' r') (heq : p ++ r = p' ++ r') (hzero : 0 ∉ p ++ r) :
    p = p' ∧ r = r' := by
  have h := StringAt.start hzero
  have hscan := octetsScan_eq h hp
  rw [octetsScan_eq (heq ▸ h) hp'] at hscan
  have hlen : p'.length = p.length := by
    have hpos := Option.some.inj (Except.ok.inj hscan)
    omega
  exact List.append_inj heq hlen.symm

theorem DottedFront.chars {n : ℕ} (hp : DottedFront next n p r) :
    ∀ c ∈ p, isdigit c = true ∨ c = chr '.' := by
  induction n generalizing p with
  | zero => exact fun c hc => Or.inl (hp.1.digits c hc)
  | succ n ih =>
      obtain ⟨o, p', ho, rfl, hp'⟩ := hp
      intro c hc
      rw [List.mem_append, List.mem_cons] at hc
      rcases hc with hc | rfl | hc
      · exact Or.inl (ho.digits c hc)
      · exact Or.inr rfl
      · exact ih hp' c hc

theorem DottedFront.ne_nil {n : ℕ} (hp : DottedFront next n p r) : p ≠ [] := by
  cases n with
  | zero => exact hp.1.ne_nil
  | succ n =>
      obtain ⟨o, p', ho, rfl, -⟩ := hp
      exact List.append_ne_nil_of_left_ne_nil ho.ne_nil _

/-- What stands behind the numbers matters only if it is a digit. -/
theorem DottedFront.congr {n : ℕ} {r' : List UInt8} (hp : DottedFront next n p r)
    (hr' : startsChar isdigit r = false → startsChar isdigit r' = false) :
    DottedFront next n p r' := by
  induction n generalizing p with
  | zero => exact ⟨hp.1, fun hne hlt => hr' (hp.2 hne hlt)⟩
  | succ n ih =>
      obtain ⟨o, p', ho, rfl, hp'⟩ := hp
      exact ⟨o, p', ho, rfl, ih hp'⟩

/-- In front of a text without a digit, an address ends in the text in front of it. -/
theorem DottedFront.split {n : ℕ} {r' : List UInt8} (hp : DottedFront next n p r')
    (hw : w ++ r = p ++ r') (hstop : startsChar isDigitOrDot r = false) :
    ∃ a, w = p ++ a ∧ DottedFront next n p a := by
  have hdigit : startsChar isdigit r = false := by
    cases r with
    | nil => rfl
    | cons c r => exact (Bool.or_eq_false_iff.mp hstop).1
  rcases List.append_eq_append_iff.mp hw with ⟨a, rfl, rfl⟩ | ⟨a, rfl, rfl⟩
  · cases a with
    | nil => exact ⟨[], by simp, hp.congr fun _ => rfl⟩
    | cons c a =>
        have hc := hp.chars c (List.mem_append_right w List.mem_cons_self)
        have hstop' : isDigitOrDot c = false := hstop
        rw [isDigitOrDot, Bool.or_eq_false_iff, beq_eq_false_iff_ne] at hstop'
        rcases hc with hc | hc
        · exact absurd (hc.symm.trans hstop'.1) (by decide)
        · exact absurd hc hstop'.2
  · refine ⟨a, rfl, hp.congr fun h => ?_⟩
    cases a with
    | nil => rfl
    | cons c a => exact h

/-- An address stays one in front of a text without a digit. -/
theorem DottedFront.extend {n : ℕ} (hp : DottedFront next n p w)
    (hstop : startsChar isdigit r = false) : DottedFront next n p (w ++ r) := by
  refine hp.congr fun h => ?_
  cases w with
  | nil => exact hstop
  | cons c w => exact h

end Octets

/-! ## Groups -/

section Groups

variable {src w g r : List UInt8} {pos : ℕ}

/-- Behind a group that may go on, there is no further digit. -/
def GroupEnds (g r : List UInt8) : Prop := g.length < 4 → startsChar isxdigit r = false

theorem headD_group (hg : IsGroup g) (w : List UInt8) : isxdigit ((g ++ w).headD 0) = true := by
  obtain ⟨c, g, rfl, hc⟩ := hg.exists_cons
  exact hc

/-- A number is taken for a group, where a group is looked for. -/
theorem Octet.isGroup {next : ℕ → ℕ} {o : List UInt8} (ho : Octet next o) : IsGroup o := by
  refine ⟨ho.ne_nil, ?_, fun c hc => ?_⟩
  · cases ho <;> simp
  · rw [isxdigit, ho.digits c hc, Bool.true_or, Bool.true_or]

/-- Further digits are taken, up to a number of them. -/
theorem hexScan_eq {n : ℕ} (h : StringAt src pos (g ++ r)) (hlen : g.length ≤ n)
    (hg : ∀ c ∈ g, isxdigit c = true) (hends : g.length < n → startsChar isxdigit r = false) :
    hexScan src n pos = .ok (pos + g.length) := by
  induction n generalizing g pos with
  | zero =>
      rw [List.length_eq_zero_iff.mp (Nat.le_zero.mp hlen)]
      rfl
  | succ n ih =>
      cases g with
      | nil =>
          have hstop := hends (Nat.succ_pos n)
          rw [startsChar_headD (by decide)] at hstop
          rw [hexScan, h.read, Exec.ok_bind, hlibIsxdigit_eq, List.nil_append, hstop]
          rfl
      | cons c g =>
          have hread : readByte src pos = .ok c := h.read
          rw [List.length_cons] at hlen hends
          rw [hexScan, hread, Exec.ok_bind, hlibIsxdigit_eq, hg c List.mem_cons_self, if_pos rfl,
            ih h.tail (by omega) (fun d hd => hg d (List.mem_cons_of_mem c hd))
              (fun hlt => hends (by omega)), List.length_cons, Nat.add_comm g.length,
            Nat.add_assoc]

/-- A text starts with a group, or with no digit. -/
theorem group_cases (w : List UInt8) :
    startsChar isxdigit w = false ∨ ∃ g r, w = g ++ r ∧ IsGroup g ∧ GroupEnds g r := by
  rcases startsChar_cases isxdigit w with hstop | ⟨a, w, rfl, ha⟩
  · exact Or.inl hstop
  right
  rcases startsChar_cases isxdigit w with hstop | ⟨b, w, rfl, hb⟩
  · exact ⟨[a], w, rfl, ⟨by simp, by simp, by simp [ha]⟩, fun _ => hstop⟩
  rcases startsChar_cases isxdigit w with hstop | ⟨c, w, rfl, hc⟩
  · exact ⟨[a, b], w, rfl, ⟨by simp, by simp, by simp [ha, hb]⟩, fun _ => hstop⟩
  rcases startsChar_cases isxdigit w with hstop | ⟨d, w, rfl, hd⟩
  · exact ⟨[a, b, c], w, rfl, ⟨by simp, by simp, by simp [ha, hb, hc]⟩, fun _ => hstop⟩
  · exact ⟨[a, b, c, d], w, rfl, ⟨by simp, by simp, by simp [ha, hb, hc, hd]⟩,
      fun hlt => absurd hlt (by simp)⟩

/-- A first digit is tested, and up to three further ones are taken. -/
theorem hexScan_group (h : StringAt src pos (g ++ r)) (hg : IsGroup g) (hends : GroupEnds g r) :
    ∃ c, readByte src pos = .ok c ∧ hlibIsxdigit c = true ∧
      hexScan src 3 (pos + 1) = .ok (pos + g.length) := by
  obtain ⟨hne, hlen, hdigits⟩ := hg
  cases g with
  | nil => exact absurd rfl hne
  | cons c g =>
      rw [List.length_cons] at hlen
      refine ⟨c, h.read, by rw [hlibIsxdigit_eq, hdigits c List.mem_cons_self], ?_⟩
      rw [hexScan_eq h.tail (by omega) (fun d hd => hdigits d (List.mem_cons_of_mem c hd))
        (fun hlt => hends (by rw [List.length_cons]; omega)), List.length_cons,
        Nat.add_comm g.length, Nat.add_assoc]

end Groups

/-! ## Literals of a later version -/

/-- A literal of a later version, with its brackets. -/
def IsIpvf (sub : UInt8 → Bool) (host : List UInt8) : Prop :=
  ∃ x y, x ≠ [] ∧ (∀ c ∈ x, isxdigit c = true) ∧ y ≠ [] ∧ (∀ c ∈ y, isUserinfoChar sub c = true) ∧
    host = chr '[' :: chr 'v' :: (x ++ chr '.' :: (y ++ [chr ']']))

/-- What the scans of a literal take, up to its bracket. -/
theorem isIpvf_cons {sub : UInt8 → Bool} {d c : UInt8} {x y : List UInt8}
    (hd : isxdigit d = true) (hx : ∀ b ∈ x, isxdigit b = true) (hc : isUserinfoChar sub c = true)
    (hy : ∀ b ∈ y, isUserinfoChar sub b = true) :
    IsIpvf sub (chr '[' :: chr 'v' :: (d :: x ++ chr '.' :: (c :: y ++ [chr ']']))) :=
  ⟨d :: x, c :: y, List.cons_ne_nil d x, List.forall_mem_cons.mpr ⟨hd, hx⟩, List.cons_ne_nil c y,
    List.forall_mem_cons.mpr ⟨hc, hy⟩, rfl⟩

end Hlibc.Uri
