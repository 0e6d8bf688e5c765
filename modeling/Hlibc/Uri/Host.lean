import Hlibc.Ipv4Text
import Hlibc.Uri.Tail

/-!
# Reading the host

`parse_host` moves the position of its caller only past an IPv4 address.  So of
the hosts of the grammar the parser accepts the empty one and the IPv4
addresses, and no other.
-/

set_option autoImplicit false

namespace Hlibc.Uri

open Grammar Inet

/-! ## IPv4 addresses -/

theorem exists_digit_of_inRange {lo hi : Char} {c : UInt8} (hlo : chr '0' ≤ chr lo)
    (hhi : chr hi ≤ chr '9') (hc : inRange lo hi c = true) :
    ∃ n < 10, c = digit n ∧ inRange lo hi (digit n) = true := by
  have hrange := of_decide_eq_true hc
  have hdigit : isdigit c = true := by
    rw [isdigit, decide_eq_true_eq]
    exact ⟨UInt8.le_trans hlo hrange.1, UInt8.le_trans hrange.2 hhi⟩
  obtain ⟨n, hn, rfl⟩ := exists_digit hdigit
  exact ⟨n, hn, rfl, hc⟩

theorem mem_decOctet_cases {w : List UInt8} : w ∈ decOctet ↔
    (∃ a, w = [a] ∧ isdigit a = true) ∨
    (∃ a b, w = [a, b] ∧ inRange '1' '9' a = true ∧ isdigit b = true) ∨
    (∃ a b, w = [chr '1', a, b] ∧ isdigit a = true ∧ isdigit b = true) ∨
    (∃ a b, w = [chr '2', a, b] ∧ inRange '0' '4' a = true ∧ isdigit b = true) ∨
    ∃ a, w = [chr '2', chr '5', a] ∧ inRange '0' '5' a = true := by
  rw [decOctet, Language.mem_add, Language.mem_add, Language.mem_add, Language.mem_add,
    or_assoc, or_assoc, or_assoc, mul_assoc, mul_assoc]
  refine or_congr mem_one (or_congr ?_ (or_congr ?_ (or_congr ?_ ?_)))
  · rw [mem_one_mul]
    constructor
    · rintro ⟨a, _, rfl, ha, b, rfl, hb⟩
      exact ⟨a, b, rfl, ha, hb⟩
    · rintro ⟨a, b, rfl, ha, hb⟩
      exact ⟨a, [b], rfl, ha, b, rfl, hb⟩
  · rw [mem_lit_mul]
    constructor
    · rintro ⟨_, rfl, hr⟩
      obtain ⟨a, _, rfl, ha, b, rfl, hb⟩ := mem_one_mul.mp hr
      exact ⟨a, b, rfl, ha, hb⟩
    · rintro ⟨a, b, rfl, ha, hb⟩
      exact ⟨[a, b], rfl, mem_one_mul.mpr ⟨a, [b], rfl, ha, b, rfl, hb⟩⟩
  · rw [mem_lit_mul]
    constructor
    · rintro ⟨_, rfl, hr⟩
      obtain ⟨a, _, rfl, ha, b, rfl, hb⟩ := mem_one_mul.mp hr
      exact ⟨a, b, rfl, ha, hb⟩
    · rintro ⟨a, b, rfl, ha, hb⟩
      exact ⟨[a, b], rfl, mem_one_mul.mpr ⟨a, [b], rfl, ha, b, rfl, hb⟩⟩
  · rw [mem_lit_mul]
    constructor
    · rintro ⟨_, rfl, a, rfl, ha⟩
      exact ⟨a, rfl, ha⟩
    · rintro ⟨a, rfl, ha⟩
      exact ⟨[a], rfl, a, rfl, ha⟩

/-- `dec-octet` holds the decimal texts of the bytes. -/
theorem mem_decOctet {w : List UInt8} : w ∈ decOctet ↔ ∃ v, w = decimal v := by
  rw [mem_decOctet_cases]
  have hone : chr '1' = digit 1 := rfl
  have htwo : chr '2' = digit 2 := rfl
  have hfive : chr '5' = digit 5 := rfl
  constructor
  · rintro (⟨a, rfl, ha⟩ | ⟨a, b, rfl, ha, hb⟩ | ⟨b, c, rfl, hb, hc⟩ | ⟨b, c, rfl, hb, hc⟩ |
      ⟨c, rfl, hc⟩)
    · obtain ⟨a, hlt, rfl⟩ := exists_digit ha
      exact ⟨_, (decimal_one hlt).symm⟩
    · obtain ⟨a, hlta, rfl, hrange⟩ := exists_digit_of_inRange (by decide) (by decide) ha
      obtain ⟨b, hltb, rfl⟩ := exists_digit hb
      have hpos : a ≠ 0 := by
        rintro rfl
        exact absurd hrange (by decide)
      exact ⟨_, (decimal_two hlta hpos hltb).symm⟩
    · obtain ⟨b, hltb, rfl⟩ := exists_digit hb
      obtain ⟨c, hltc, rfl⟩ := exists_digit hc
      have hbyte : 10 * (10 * 1 + b) + c < 256 := by omega
      exact ⟨_, (decimal_three (by decide) hltb hltc hbyte).symm⟩
    · obtain ⟨b, hltb, rfl, hrange⟩ := exists_digit_of_inRange (by decide) (by decide) hb
      obtain ⟨c, hltc, rfl⟩ := exists_digit hc
      have hall : ∀ b < 10, inRange '0' '4' (digit b) = true → b ≤ 4 := by decide
      have hle := hall b hltb hrange
      have hbyte : 10 * (10 * 2 + b) + c < 256 := by omega
      exact ⟨_, (decimal_three (by decide) hltb hltc hbyte).symm⟩
    · obtain ⟨c, hltc, rfl, hrange⟩ := exists_digit_of_inRange (by decide) (by decide) hc
      have hall : ∀ c < 10, inRange '0' '5' (digit c) = true → c ≤ 5 := by decide
      have hle := hall c hltc hrange
      have hbyte : 10 * (10 * 2 + 5) + c < 256 := by omega
      exact ⟨_, (decimal_three (by decide) (by decide) hltc hbyte).symm⟩
  · rintro ⟨v, rfl⟩
    rcases decimal_cases v with ⟨a, ha, -, heq⟩ | ⟨a, ha, hpos, b, hb, -, heq⟩ |
        ⟨a, ha, hpos, b, hb, c, hc, hv, heq⟩
    · exact Or.inl ⟨digit a, heq, isdigit_digit ha⟩
    · have hrange : ∀ a < 10, a ≠ 0 → inRange '1' '9' (digit a) = true := by decide
      exact Or.inr (Or.inl ⟨digit a, digit b, heq, hrange a ha hpos, isdigit_digit hb⟩)
    · have hlt := UInt8.toNat_lt v
      have hle : ∀ b ≤ 4, inRange '0' '4' (digit b) = true := by decide
      have hle' : ∀ c ≤ 5, inRange '0' '5' (digit c) = true := by decide
      obtain rfl | rfl : a = 1 ∨ a = 2 := by omega
      · exact Or.inr (Or.inr (Or.inl ⟨digit b, digit c, heq, isdigit_digit hb,
          isdigit_digit hc⟩))
      · rcases Nat.lt_or_ge 4 b with hb' | hb'
        · obtain rfl : b = 5 := by omega
          exact Or.inr (Or.inr (Or.inr (Or.inr ⟨digit c, heq, hle' c (by omega)⟩)))
        · exact Or.inr (Or.inr (Or.inr (Or.inl ⟨digit b, digit c, heq, hle b hb',
            isdigit_digit hc⟩)))

theorem mem_ipv4Address {w : List UInt8} :
    w ∈ ipv4Address ↔ ∃ vs : List UInt8, vs.length = 4 ∧ w = dotted vs := by
  have hrule : w ∈ ipv4Address ↔ ∃ a b c d, w = decimal a ++ chr '.' :: (decimal b ++
      chr '.' :: (decimal c ++ chr '.' :: decimal d)) := by
    simp only [ipv4Address, mul_assoc, Language.mem_mul, mem_decOctet, mem_lit]
    constructor
    · rintro ⟨_, ⟨a, rfl⟩, _, ⟨_, rfl, _, ⟨_, ⟨b, rfl⟩, _, ⟨_, rfl, _, ⟨_, ⟨c, rfl⟩, _,
        ⟨_, rfl, _, ⟨d, rfl⟩, rfl⟩, rfl⟩, rfl⟩, rfl⟩, rfl⟩, rfl⟩
      exact ⟨a, b, c, d, rfl⟩
    · rintro ⟨a, b, c, d, rfl⟩
      exact ⟨_, ⟨a, rfl⟩, _, ⟨_, rfl, _, ⟨_, ⟨b, rfl⟩, _, ⟨_, rfl, _, ⟨_, ⟨c, rfl⟩, _,
        ⟨_, rfl, _, ⟨d, rfl⟩, rfl⟩, rfl⟩, rfl⟩, rfl⟩, rfl⟩, rfl⟩
  rw [hrule]
  constructor
  · rintro ⟨a, b, c, d, rfl⟩
    exact ⟨[a, b, c, d], rfl, rfl⟩
  · rintro ⟨vs, hlen, rfl⟩
    match vs, hlen with
    | [a, b, c, d], _ => exact ⟨a, b, c, d, rfl⟩

/-- An IPv4 address consists of digits and dots, is not empty and fits its buffer. -/
theorem ipv4Address_chars {w : List UInt8} (hw : w ∈ ipv4Address) :
    (∀ c ∈ w, (isdigit c || c == chr '.') = true) ∧ w ≠ [] ∧ w.length < 16 := by
  obtain ⟨vs, hlen, rfl⟩ := mem_ipv4Address.mp hw
  refine ⟨fun c hc => ?_, ?_, ?_⟩
  · rcases mem_dotted hc with hdigit | rfl
    · rw [hdigit, Bool.true_or]
    · decide
  all_goals
    match vs, hlen with
    | [a, b, c, d], _ =>
        have hlen : ∀ v, 0 < (decimal v).length ∧ (decimal v).length ≤ 3 := by
          intro v
          rcases decimal_cases v with ⟨a, -, -, heq⟩ | ⟨a, -, -, b, -, -, heq⟩ |
            ⟨a, -, -, b, -, c, -, -, heq⟩ <;> rw [heq] <;> simp
        have ha := hlen a
        have hb := hlen b
        have hc := hlen c
        have hd := hlen d
        simp only [dotted, List.length_append, List.length_cons, ne_eq, ← List.length_eq_zero_iff]
        omega

/-! ## The digits and dots in front -/

/-- A digit or a dot. -/
def isDigitOrDot (c : UInt8) : Bool := isdigit c || c == chr '.'

section TryIpv4

variable {src done junk : List UInt8} {pos : ℕ} {c x : UInt8}

theorem tryIpv4Pass_full (hfull : 16 ≤ done.length) :
    tryIpv4Pass src pos (done.length, done ++ junk) = .ok (.done none) := by
  simp [tryIpv4Pass, Nat.not_lt.mpr hfull]

theorem tryIpv4Pass_next (hroom : done.length < 16)
    (hread : readByte src (pos + done.length) = .ok c) (hc : isDigitOrDot c = true) :
    tryIpv4Pass src pos (done.length, done ++ x :: junk) =
      .ok (.next ((done ++ [c]).length, done ++ [c] ++ junk)) := by
  have hwrite : writeByte (done ++ x :: junk) done.length c = .ok (done ++ [c] ++ junk) := by
    rw [writeByte_of_lt (by simp)]
    simp
  rw [isDigitOrDot] at hc
  simp only [tryIpv4Pass, hroom, if_true, hread, Exec.ok_bind, hc, hwrite]
  simp

/-- Behind the digits and dots, what was copied is tried. -/
theorem tryIpv4Pass_stop (x : UInt8) (junk : List UInt8) (hroom : done.length < 16)
    (hread : readByte src (pos + done.length) = .ok c) (hc : isDigitOrDot c = false) :
    tryIpv4Pass src pos (done.length, done ++ x :: junk) =
      (ipv4ToBin (done ++ 0 :: junk) 0 (List.replicate 4 0) 0 >>= fun res =>
        .ok (.done (if res.1 = 0 then some done.length else none))) := by
  have hwrite : writeByte (done ++ x :: junk) done.length 0 = .ok (done ++ 0 :: junk) := by
    rw [writeByte_of_lt (by simp)]
    simp
  rw [isDigitOrDot] at hc
  simp only [tryIpv4Pass, if_pos hroom, hread, Exec.ok_bind, hc, Bool.false_eq_true, if_false,
    hwrite]

end TryIpv4

/-- The loop of `parse_host` tries all digits and dots in front as an IPv4 address, if
they fit the buffer. -/
theorem tryIpv4_loop {src r : List UInt8} {pos : ℕ} (hstop : startsChar isDigitOrDot r = false)
    (rest : List UInt8) : ∀ (done junk : List UInt8) (budget : ℕ),
      StringAt src (pos + done.length) (rest ++ r) → (∀ c ∈ rest, isDigitOrDot c = true) →
      (done ++ junk).length = 16 → done.length + budget = 17 →
      (16 ≤ (done ++ rest).length ∧
          loop (tryIpv4Pass src pos) budget (done.length, done ++ junk) = .ok none) ∨
        ∃ junk', loop (tryIpv4Pass src pos) budget (done.length, done ++ junk) =
          (ipv4ToBin (done ++ rest ++ 0 :: junk') 0 (List.replicate 4 0) 0 >>= fun res =>
            .ok (if res.1 = 0 then some (done ++ rest).length else none)) := by
  induction rest with
  | nil =>
      intro done junk budget h _ hlen hbudget
      rw [List.length_append] at hlen
      obtain ⟨budget, rfl⟩ : ∃ k, budget = k + 1 := ⟨budget - 1, by omega⟩
      rw [List.append_nil]
      by_cases hfull : done.length < 16
      · right
        obtain ⟨x, junk, rfl⟩ : ∃ x junk', junk = x :: junk' :=
          List.exists_cons_of_length_pos (by omega)
        obtain ⟨c, hread, hchar⟩ : ∃ c, readByte src (pos + done.length) = .ok c ∧
            isDigitOrDot c = false := by
          refine ⟨r.headD 0, h.read, ?_⟩
          cases r with
          | nil => decide
          | cons c r => exact hstop
        refine ⟨junk, ?_⟩
        have hpass := tryIpv4Pass_stop x junk hfull hread hchar
        cases hbin : ipv4ToBin (done ++ 0 :: junk) 0 (List.replicate 4 0) 0 with
        | error e =>
            rw [hbin] at hpass
            exact loop_error hpass budget
        | ok res =>
            rw [hbin] at hpass
            exact loop_done hpass budget
      · have hlong := Nat.not_lt.mp hfull
        exact Or.inl ⟨hlong, loop_done (tryIpv4Pass_full hlong) budget⟩
  | cons c rest ih =>
      intro done junk budget h hrest hlen hbudget
      rw [List.length_append] at hlen
      obtain ⟨budget, rfl⟩ : ∃ k, budget = k + 1 := ⟨budget - 1, by omega⟩
      by_cases hfull : done.length < 16
      · obtain ⟨x, junk, rfl⟩ : ∃ x junk', junk = x :: junk' :=
          List.exists_cons_of_length_pos (by omega)
        rw [loop_next (tryIpv4Pass_next hfull h.read (hrest c List.mem_cons_self)),
          List.append_cons done c rest]
        refine ih _ _ _ ?_ (fun d hd => hrest d (List.mem_cons_of_mem c hd)) ?_ ?_
        · rw [List.length_append, List.length_singleton, ← Nat.add_assoc]
          exact h.tail
        · rw [← hlen]
          simp
        · rw [List.length_append, List.length_singleton]
          omega
      · have hlong := Nat.not_lt.mp hfull
        refine Or.inl ⟨?_, loop_done (tryIpv4Pass_full hlong) budget⟩
        rw [List.length_append]
        omega

section ParseHost

variable {src w x y : List UInt8} {pos : ℕ}

/-- If `parse_ipvf` fails, it leaves the position. -/
theorem parseIpvf_pos {code : ℤ} {pos' : ℕ} (h : parseIpvf src pos = .ok (code, pos'))
    (hcode : code ≠ 0) : pos' = pos := by
  rw [parseIpvf, Exec.bind_eq_ok] at h
  obtain ⟨bad, -, h⟩ := h
  by_cases hbad : bad = true
  · rw [if_pos hbad] at h
    exact (Prod.mk.inj (Except.ok.inj h)).2.symm
  · rw [if_neg hbad, Exec.bind_eq_ok] at h
    obtain ⟨p, -, h⟩ := h
    rw [Exec.bind_eq_ok] at h
    obtain ⟨bad, -, h⟩ := h
    by_cases hbad : bad = true
    · rw [if_pos hbad] at h
      exact (Prod.mk.inj (Except.ok.inj h)).2.symm
    · rw [if_neg hbad, Exec.bind_eq_ok] at h
      obtain ⟨p, -, h⟩ := h
      rw [Exec.bind_eq_ok] at h
      obtain ⟨c, -, h⟩ := h
      by_cases hc : c ≠ chr ']'
      · rw [if_pos hc] at h
        exact (Prod.mk.inj (Except.ok.inj h)).2.symm
      · rw [if_neg hc] at h
        exact absurd (Prod.mk.inj (Except.ok.inj h)).1.symm hcode

/-- Where no bracket is in front, there is no literal. -/
theorem parseIpvf_noBracket (h : StringAt src pos w) (hw : w.headD 0 ≠ chr '[') :
    parseIpvf src pos = .ok (EINVAL, pos) := by
  have hbad : ((w.headD 0) != chr '[') = true := bne_iff_ne.mpr hw
  simp only [parseIpvf, h.read, orElse, Exec.map_ok, Exec.ok_bind, hbad, if_true]

theorem parseHost_bracket {pos' : ℕ} {type : HostType} (h : StringAt src pos w)
    (hw : w.headD 0 = chr '[') (hrun : parseHost src pos = .ok (0, pos', type)) : pos' = pos := by
  rw [parseHost, Exec.bind_eq_ok] at hrun
  obtain ⟨⟨code, p⟩, hipvf, hrun⟩ := hrun
  simp only at hrun
  by_cases hcode : code = 0
  · rw [if_pos hcode] at hrun
    exact (Prod.mk.inj (Prod.mk.inj (Except.ok.inj hrun)).2).1.symm
  obtain rfl := parseIpvf_pos hipvf hcode
  rw [if_neg hcode, h.read, Exec.ok_bind, if_pos hw, Exec.bind_eq_ok] at hrun
  obtain ⟨copied, -, hrun⟩ := hrun
  rcases copied with - | host
  · exact absurd (Prod.mk.inj (Except.ok.inj hrun)).1 (by decide)
  · obtain ⟨res, -, hrun⟩ := Exec.bind_eq_ok.mp hrun
    by_cases hres : res.1 ≠ 0
    · rw [if_pos hres] at hrun
      exact absurd (Prod.mk.inj (Except.ok.inj hrun)).1 (by decide)
    · rw [if_neg hres] at hrun
      exact (Prod.mk.inj (Prod.mk.inj (Except.ok.inj hrun)).2).1.symm

/-- The result of `parse_host` where no bracket is in front: past an address that was
found the position moves. -/
def foundHost (pos : ℕ) : Option ℕ → ℤ × ℕ × HostType
  | some i => (0, pos + i, .ipv4)
  | none => (0, pos, .name)

theorem parseHost_noBracket (h : TextAt src pos w) (hw : w.headD 0 ≠ chr '[') :
    parseHost src pos = (loop (tryIpv4Pass src pos) 17 (0, List.replicate 16 0) >>= fun found =>
      .ok (foundHost pos found)) := by
  have hcode : ¬ (EINVAL : ℤ) = 0 := by decide
  simp only [parseHost, parseIpvf_noBracket h.string hw, Exec.ok_bind, if_neg hcode, h.read,
    if_neg hw]
  congr 1
  funext found
  cases found with
  | some i => rfl
  | none =>
      rw [h.skip_name]
      rfl

theorem parseHost_ipv4 (h : TextAt src pos w) (hscan : scan (startsChar isDigitOrDot) w = (x, y))
    (hx : x ∈ ipv4Address) : parseHost src pos = .ok (0, pos + x.length, .ipv4) := by
  obtain ⟨hchars, hstop, rfl⟩ := scan_chars_iff.mp hscan
  obtain ⟨hdigits, hne, hshort⟩ := ipv4Address_chars hx
  have hhead : (x ++ y).headD 0 ≠ chr '[' := by
    cases x with
    | nil => exact absurd rfl hne
    | cons c x =>
        intro heq
        have hc := hdigits c List.mem_cons_self
        rw [List.cons_append, List.headD_cons] at heq
        rw [heq] at hc
        exact absurd hc (by decide)
  rw [parseHost_noBracket h hhead]
  rcases tryIpv4_loop hstop x [] (List.replicate 16 0) 17 h.string hchars rfl rfl with
      ⟨hlong, -⟩ | ⟨junk, hloop⟩
  · rw [List.nil_append] at hlong
    exact absurd hshort (Nat.not_lt.mpr hlong)
  · obtain ⟨vs, hlen, rfl⟩ := mem_ipv4Address.mp hx
    obtain ⟨dest, hbin⟩ : ∃ dest, ipv4ToBin (dotted vs ++ 0 :: junk) 0 (List.replicate 4 0) 0 =
        .ok (0, dest) :=
      ⟨_, (ipv4ToBin_eq_ok [] (zero_notMem_dotted vs) (by simp)).mpr
        ⟨vs, hlen, rfl, writeBytes_of_le (by simp [hlen])⟩⟩
    rw [List.nil_append, List.nil_append, hbin] at hloop
    exact congrArg (· >>= fun found => .ok (foundHost pos found)) hloop

/-- The digits and dots in front are no address: the position stays, if there is a result. -/
theorem parseHost_name {pos' : ℕ} {type : HostType} (h : TextAt src pos w)
    (hw : w.headD 0 ≠ chr '[') (hscan : scan (startsChar isDigitOrDot) w = (x, y))
    (hx : x ∉ ipv4Address) (hrun : parseHost src pos = .ok (0, pos', type)) :
    pos' = pos ∧ type = .name := by
  obtain ⟨hchars, hstop, rfl⟩ := scan_chars_iff.mp hscan
  rw [parseHost_noBracket h hw, Exec.bind_eq_ok] at hrun
  obtain ⟨found, hfound, hrun⟩ := hrun
  cases found with
  | none =>
      obtain ⟨-, hrun⟩ := Prod.mk.inj (Except.ok.inj hrun)
      obtain ⟨rfl, rfl⟩ := Prod.mk.inj hrun
      exact ⟨rfl, rfl⟩
  | some i =>
      exfalso
      rcases tryIpv4_loop hstop x [] (List.replicate 16 0) 17 h.string hchars rfl rfl with
          ⟨-, hloop⟩ | ⟨junk, hloop⟩
      · cases hfound.symm.trans hloop
      · obtain ⟨res, hbin, hres⟩ := Exec.bind_eq_ok.mp (hloop.symm.trans hfound)
        by_cases hcode : res.1 = 0
        · obtain ⟨code, dest⟩ := res
          obtain rfl : code = 0 := hcode
          have hzero : 0 ∉ x := fun hmem => absurd (hchars 0 hmem) (by decide)
          obtain ⟨vs, hlen, hvs, -⟩ := (ipv4ToBin_eq_ok [] hzero (by simp)).mp hbin
          exact hx (mem_ipv4Address.mpr ⟨vs, hlen, hvs⟩)
        · rw [if_neg hcode] at hres
          cases Except.ok.inj hres

/-- Where neither a digit nor a dot nor a bracket is in front, the host is empty. -/
theorem parseHost_empty (h : TextAt src pos w) (hw : w.headD 0 ≠ chr '[')
    (hstop : startsChar isDigitOrDot w = false) : parseHost src pos = .ok (0, pos, .name) := by
  have hloop := tryIpv4_loop hstop [] [] (List.replicate 16 0) 17 h.string (by simp) rfl rfl
  rcases hloop with ⟨hlong, -⟩ | ⟨junk, hloop⟩
  · exact absurd hlong (by decide)
  · have hbin : ipv4ToBin (([] : List UInt8) ++ [] ++ 0 :: junk) 0 (List.replicate 4 0) 0 =
        .ok (EINVAL, List.replicate 4 0) := rfl
    rw [hbin] at hloop
    rw [parseHost_noBracket h hw]
    exact congrArg (· >>= fun found => .ok (foundHost pos found)) hloop

end ParseHost

/-! ## The host -/

/-- Once `parse_host` has given its result, the port is read. -/
theorem uriHost_of_parse {src x y : List UInt8} {pos : ℕ} {type : HostType}
    {dest d : UriSegments} (h : TextAt src pos (x ++ y)) (hport : dest.port = .null)
    (hquery : dest.query = .null) (hfragment : dest.fragment = .null)
    (hrun : parseHost src pos = .ok (0, pos + x.length, type)) :
    uriHost src pos dest = .ok (0, d) ↔ codeDialect.PortReads viewAt (pos + x.length) y
      { dest with hostType := type, host := { str := some pos, size := x.length } } d := by
  simp only [uriHost, hrun, Exec.ok_bind, ne_eq, not_true_eq_false, if_false,
    Nat.add_sub_cancel_left]
  exact Recognizes.ok_iff (uriPort_recognizes h.append rfl hport hquery hfragment)

/-- Nothing is accepted unless `parse_host` returns 0. -/
theorem exists_parseHost {src : List UInt8} {pos : ℕ} {dest d : UriSegments}
    (hrun : uriHost src pos dest = .ok (0, d)) :
    ∃ pos' type, parseHost src pos = .ok (0, pos', type) := by
  rw [uriHost, Exec.bind_eq_ok] at hrun
  obtain ⟨⟨code, pos', type⟩, hres, hrun⟩ := hrun
  by_cases hcode : code = 0
  · exact ⟨pos', type, by rw [hres, hcode]⟩
  · simp only [ne_eq, hcode, not_false_eq_true, if_true] at hrun
    exact absurd (Prod.mk.inj (Except.ok.inj hrun)).1 (by decide)

/-- In front of the marks, a plain host is what `parse_host` takes. -/
theorem parseHost_plain {src host r : List UInt8} {pos : ℕ} (h : TextAt src pos (host ++ r))
    (hhost : PlainHost host) (hr : StartsWith (ascii ":/?#") r) :
    parseHost src pos = .ok (0, pos + host.length, plainType host) := by
  rcases hhost with rfl | hhost
  · have hbracket : r.headD 0 ≠ chr '[' := hr.headD_ne (by decide) (by decide)
    exact parseHost_empty h hbracket (startsChar_eq_false hr (by decide))
  · obtain ⟨hchars, hne, -⟩ := ipv4Address_chars hhost
    have hscan : scan (startsChar isDigitOrDot) (host ++ r) = (host, r) :=
      scan_chars_iff.mpr ⟨hchars, startsChar_eq_false hr (by decide), rfl⟩
    have htype : plainType host = .ipv4 := by
      cases host with
      | nil => exact absurd rfl hne
      | cons c host => rfl
    rw [parseHost_ipv4 h hscan hhost, htype]

/-- Where the marks stand behind what `parse_host` takes, it is a plain host. -/
theorem plain_of_parseHost {src w : List UInt8} {pos pos' : ℕ} {type : HostType}
    (h : TextAt src pos w) (hrun : parseHost src pos = .ok (0, pos', type)) :
    ∃ host r, w = host ++ r ∧ pos' = pos + host.length ∧
      (StartsWith (ascii ":/?#") r → PlainHost host ∧ type = plainType host) := by
  obtain ⟨⟨x, y⟩, hscan⟩ : ∃ xy, scan (startsChar isDigitOrDot) w = xy := ⟨_, rfl⟩
  obtain ⟨-, -, hw⟩ := scan_chars_iff.mp hscan
  by_cases hx : x ∈ ipv4Address
  · rw [parseHost_ipv4 h hscan hx] at hrun
    obtain ⟨-, hrun⟩ := Prod.mk.inj (Except.ok.inj hrun)
    obtain ⟨rfl, rfl⟩ := Prod.mk.inj hrun
    refine ⟨x, y, hw, rfl, fun _ => ⟨Or.inr hx, ?_⟩⟩
    cases x with
    | nil => exact absurd rfl (ipv4Address_chars hx).2.1
    | cons c x => rfl
  · refine ⟨[], w, rfl, ?_, fun hr => ⟨Or.inl rfl, ?_⟩⟩
    · by_cases hbracket : w.headD 0 = chr '['
      · exact parseHost_bracket h.string hbracket hrun
      · exact (parseHost_name h hbracket hscan hx hrun).1
    · have hbracket : w.headD 0 ≠ chr '[' := hr.headD_ne (by decide) (by decide)
      exact (parseHost_name h hbracket hscan hx hrun).2

theorem uriHost_iff {src w : List UInt8} {pos : ℕ} {dest d : UriSegments}
    (h : TextAt src pos w) (hport : dest.port = .null) (hquery : dest.query = .null)
    (hfragment : dest.fragment = .null) :
    uriHost src pos dest = .ok (0, d) ↔ codeDialect.HostReads viewAt pos w dest d := by
  constructor
  · intro hrun
    obtain ⟨pos', type, hres⟩ := exists_parseHost hrun
    obtain ⟨host, r, rfl, rfl, hplain⟩ := plain_of_parseHost h hres
    have hrest := (uriHost_of_parse h hport hquery hfragment hres).mp hrun
    exact ⟨type, host, r, hplain (hrest.startsWith rfl), rfl, hrest⟩
  · rintro ⟨type, host, r, ⟨hhost, rfl⟩, rfl, hrest⟩
    have hres := parseHost_plain h hhost (hrest.startsWith rfl)
    exact (uriHost_of_parse h hport hquery hfragment hres).mpr hrest

/-! ## The user information -/

theorem parseUserinfo_eq {src w x y : List UInt8} {pos : ℕ} (h : TextAt src pos w)
    (hscan : scan (startsUnit (isUserinfoChar codeSub)) w = (x, y)) :
    parseUserinfo src pos =
      .ok (if y.headD 0 = chr '@' then (0, pos + x.length + 1) else (EINVAL, pos)) := by
  have hbehind := h.behind_scan hscan
  by_cases hhead : y.headD 0 = chr '@'
  · simp only [parseUserinfo, h.skip_userinfo, hscan, Exec.ok_bind, hbehind.read, hhead, ne_eq,
      not_true_eq_false, if_false, if_true]
  · simp only [parseUserinfo, h.skip_userinfo, hscan, Exec.ok_bind, hbehind.read, hhead, ne_eq,
      not_false_eq_true, if_true, if_false]

theorem uriAuthority_iff {src w : List UInt8} {pos : ℕ} {dest d : UriSegments}
    (h : TextAt src pos w) (huserinfo : dest.userinfo = .null) (hport : dest.port = .null)
    (hquery : dest.query = .null) (hfragment : dest.fragment = .null) :
    uriAuthority src pos dest = .ok (0, d) ↔ codeDialect.AuthorityReads viewAt pos w dest d := by
  obtain ⟨⟨x, y⟩, hscan⟩ : ∃ xy, scan (startsUnit (isUserinfoChar codeSub)) w = xy := ⟨_, rfl⟩
  have hbehind := h.behind_scan hscan
  have hcode : ¬ (EINVAL : ℤ) = 0 := by decide
  by_cases hhead : y.headD 0 = chr '@'
  · obtain ⟨r, rfl⟩ := exists_cons_of_headD hhead (by decide)
    have hsize : pos + x.length + 1 - pos - 1 = x.length := by omega
    simp only [uriAuthority, parseUserinfo_eq h hscan, hhead, Exec.ok_bind, if_true, hsize]
    rw [uriHost_iff hbehind.tail (by exact hport) (by exact hquery) (by exact hfragment)]
    exact (Dialect.authorityReads_mark codeSub_separable hscan List.mem_cons_self rfl).symm
  · have hstop : y.headD 0 ∉ codeDialect.userStop := fun hmem => hhead (List.mem_singleton.mp hmem)
    simp only [uriAuthority, parseUserinfo_eq h hscan, if_neg hhead, Exec.ok_bind, if_neg hcode]
    rw [uriHost_iff h hport hquery hfragment,
      Dialect.authorityReads_absent codeSub_separable hscan hhead, and_iff_right hstop,
      ← huserinfo]

end Hlibc.Uri
