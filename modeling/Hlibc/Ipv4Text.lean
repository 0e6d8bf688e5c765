import Hlibc.Inet

/-!
# Dotted quads

`ipv4_to_bin` reads exactly the texts of four decimal numbers below 256, joined
by dots, and stores the numbers.
-/

set_option autoImplicit false

namespace Hlibc.Inet

/-! ## Decimal numbers -/

/-- The decimal digits of a byte. -/
def decimal (v : UInt8) : List UInt8 := (Nat.toDigits 10 v.toNat).map chr

/-- Decimal numbers joined by dots. -/
def dotted : List UInt8 → List UInt8
  | [] => []
  | [v] => decimal v
  | v :: w :: vs => decimal v ++ chr '.' :: dotted (w :: vs)

theorem dotted_cons (v : UInt8) {vs : List UInt8} (hvs : vs ≠ []) :
    dotted (v :: vs) = decimal v ++ chr '.' :: dotted vs := by
  cases vs with
  | nil => exact absurd rfl hvs
  | cons w vs => rfl

theorem isdigit_digit {n : ℕ} (hn : n < 10) : isdigit (digit n) = true := by
  have hall : ∀ n < 10, isdigit (digit n) = true := by decide
  exact hall n hn

theorem exists_digit {c : UInt8} (hc : isdigit c = true) : ∃ n < 10, c = digit n := by
  rw [isdigit, decide_eq_true_eq, UInt8.le_iff_toNat_le, UInt8.le_iff_toNat_le] at hc
  have hlow : (chr '0').toNat = 48 := rfl
  have hhigh : (chr '9').toNat = 57 := rfl
  refine ⟨c.toNat - 48, by omega, ?_⟩
  apply UInt8.toNat_inj.mp
  rw [digit, UInt8.toNat_ofNat', hlow]
  omega

@[simp] theorem addDigit_digit (val : ℕ) {n : ℕ} (hn : n < 10) :
    addDigit val (digit n) = 10 * val + n := by
  have htoNat : (digit n).toNat = 48 + n := by
    rw [digit, UInt8.toNat_ofNat', show (chr '0').toNat = 48 from rfl]
    omega
  rw [addDigit, htoNat, show (chr '0').toNat = 48 from rfl]
  omega

theorem digit_eq_chr {n : ℕ} (hn : n < 10) : digit n = chr '0' ↔ n = 0 := by
  have hall : ∀ n < 10, digit n = chr '0' ↔ n = 0 := by decide
  exact hall n hn

theorem decimal_one {a : ℕ} (ha : a < 10) : decimal (UInt8.ofNat a) = [digit a] := by
  have hall : ∀ a < 10, decimal (UInt8.ofNat a) = [digit a] := by decide
  exact hall a ha

theorem decimal_two {a b : ℕ} (ha : a < 10) (hpos : a ≠ 0) (hb : b < 10) :
    decimal (UInt8.ofNat (10 * a + b)) = [digit a, digit b] := by
  have hall : ∀ a < 10, a ≠ 0 → ∀ b < 10,
      decimal (UInt8.ofNat (10 * a + b)) = [digit a, digit b] := by decide
  exact hall a ha hpos b hb

theorem decimal_three {a b c : ℕ} (hpos : a ≠ 0) (hb : b < 10) (hc : c < 10)
    (hbyte : 10 * (10 * a + b) + c < 256) :
    decimal (UInt8.ofNat (10 * (10 * a + b) + c)) = [digit a, digit b, digit c] := by
  have hall : ∀ a < 3, ∀ b < 10, ∀ c < 10, a = 0 ∨ 256 ≤ 10 * (10 * a + b) + c ∨
      decimal (UInt8.ofNat (10 * (10 * a + b) + c)) = [digit a, digit b, digit c] := by
    decide
  rcases hall a (by omega) b hb c hc with h | h | h
  · exact absurd h hpos
  · omega
  · exact h

/-- The decimal digits of a byte are one, two or three. -/
theorem decimal_cases (v : UInt8) :
    (∃ a < 10, v.toNat = a ∧ decimal v = [digit a]) ∨
    (∃ a < 10, a ≠ 0 ∧ ∃ b < 10, v.toNat = 10 * a + b ∧ decimal v = [digit a, digit b]) ∨
    ∃ a < 10, a ≠ 0 ∧ ∃ b < 10, ∃ c < 10, v.toNat = 10 * (10 * a + b) + c ∧
      decimal v = [digit a, digit b, digit c] := by
  have hv := UInt8.toNat_lt v
  rcases Nat.lt_or_ge v.toNat 10 with hone | hone
  · exact Or.inl ⟨v.toNat, hone, rfl, by rw [← decimal_one hone, UInt8.ofNat_toNat]⟩
  rcases Nat.lt_or_ge v.toNat 100 with htwo | htwo
  · have heq : v.toNat = 10 * (v.toNat / 10) + v.toNat % 10 := by omega
    refine Or.inr (Or.inl ⟨v.toNat / 10, by omega, by omega, v.toNat % 10, by omega, heq, ?_⟩)
    rw [← decimal_two (by omega) (by omega) (by omega), ← heq, UInt8.ofNat_toNat]
  · have heq : v.toNat = 10 * (10 * (v.toNat / 100) + v.toNat / 10 % 10) + v.toNat % 10 := by
      omega
    refine Or.inr (Or.inr ⟨v.toNat / 100, by omega, by omega, v.toNat / 10 % 10, by omega,
      v.toNat % 10, by omega, heq, ?_⟩)
    rw [← decimal_three (by omega) (by omega) (by omega) (by omega), ← heq, UInt8.ofNat_toNat]

theorem isdigit_of_mem_decimal {v c : UInt8} (hc : c ∈ decimal v) : isdigit c = true := by
  rcases decimal_cases v with ⟨a, ha, -, heq⟩ | ⟨a, ha, -, b, hb, -, heq⟩ |
      ⟨a, ha, -, b, hb, d, hd, -, heq⟩
  · rw [heq] at hc
    obtain rfl := List.mem_singleton.mp hc
    exact isdigit_digit ha
  · rw [heq] at hc
    simp only [List.mem_cons, List.not_mem_nil, or_false] at hc
    rcases hc with rfl | rfl
    · exact isdigit_digit ha
    · exact isdigit_digit hb
  · rw [heq] at hc
    simp only [List.mem_cons, List.not_mem_nil, or_false] at hc
    rcases hc with rfl | rfl | rfl
    · exact isdigit_digit ha
    · exact isdigit_digit hb
    · exact isdigit_digit hd

theorem isdigit_zero : isdigit 0 = false := rfl

theorem isdigit_dot : isdigit (chr '.') = false := rfl

theorem mem_dotted {vs : List UInt8} {c : UInt8} (hc : c ∈ dotted vs) :
    isdigit c = true ∨ c = chr '.' := by
  induction vs with
  | nil => exact absurd hc List.not_mem_nil
  | cons v vs ih =>
      cases vs with
      | nil => exact Or.inl (isdigit_of_mem_decimal hc)
      | cons w vs =>
          rw [dotted_cons v (List.cons_ne_nil w vs)] at hc
          rcases List.mem_append.mp hc with hdigit | hrest
          · exact Or.inl (isdigit_of_mem_decimal hdigit)
          · rcases List.mem_cons.mp hrest with rfl | hlater
            · exact Or.inr rfl
            · exact ih hlater

theorem zero_notMem_dotted (vs : List UInt8) : 0 ∉ dotted vs := by
  intro h
  rcases mem_dotted h with hdigit | hdot
  · exact absurd hdigit (by decide)
  · exact absurd hdot (by decide)

/-! ## One number -/

/-- A number is read up to a character that is no digit. -/
theorem ipv4ToBinPart_decimal (pre : List UInt8) (v : UInt8) {c : UInt8} (r : List UInt8)
    (hc : isdigit c = false) :
    ipv4ToBinPart (pre ++ (decimal v ++ c :: r)) pre.length =
      .ok (some (v.toNat, pre.length + (decimal v).length)) := by
  have hread : ∀ l : List UInt8, readByte (pre ++ l) pre.length = readByte l 0 := fun l =>
    readByte_append_add pre l 0
  rcases decimal_cases v with ⟨a, ha, hv, heq⟩ | ⟨a, ha, hpos, b, hb, hv, heq⟩ |
      ⟨a, ha, hpos, b, hb, d, hd, hv, heq⟩
  · by_cases hzero : a = 0
    · subst hzero
      simp [ipv4ToBinPart, heq, hread, hv]
      rfl
    · have hne : digit a ≠ chr '0' := fun h => hzero ((digit_eq_chr ha).mp h)
      simp [ipv4ToBinPart, heq, hread, isdigit_digit ha, hne, hc, hv, addDigit_digit 0 ha]
  · have hne : digit a ≠ chr '0' := fun h => hpos ((digit_eq_chr ha).mp h)
    simp [ipv4ToBinPart, heq, hread, isdigit_digit ha, isdigit_digit hb, hne, hc, hv,
      addDigit_digit _ ha, addDigit_digit _ hb]
  · have hne : digit a ≠ chr '0' := fun h => hpos ((digit_eq_chr ha).mp h)
    have hbyte : ¬ 255 < 10 * (10 * a + b) + d := by
      have := UInt8.toNat_lt v
      omega
    simp [ipv4ToBinPart, heq, hread, isdigit_digit ha, isdigit_digit hb, isdigit_digit hd, hne,
      hv, addDigit_digit _ ha, addDigit_digit _ hb, addDigit_digit _ hd, hbyte]

theorem ipv4ToBinPart_some {pre rest : List UInt8} {val pos : ℕ}
    (h : ipv4ToBinPart (pre ++ rest) pre.length = .ok (some (val, pos))) :
    ∃ v r, val = v.toNat ∧ rest = decimal v ++ r ∧ pos = pre.length + (decimal v).length := by
  rw [ipv4ToBinPart, Exec.bind_eq_ok] at h
  obtain ⟨c, hc, h⟩ := h
  obtain ⟨rest, rfl⟩ := readByte_length_eq_ok.mp hc
  by_cases hdigit : isdigit c = true
  swap
  · simp [hdigit] at h
  obtain ⟨a, ha, rfl⟩ := exists_digit hdigit
  rw [if_pos hdigit, addDigit_digit 0 ha] at h
  have hbyte : ∀ {n : ℕ}, n < 256 → n = (UInt8.ofNat n).toNat := by
    intro n hn
    rw [UInt8.toNat_ofNat', Nat.mod_eq_of_lt hn]
  have hsingle : a = val → pos = pre.length + 1 → ∃ v r, val = v.toNat ∧
      digit a :: rest = decimal v ++ r ∧ pos = pre.length + (decimal v).length := by
    rintro rfl rfl
    exact ⟨UInt8.ofNat a, rest, hbyte (by omega), by rw [decimal_one ha]; rfl,
      by rw [decimal_one ha]; rfl⟩
  by_cases hzero : digit a = chr '0'
  · rw [if_pos hzero] at h
    obtain ⟨rfl, rfl⟩ := Prod.mk.inj (Option.some.inj (Except.ok.inj h))
    exact hsingle ((digit_eq_chr ha).mp hzero) rfl
  rw [if_neg hzero, Exec.bind_eq_ok] at h
  have hpos : a ≠ 0 := fun h => hzero ((digit_eq_chr ha).mpr h)
  obtain ⟨c, hc, h⟩ := h
  rw [readByte_append_add, readByte_cons_succ, readByte_zero_eq_ok] at hc
  obtain ⟨rest, rfl⟩ := hc
  by_cases hdigit₁ : isdigit c = true
  swap
  · rw [if_neg hdigit₁] at h
    obtain ⟨rfl, rfl⟩ := Prod.mk.inj (Option.some.inj (Except.ok.inj h))
    exact hsingle (by omega) rfl
  obtain ⟨b, hb, rfl⟩ := exists_digit hdigit₁
  rw [if_pos hdigit₁, addDigit_digit _ hb, Exec.bind_eq_ok] at h
  obtain ⟨c, hc, h⟩ := h
  rw [readByte_append_add, readByte_cons_succ, readByte_cons_succ, readByte_zero_eq_ok] at hc
  obtain ⟨rest, rfl⟩ := hc
  by_cases hdigit₂ : isdigit c = true
  swap
  · rw [if_neg hdigit₂] at h
    obtain ⟨rfl, rfl⟩ := Prod.mk.inj (Option.some.inj (Except.ok.inj h))
    rw [show 10 * (10 * 0 + a) + b = 10 * a + b by omega]
    exact ⟨UInt8.ofNat (10 * a + b), c :: rest, hbyte (by omega),
      by rw [decimal_two ha hpos hb]; rfl, by rw [decimal_two ha hpos hb]; rfl⟩
  obtain ⟨d, hd, rfl⟩ := exists_digit hdigit₂
  rw [if_pos hdigit₂, addDigit_digit _ hd] at h
  by_cases hlarge : 255 < 10 * (10 * (10 * 0 + a) + b) + d
  · rw [if_pos hlarge] at h
    cases Except.ok.inj h
  · rw [if_neg hlarge] at h
    obtain ⟨rfl, rfl⟩ := Prod.mk.inj (Option.some.inj (Except.ok.inj h))
    rw [show 10 * (10 * (10 * 0 + a) + b) + d = 10 * (10 * a + b) + d by omega]
    have hlt : 10 * (10 * a + b) + d < 256 := by omega
    exact ⟨UInt8.ofNat (10 * (10 * a + b) + d), rest, hbyte hlt,
      by rw [decimal_three hpos hb hd hlt]; rfl, by rw [decimal_three hpos hb hd hlt]; rfl⟩

/-! ## Four numbers -/

/-- A prefix without the terminator lies in the text before it. -/
theorem append_eq_text {a r text tail : List UInt8} (ha : 0 ∉ a)
    (h : text ++ 0 :: tail = a ++ r) : ∃ r', text = a ++ r' ∧ r = r' ++ 0 :: tail := by
  rcases List.append_eq_append_iff.mp h with ⟨c, rfl, hc⟩ | ⟨c, rfl, hc⟩
  · cases c with
    | nil => exact ⟨[], by simp, by simpa using hc.symm⟩
    | cons x c =>
        obtain ⟨rfl, -⟩ := List.cons.inj hc
        exact absurd (List.mem_append_right text List.mem_cons_self) ha
  · exact ⟨c, rfl, hc⟩

/-- The dot behind the `i`th number. -/
def separator (i : ℕ) : List UInt8 := if i < 3 then [chr '.'] else []

/-- The text of a first number and of those behind it. -/
theorem dotted_separator {i : ℕ} {v : UInt8} {vs : List UInt8} (hi : i + vs.length = 3) :
    decimal v ++ separator i ++ dotted vs = dotted (v :: vs) := by
  cases vs with
  | nil =>
      rw [List.length_nil] at hi
      rw [separator, if_neg (by omega)]
      simp [dotted]
  | cons w vs =>
      rw [List.length_cons] at hi
      rw [separator, if_pos (by omega), dotted_cons v (List.cons_ne_nil w vs)]
      simp

/-- Behind a number stands its dot, or the terminator behind the last one. -/
theorem exists_separator {i : ℕ} (vs tail : List UInt8) (hi : i + vs.length = 3) :
    ∃ c r, separator i ++ dotted vs ++ 0 :: tail = c :: r ∧ isdigit c = false ∧
      (separator i = [] ∨ separator i = [c]) := by
  by_cases hlast : i < 3
  · exact ⟨chr '.', dotted vs ++ 0 :: tail, by simp [separator, hlast], isdigit_dot,
      Or.inr (by simp [separator, hlast])⟩
  · obtain rfl : vs = [] := List.eq_nil_of_length_eq_zero (by omega)
    exact ⟨0, tail, by simp [separator, hlast, dotted], isdigit_zero,
      Or.inl (by simp [separator, hlast])⟩

/-- A pass reads a number with the dot behind it. -/
theorem ipv4ToBinPass_decimal {i off : ℕ} (hi : i < 4) (pre r : List UInt8)
    {dest : List UInt8} (v : UInt8) {c : UInt8} (hc : isdigit c = false)
    (hsep : separator i = [] ∨ separator i = [c]) (hdest : off + i < dest.length) :
    ipv4ToBinPass (pre ++ (decimal v ++ c :: r)) off { i := i, pos := pre.length, dest := dest } =
      .ok (.next { i := i + 1, pos := (pre ++ decimal v ++ separator i).length,
                   dest := dest.set (off + i) v }) := by
  have hpart := ipv4ToBinPart_decimal pre v r hc
  have hread : readByte (pre ++ (decimal v ++ c :: r)) (pre.length + (decimal v).length) =
      .ok c := by
    rw [readByte_append_add, readByte_length_eq_ok]
    exact ⟨r, rfl⟩
  by_cases hlast : i < 3
  · rw [separator, if_pos hlast] at hsep ⊢
    obtain rfl : chr '.' = c := by simpa using hsep
    simp [ipv4ToBinPass, hi, hpart, hlast, hread, writeByte_of_lt hdest]
    omega
  · simp [ipv4ToBinPass, hi, hpart, hlast, separator, writeByte_of_lt hdest]

theorem ipv4ToBinPart_error {pre r : List UInt8} {e : Fault}
    (h : ipv4ToBinPart (pre ++ r) pre.length = .error e) : e = .read ∧ ∃ v, r <+: decimal v := by
  cases r with
  | nil =>
      rw [List.append_nil, ipv4ToBinPart, readByte_length] at h
      exact ⟨(Except.error.inj h).symm, 0, List.nil_prefix⟩
  | cons c r =>
      have hread : readByte (pre ++ c :: r) pre.length = .ok c :=
        readByte_length_eq_ok.mpr ⟨r, rfl⟩
      rw [ipv4ToBinPart, hread, Exec.ok_bind] at h
      cases hdigit : isdigit c with
      | false => simp [hdigit] at h
      | true =>
          obtain ⟨a, ha, rfl⟩ := exists_digit hdigit
          rw [if_pos hdigit] at h
          by_cases hzero : digit a = chr '0'
          · rw [if_pos hzero] at h
            cases h
          have hpos : a ≠ 0 := fun h => hzero ((digit_eq_chr ha).mpr h)
          rw [if_neg hzero, readByte_append_add, readByte_cons_succ] at h
          cases r with
          | nil =>
              refine ⟨(Except.error.inj h).symm, UInt8.ofNat a, ?_⟩
              simp only [decimal_one ha, List.prefix_rfl]
          | cons c r =>
              rw [readByte_cons_zero, Exec.ok_bind] at h
              cases hdigit₁ : isdigit c with
              | false => simp [hdigit₁] at h
              | true =>
                  obtain ⟨b, hb, rfl⟩ := exists_digit hdigit₁
                  rw [if_pos hdigit₁, readByte_append_add, readByte_cons_succ,
                    readByte_cons_succ] at h
                  cases r with
                  | nil =>
                      refine ⟨(Except.error.inj h).symm, UInt8.ofNat (10 * a + b), ?_⟩
                      simp only [decimal_two ha hpos hb, List.prefix_rfl]
                  | cons c r =>
                      rw [readByte_cons_zero, Exec.ok_bind] at h
                      dsimp only at h
                      split at h
                      · split at h <;> cases h
                      · cases h

/-- A pass fails, or the object ends inside the number that it reads, or it takes a number
with the dot behind it. -/
theorem ipv4ToBinPass_cases {i off : ℕ} (hi : i < 4) (pre r : List UInt8) {dest : List UInt8}
    (hdest : off + i < dest.length) :
    ipv4ToBinPass (pre ++ r) off { i := i, pos := pre.length, dest := dest } =
        .ok (.done (EINVAL, dest)) ∨
      (ipv4ToBinPass (pre ++ r) off { i := i, pos := pre.length, dest := dest } = .error .read ∧
        ∃ v, r <+: decimal v) ∨
      ∃ v r', r = decimal v ++ separator i ++ r' ∧
        ipv4ToBinPass (pre ++ r) off { i := i, pos := pre.length, dest := dest } =
          .ok (.next { i := i + 1, pos := (pre ++ decimal v ++ separator i).length,
                       dest := dest.set (off + i) v }) := by
  cases hpart : ipv4ToBinPart (pre ++ r) pre.length with
  | error e =>
      obtain ⟨rfl, hv⟩ := ipv4ToBinPart_error hpart
      refine Or.inr (Or.inl ⟨?_, hv⟩)
      rw [ipv4ToBinPass, if_pos hi, hpart]
      rfl
  | ok part =>
      rcases part with - | ⟨val, pos⟩
      · left
        rw [ipv4ToBinPass, if_pos hi, hpart]
        rfl
      obtain ⟨v, r, rfl, rfl, rfl⟩ := ipv4ToBinPart_some hpart
      have hwrite := writeByte_of_lt hdest v
      by_cases hlast : i < 3
      swap
      · have hsep : separator i = [] := if_neg hlast
        refine Or.inr (Or.inr ⟨v, r, by rw [hsep, List.append_nil], ?_⟩)
        simp only [ipv4ToBinPass, hi, if_true, hpart, Exec.ok_bind, hlast, if_false,
          UInt8.ofNat_toNat, hwrite, hsep]
        simp
      have hsep : separator i = [chr '.'] := if_pos hlast
      cases r with
      | nil =>
          have hread : readByte (pre ++ (decimal v ++ [])) (pre.length + (decimal v).length) =
              .error .read := by
            rw [List.append_nil, ← List.length_append, readByte_length]
          refine Or.inr (Or.inl ⟨?_, v, ?_⟩)
          · simp only [ipv4ToBinPass, hi, if_true, hpart, Exec.ok_bind, hlast, hread,
              Exec.error_bind]
          · simp only [List.append_nil, List.prefix_rfl]
      | cons c r =>
          have hread : readByte (pre ++ (decimal v ++ c :: r)) (pre.length + (decimal v).length) =
              .ok c := by
            rw [readByte_append_add, readByte_length_eq_ok]
            exact ⟨r, rfl⟩
          by_cases hdot : c = chr '.'
          · subst hdot
            refine Or.inr (Or.inr ⟨v, r, by simp [hsep], ?_⟩)
            simp only [ipv4ToBinPass, hi, if_true, hpart, Exec.ok_bind, hlast, hread, ne_eq,
              not_true_eq_false, if_false, UInt8.ofNat_toNat, hwrite, hsep]
            simp [Nat.add_assoc]
          · left
            simp only [ipv4ToBinPass, hi, if_true, hpart, Exec.ok_bind, hlast, hread, ne_eq,
              hdot, not_false_eq_true]

/-- In a string, a pass fails or takes a number with the dot behind it. -/
theorem ipv4ToBinPass_string {i off : ℕ} (hi : i < 4) (pre text tail : List UInt8)
    {dest : List UInt8} (hdest : off + i < dest.length) :
    ipv4ToBinPass (pre ++ (text ++ 0 :: tail)) off { i := i, pos := pre.length, dest := dest } =
        .ok (.done (EINVAL, dest)) ∨
      ∃ v r, text = decimal v ++ separator i ++ r ∧
        ipv4ToBinPass (pre ++ (text ++ 0 :: tail)) off
            { i := i, pos := pre.length, dest := dest } =
          .ok (.next { i := i + 1, pos := (pre ++ decimal v ++ separator i).length,
                       dest := dest.set (off + i) v }) := by
  have hdecimal : ∀ v, 0 ∉ decimal v := fun v hmem =>
    absurd (isdigit_of_mem_decimal hmem) (by decide)
  rcases ipv4ToBinPass_cases hi pre (text ++ 0 :: tail) hdest with
      hpass | ⟨-, v, hv⟩ | ⟨v, r, htext, hpass⟩
  · exact Or.inl hpass
  · exact absurd (hv.subset (by simp)) (hdecimal v)
  · have hzero : 0 ∉ decimal v ++ separator i := by
      intro hmem
      rcases List.mem_append.mp hmem with hmem | hmem
      · exact hdecimal v hmem
      · rw [separator] at hmem
        split at hmem
        · exact absurd (List.mem_singleton.mp hmem) (by decide)
        · cases hmem
    obtain ⟨r, rfl, -⟩ := append_eq_text hzero htext
    exact Or.inr ⟨v, r, rfl, hpass⟩

/-- Behind four numbers the loop ends: with 0 at the end of the text only. -/
theorem ipv4ToBin_loop_end {i off : ℕ} {pre text tail dest dest' : List UInt8} (hi : ¬ i < 4)
    (htext : 0 ∉ text) :
    loop (ipv4ToBinPass (pre ++ (text ++ 0 :: tail)) off) 1
        { i := i, pos := pre.length, dest := dest } = .ok (0, dest') ↔
      text = [] ∧ dest' = dest := by
  cases text with
  | nil =>
      have hpass : ipv4ToBinPass (pre ++ ([] ++ 0 :: tail)) off
          { i := i, pos := pre.length, dest := dest } = .ok (.done (0, dest)) := by
        simp [ipv4ToBinPass, hi, readByte_length_eq_ok.mpr ⟨tail, rfl⟩]
      rw [loop_done hpass]
      constructor
      · intro h
        exact ⟨rfl, (Prod.mk.inj (Except.ok.inj h)).2.symm⟩
      · rintro ⟨-, rfl⟩
        rfl
  | cons c text =>
      have hc : c ≠ 0 := fun h => htext (h ▸ List.mem_cons_self)
      have hpass : ipv4ToBinPass (pre ++ (c :: text ++ 0 :: tail)) off
          { i := i, pos := pre.length, dest := dest } = .ok (.done (EINVAL, dest)) := by
        simp [ipv4ToBinPass, hi, hc, readByte_length_eq_ok.mpr ⟨text ++ 0 :: tail, rfl⟩]
      rw [loop_done hpass]
      constructor
      · intro h
        exact absurd (Prod.mk.inj (Except.ok.inj h)).1 (by decide)
      · rintro ⟨htext, -⟩
        cases htext

/-- From its `i`th pass on, the loop reads the numbers that are left. -/
theorem ipv4ToBin_loop {off : ℕ} (tail : List UInt8) (n : ℕ) :
    ∀ {i : ℕ} {pre text dest dest' : List UInt8}, i + n = 4 → 0 ∉ text →
      off + 4 ≤ dest.length →
      (loop (ipv4ToBinPass (pre ++ (text ++ 0 :: tail)) off) (n + 1)
          { i := i, pos := pre.length, dest := dest } = .ok (0, dest') ↔
        ∃ vs : List UInt8, vs.length = n ∧ text = dotted vs ∧
          writeBytes dest (off + i) vs = .ok dest') := by
  induction n with
  | zero =>
      intro i pre text dest dest' hin htext hdest
      rw [ipv4ToBin_loop_end (by omega) htext]
      constructor
      · rintro ⟨rfl, rfl⟩
        exact ⟨[], rfl, rfl, writeBytes_nil (by omega)⟩
      · rintro ⟨vs, hlen, rfl, hwrite⟩
        obtain rfl := List.eq_nil_of_length_eq_zero hlen
        rw [writeBytes_nil (by omega)] at hwrite
        exact ⟨rfl, (Except.ok.inj hwrite).symm⟩
  | succ n ih =>
      intro i pre text dest dest' hin htext hdest
      have hi : i < 4 := by omega
      have hoff : off + i < dest.length := by omega
      have hset : ∀ v, off + 4 ≤ (dest.set (off + i) v).length := fun v => by
        rwa [List.length_set]
      have hstep : ∀ (v : UInt8) (r : List UInt8), text = decimal v ++ separator i ++ r →
          (loop (ipv4ToBinPass (pre ++ (text ++ 0 :: tail)) off) (n + 1)
              { i := i + 1, pos := (pre ++ decimal v ++ separator i).length,
                dest := dest.set (off + i) v } = .ok (0, dest') ↔
            ∃ vs : List UInt8, vs.length = n ∧ r = dotted vs ∧
              writeBytes dest (off + i) (v :: vs) = .ok dest') := by
        rintro v r rfl
        have hr : 0 ∉ r := fun hmem => htext (List.mem_append_right _ hmem)
        have hsrc : pre ++ (decimal v ++ separator i ++ r ++ 0 :: tail) =
            (pre ++ decimal v ++ separator i) ++ (r ++ 0 :: tail) := by simp
        rw [hsrc, ih (by omega) hr (hset v)]
        constructor
        · rintro ⟨vs, hlen, hr, hwrite⟩
          exact ⟨vs, hlen, hr, by rw [writeBytes_cons (by omega)]; exact hwrite⟩
        · rintro ⟨vs, hlen, hr, hwrite⟩
          rw [writeBytes_cons (by omega)] at hwrite
          exact ⟨vs, hlen, hr, hwrite⟩
      constructor
      · intro h
        rcases ipv4ToBinPass_string hi pre text tail hoff with hpass | ⟨v, r, htxt, hpass⟩
        · rw [loop_done hpass] at h
          exact absurd (Prod.mk.inj (Except.ok.inj h)).1 (by decide)
        · rw [loop_next hpass] at h
          obtain ⟨vs, hlen, rfl, hwrite⟩ := (hstep v r htxt).mp h
          refine ⟨v :: vs, by simp [hlen], ?_, hwrite⟩
          rw [htxt, dotted_separator (by omega)]
      · rintro ⟨vs, hlen, rfl, hwrite⟩
        obtain ⟨v, vs, rfl⟩ := List.exists_cons_of_length_eq_add_one hlen
        have hlen' : vs.length = n := by simpa using hlen
        have hdotted : dotted (v :: vs) = decimal v ++ separator i ++ dotted vs :=
          (dotted_separator (by omega)).symm
        obtain ⟨c, r, hcr, hc, hsep⟩ := exists_separator vs tail (by omega : i + vs.length = 3)
        have hsrc : dotted (v :: vs) ++ 0 :: tail = decimal v ++ c :: r := by
          rw [hdotted, ← hcr]
          simp
        have hbody := ipv4ToBinPass_decimal hi pre r v hc hsep hoff
        rw [← hsrc] at hbody
        rw [loop_next hbody]
        exact (hstep v (dotted vs) hdotted).mpr ⟨vs, hlen', rfl, hwrite⟩

/-- `ipv4_to_bin` takes exactly the texts of four bytes, and stores them. -/
theorem ipv4ToBin_eq_ok (pre : List UInt8) {text tail dest dest' : List UInt8} {off : ℕ}
    (htext : 0 ∉ text) (hdest : off + 4 ≤ dest.length) :
    ipv4ToBin (pre ++ (text ++ 0 :: tail)) pre.length dest off = .ok (0, dest') ↔
      ∃ vs : List UInt8, vs.length = 4 ∧ text = dotted vs ∧ writeBytes dest off vs = .ok dest' :=
  ipv4ToBin_loop tail 4 rfl htext hdest

/-! ## Reads -/

/-- What holds at every pass of `ipv4_to_bin` on a string. -/
structure ReadsString (src : List UInt8) (off len : ℕ) (st : Ipv4State) : Prop where
  index : st.i ≤ 4
  terminated : Terminated src st.pos
  length : st.dest.length = len
  room : off + 4 ≤ len

/-- `ipv4_to_bin` of a string returns 0 or `EINVAL`: it reads inside the string, and
writes four bytes at most. -/
theorem ipv4ToBin_returns {src dest : List UInt8} {pos off : ℕ} (h : Terminated src pos)
    (hdest : off + 4 ≤ dest.length) :
    ∃ res, ipv4ToBin src pos dest off = .ok res ∧
      (res.1 = 0 ∨ res.1 = EINVAL) ∧ res.2.length = dest.length := by
  apply loop_total (I := ReadsString src off dest.length) (fun st => 4 - st.i)
  swap
  · exact ⟨Nat.zero_le 4, h, rfl, hdest⟩
  swap
  · exact Nat.lt_succ_self 4
  rintro ⟨i, pos, dest'⟩ ⟨hi, hpos, hlen, -⟩
  dsimp only at hi hpos hlen
  by_cases hlast : i < 4
  swap
  · obtain ⟨c, hc, -⟩ := hpos.read
    left
    refine ⟨_, by rw [ipv4ToBinPass, if_neg hlast, hc]; rfl, ?_, hlen⟩
    by_cases h0 : c = 0
    · exact Or.inl (if_neg (not_not.mpr h0))
    · exact Or.inr (if_pos h0)
  obtain ⟨pre, text, tail, rfl, rfl⟩ := hpos.exists_string
  rcases ipv4ToBinPass_string hlast pre text tail (by omega : off + i < dest'.length) with
      hpass | ⟨v, r, rfl, hpass⟩
  · exact Or.inl ⟨_, hpass, Or.inr rfl, hlen⟩
  · right
    have hsrc : pre ++ (decimal v ++ separator i ++ r ++ 0 :: tail) =
        pre ++ decimal v ++ separator i ++ (r ++ 0 :: tail) := by simp
    have hnext := terminated_append (pre ++ decimal v ++ separator i) r tail
    rw [← hsrc] at hnext
    exact ⟨_, hpass, ⟨hlast, hnext, by simpa using hlen, hdest⟩, by dsimp only; omega⟩

end Hlibc.Inet
