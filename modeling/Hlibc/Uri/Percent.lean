import Hlibc.String.Hex
import Hlibc.Uri.Rules

/-!
# Percent-encoding

What a text with percent-encoded characters spells, and the spelling of given bytes in
which the bytes of a class stand for themselves.  A class that lacks the percent sign and
has the hexadecimal digits has one such spelling for every sequence of bytes.
-/

set_option autoImplicit false

namespace Hlibc.Uri

open Grammar
open scoped Computability

/-! ## Decoding -/

/-- The byte of two hexadecimal digits. -/
def hexByte (a b : UInt8) : UInt8 := UInt8.ofNat (16 * (hexVal a).toNat + (hexVal b).toNat)

/-- The bytes a text spells. -/
def pctDecode : List UInt8 → List UInt8
  | c :: a :: b :: w =>
      if startsPct [c, a, b] then hexByte a b :: pctDecode w else c :: pctDecode (a :: b :: w)
  | w => w

@[simp] theorem pctDecode_nil : pctDecode [] = [] := rfl

theorem pctDecode_pct {a b : UInt8} (ha : isxdigit a = true) (hb : isxdigit b = true)
    (w : List UInt8) : pctDecode (chr '%' :: a :: b :: w) = hexByte a b :: pctDecode w := by
  rw [pctDecode, startsPct_cons, ha, hb]
  rfl

theorem pctDecode_cons {c : UInt8} (hc : c ≠ chr '%') (w : List UInt8) :
    pctDecode (c :: w) = c :: pctDecode w := by
  match w with
  | [] => rfl
  | [_] => rfl
  | a :: b :: w =>
      have hstarts : startsPct [c, a, b] = false := by
        simp [startsPct, hc]
      rw [pctDecode, hstarts]
      rfl

/-! ## Spelling -/

/-- The hexadecimal digits, in upper case. -/
def upperDigit (n : ℕ) : UInt8 := (ascii "0123456789ABCDEF").getD n 0

/-- A byte as a percent sign and two upper-case digits. -/
def pctByte (c : UInt8) : List UInt8 :=
  [chr '%', upperDigit (c.toNat / 16), upperDigit (c.toNat % 16)]

/-- The bytes of the class stand for themselves. -/
def spellByte (p : UInt8 → Bool) (c : UInt8) : List UInt8 := if p c then [c] else pctByte c

/-- The spelling of bytes in which those of the class stand for themselves. -/
def pctEncode (p : UInt8 → Bool) (bytes : List UInt8) : List UInt8 := bytes.flatMap (spellByte p)

/-- The canonical spelling of what a text spells. -/
def canonical (p : UInt8 → Bool) (w : List UInt8) : List UInt8 := pctEncode p (pctDecode w)

/-- The digits of a byte, read back, and the digit of a value. -/
theorem upperDigit_spec (c : UInt8) : (isxdigit (upperDigit (c.toNat / 16)) = true ∧
    isxdigit (upperDigit (c.toNat % 16)) = true ∧
    hexByte (upperDigit (c.toNat / 16)) (upperDigit (c.toNat % 16)) = c) ∧
    (isxdigit c = true → upperDigit (hexVal c).toNat = toupper c) :=
  hexCset_spec c

theorem pctByte_digits (c : UInt8) : isxdigit (upperDigit (c.toNat / 16)) = true ∧
    isxdigit (upperDigit (c.toNat % 16)) = true ∧
    hexByte (upperDigit (c.toNat / 16)) (upperDigit (c.toNat % 16)) = c :=
  (upperDigit_spec c).1

/-- The spelling of the byte of two digits has the digits in upper case. -/
theorem pctByte_hexByte {a b : UInt8} (ha : isxdigit a = true) (hb : isxdigit b = true) :
    pctByte (hexByte a b) = [chr '%', toupper a, toupper b] := by
  have hlta := hexVal_lt a
  have hltb := hexVal_lt b
  have hupa := (upperDigit_spec a).2 ha
  have hupb := (upperDigit_spec b).2 hb
  have hval : (hexByte a b).toNat = 16 * (hexVal a).toNat + (hexVal b).toNat := by
    rw [hexByte, UInt8.toNat_ofNat']
    exact Nat.mod_eq_of_lt (by omega)
  have hdiv : (hexByte a b).toNat / 16 = (hexVal a).toNat := by omega
  have hmod : (hexByte a b).toNat % 16 = (hexVal b).toNat := by omega
  rw [pctByte, hdiv, hmod, hupa, hupb]

section Spelling

variable {p : UInt8 → Bool} {w : List UInt8}

@[simp] theorem pctEncode_nil : pctEncode p [] = [] := rfl

@[simp] theorem pctEncode_cons (c : UInt8) (bytes : List UInt8) :
    pctEncode p (c :: bytes) = spellByte p c ++ pctEncode p bytes := List.flatMap_cons

theorem spellByte_pos {c : UInt8} (hc : p c = true) : spellByte p c = [c] := if_pos hc

theorem spellByte_neg {c : UInt8} (hc : p c = false) : spellByte p c = pctByte c :=
  if_neg (by rw [hc]; exact Bool.false_ne_true)

theorem spellByte_mem_unit (c : UInt8) : spellByte p c ∈ one p + pctEncoded := by
  cases hc : p c with
  | true =>
      rw [spellByte_pos hc]
      exact Or.inl ⟨c, rfl, hc⟩
  | false =>
      obtain ⟨hhigh, hlow, -⟩ := pctByte_digits c
      rw [spellByte_neg hc]
      exact Or.inr (mem_pctEncoded.mpr ⟨_, _, rfl, hhigh, hlow⟩)

theorem pctEncode_mem_units (bytes : List UInt8) : pctEncode p bytes ∈ units p := by
  induction bytes with
  | nil => exact Language.nil_mem_kstar _
  | cons c bytes ih =>
      rw [pctEncode_cons]
      exact append_mem_kstar (spellByte_mem_unit c) ih

theorem pctDecode_spellByte (hpct : p (chr '%') = false) (c : UInt8) (w : List UInt8) :
    pctDecode (spellByte p c ++ w) = c :: pctDecode w := by
  cases hc : p c with
  | true =>
      have hne : c ≠ chr '%' := by
        rintro rfl
        rw [hc] at hpct
        cases hpct
      rw [spellByte_pos hc]
      exact pctDecode_cons hne w
  | false =>
      obtain ⟨hhigh, hlow, hbyte⟩ := pctByte_digits c
      rw [spellByte_neg hc]
      exact (pctDecode_pct hhigh hlow w).trans (by rw [hbyte])

theorem pctDecode_pctEncode (hpct : p (chr '%') = false) :
    Function.LeftInverse pctDecode (pctEncode p) := by
  intro bytes
  induction bytes with
  | nil => rfl
  | cons c bytes ih => rw [pctEncode_cons, pctDecode_spellByte hpct, ih]

theorem canonical_canonical (hpct : p (chr '%') = false) (w : List UInt8) :
    canonical p (canonical p w) = canonical p w := by
  rw [canonical, canonical, pctDecode_pctEncode hpct]

/-- Texts have one canonical spelling exactly if they spell the same bytes. -/
theorem canonical_eq_iff (hpct : p (chr '%') = false) {v : List UInt8} :
    canonical p v = canonical p w ↔ pctDecode v = pctDecode w :=
  (pctDecode_pctEncode hpct).injective.eq_iff

/-! ## Canonical spellings, unit by unit -/

/-- A repetition of units is empty, or a unit and another repetition. -/
theorem mem_units_cases_front : w ∈ units p ↔
    w = [] ∨ ∃ u ∈ one p + pctEncoded, ∃ r ∈ units p, w = u ++ r := by
  rw [units, ← Language.one_add_self_mul_kstar_eq_kstar, Language.mem_add, Language.mem_one,
    Language.one_add_self_mul_kstar_eq_kstar, Language.mem_mul]
  refine or_congr_right ⟨?_, ?_⟩
  · rintro ⟨u, hu, r, hr, rfl⟩
    exact ⟨u, hu, r, hr, rfl⟩
  · rintro ⟨u, hu, r, hr, rfl⟩
    exact ⟨u, hu, r, hr, rfl⟩

theorem cons_mem_units {c : UInt8} (hc : c ≠ chr '%') :
    c :: w ∈ units p ↔ p c = true ∧ w ∈ units p := by
  rw [mem_units_cases_front]
  constructor
  · rintro (heq | ⟨u, hu, r, hr, heq⟩)
    · cases heq
    · rcases (Language.mem_add _ _ _).mp hu with ⟨d, rfl, hd⟩ | hpct
      · obtain ⟨rfl, rfl⟩ := List.cons.inj heq
        exact ⟨hd, hr⟩
      · obtain ⟨a, b, rfl, -⟩ := mem_pctEncoded.mp hpct
        exact absurd (List.cons.inj heq).1 hc
  · rintro ⟨hp, hw⟩
    exact Or.inr ⟨[c], Or.inl ⟨c, rfl, hp⟩, w, hw, rfl⟩

theorem pct_mem_units (hpct : p (chr '%') = false) :
    chr '%' :: w ∈ units p ↔ ∃ a b r, w = a :: b :: r ∧ isxdigit a = true ∧
      isxdigit b = true ∧ r ∈ units p := by
  rw [mem_units_cases_front]
  constructor
  · rintro (heq | ⟨u, hu, r, hr, heq⟩)
    · cases heq
    · rcases (Language.mem_add _ _ _).mp hu with ⟨d, rfl, hd⟩ | hmem
      · obtain ⟨rfl, -⟩ := List.cons.inj heq
        rw [hd] at hpct
        cases hpct
      · obtain ⟨a, b, rfl, ha, hb⟩ := mem_pctEncoded.mp hmem
        exact ⟨a, b, r, (List.cons.inj heq).2, ha, hb, hr⟩
  · rintro ⟨a, b, r, rfl, ha, hb, hr⟩
    exact Or.inr ⟨[chr '%', a, b], Or.inr (mem_pctEncoded.mpr ⟨a, b, rfl, ha, hb⟩), r, hr, rfl⟩

/-- Induction over the units of a text, for a class without the percent sign. -/
theorem units_induction {motive : List UInt8 → Prop} (hpct : p (chr '%') = false)
    (hnil : motive [])
    (hchar : ∀ c r, c ≠ chr '%' → p c = true → r ∈ units p → motive r → motive (c :: r))
    (hunit : ∀ a b r, isxdigit a = true → isxdigit b = true → r ∈ units p → motive r →
      motive (chr '%' :: a :: b :: r)) (hw : w ∈ units p) : motive w := by
  refine kstar_induction hnil ?_ hw
  intro u hu r hr ih
  rcases (Language.mem_add _ _ _).mp hu with ⟨c, rfl, hc⟩ | hmem
  · refine hchar c r ?_ hc hr ih
    rintro rfl
    rw [hc] at hpct
    cases hpct
  · obtain ⟨a, b, rfl, ha, hb⟩ := mem_pctEncoded.mp hmem
    exact hunit a b r ha hb hr ih

theorem canonical_cons {c : UInt8} (hne : c ≠ chr '%') (hc : p c = true) (w : List UInt8) :
    canonical p (c :: w) = c :: canonical p w := by
  rw [canonical, pctDecode_cons hne, pctEncode_cons, spellByte_pos hc]
  rfl

theorem canonical_pct {a b : UInt8} (ha : isxdigit a = true) (hb : isxdigit b = true)
    (w : List UInt8) :
    canonical p (chr '%' :: a :: b :: w) = spellByte p (hexByte a b) ++ canonical p w := by
  rw [canonical, pctDecode_pct ha hb, pctEncode_cons]
  rfl

theorem length_spellByte_le (c : UInt8) : (spellByte p c).length ≤ 3 := by
  rw [spellByte]
  split
  · exact (by decide : 1 ≤ 3)
  · exact le_refl 3

theorem length_canonical_le (hpct : p (chr '%') = false) (hw : w ∈ units p) :
    (canonical p w).length ≤ w.length := by
  refine units_induction (motive := fun w => (canonical p w).length ≤ w.length) hpct
    (le_refl 0) ?_ ?_ hw
  · intro c r hne hc _ ih
    rw [canonical_cons hne hc, List.length_cons, List.length_cons]
    omega
  · intro a b r ha hb _ ih
    have hspell := length_spellByte_le (p := p) (hexByte a b)
    rw [canonical_pct ha hb, List.length_append, List.length_cons, List.length_cons,
      List.length_cons]
    omega

/-- A text of characters that stand for themselves is canonical. -/
theorem canonical_of_forall (hpct : p (chr '%') = false) (hw : ∀ c ∈ w, p c = true) :
    canonical p w = w := by
  induction w with
  | nil => rfl
  | cons c w ih =>
      have hc := hw c List.mem_cons_self
      have hne : c ≠ chr '%' := by
        rintro rfl
        rw [hc] at hpct
        cases hpct
      rw [canonical_cons hne hc, ih fun d hd => hw d (List.mem_cons_of_mem c hd)]

end Spelling

/-! ## Texts in which every character has its place -/

/-- Every character is in the class, or begins a percent-encoded one. -/
def EachStarts (p : UInt8 → Bool) (w : List UInt8) : Prop :=
  ∀ front c back, w = front ++ c :: back → startsUnit p (c :: back) = true

/-- With the hexadecimal digits in the class, these are the repetitions of units. -/
theorem eachStarts_iff {p : UInt8 → Bool} (hhex : ∀ c, isxdigit c = true → p c = true)
    {w : List UInt8} : EachStarts p w ↔ w ∈ units p := by
  constructor
  · intro h
    obtain ⟨x, y, hscan⟩ : ∃ x y, scan (startsUnit p) w = (x, y) := ⟨_, _, rfl⟩
    obtain ⟨hx, hstop, rfl⟩ := (scan_units_iff hhex).mp hscan
    cases y with
    | nil => rwa [List.append_nil]
    | cons c y =>
        rw [h x c y rfl] at hstop
        cases hstop
  · rintro hw front c back rfl
    have hscan : scan (startsUnit p) (front ++ c :: back) = (front ++ c :: back, []) :=
      (scan_units_iff hhex).mpr ⟨hw, rfl, (List.append_nil _).symm⟩
    have hback := scan_suffix front hscan
    by_contra hstop
    rw [scan_neg (Bool.eq_false_of_not_eq_true hstop)] at hback
    exact absurd (Prod.mk.inj hback).1 (List.cons_ne_nil c back).symm

end Hlibc.Uri
