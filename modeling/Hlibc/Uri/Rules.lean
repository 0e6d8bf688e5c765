import Hlibc.Uri.Grammar
import Mathlib.Tactic.Abel

/-!
# The rules of the grammar as scans

Every rule with sub-delimiters is a repetition of units, and the rules for paths
differ only in how the first segment may look.  These are the forms in which a
scanner meets the rules.
-/

set_option autoImplicit false

namespace Hlibc.Uri

open Grammar
open scoped Computability

/-! ## Classes of characters -/

/-- The characters of a scheme. -/
def isSchemeChar (c : UInt8) : Bool :=
  isAlpha c || isdigit c || c == chr '+' || c == chr '-' || c == chr '.'

section Classes

variable (sub : UInt8 → Bool)

/-- The characters of a registered name. -/
def isNameChar (c : UInt8) : Bool := isUnreserved c || sub c

/-- The characters of the user information. -/
def isUserinfoChar (c : UInt8) : Bool := isUnreserved c || sub c || c == chr ':'

/-- The characters of a first segment without a colon. -/
def isNcChar (c : UInt8) : Bool := isUnreserved c || sub c || c == chr '@'

/-- The characters of a segment. -/
def isPchar (c : UInt8) : Bool := isUnreserved c || sub c || c == chr ':' || c == chr '@'

/-- The characters of a path. -/
def isPathChar (c : UInt8) : Bool := isPchar sub c || c == chr '/'

/-- The characters of a query or a fragment. -/
def isQueryChar (c : UInt8) : Bool := isPchar sub c || c == chr '/' || c == chr '?'

end Classes

theorem lit_singleton (c : UInt8) : lit [c] = one (· == c) := by
  ext w
  rw [mem_lit, mem_one]
  constructor
  · rintro rfl
    exact ⟨c, rfl, beq_self_eq_true c⟩
  · rintro ⟨d, rfl, hd⟩
    rw [beq_iff_eq.mp hd]

theorem one_or (p q : UInt8 → Bool) : one (fun c => p c || q c) = one p + one q := by
  ext w
  rw [Language.mem_add, mem_one, mem_one, mem_one]
  constructor
  · rintro ⟨c, rfl, hc⟩
    rcases Bool.or_eq_true_iff.mp hc with hp | hq
    · exact Or.inl ⟨c, rfl, hp⟩
    · exact Or.inr ⟨c, rfl, hq⟩
  · rintro (⟨c, rfl, hp⟩ | ⟨c, rfl, hq⟩)
    · exact ⟨c, rfl, by rw [hp, Bool.true_or]⟩
    · exact ⟨c, rfl, by rw [hq, Bool.or_true]⟩

section Units

variable (sub : UInt8 → Bool)

theorem one_isPchar :
    one (isPchar sub) = one isUnreserved + one sub + lit [chr ':'] + lit [chr '@'] := by
  rw [lit_singleton, lit_singleton, ← one_or, ← one_or, ← one_or]
  rfl

theorem pchar_eq : pchar sub = one (isPchar sub) + pctEncoded := by
  rw [one_isPchar, pchar]
  abel

theorem ncChar_eq : ncChar sub = one (isNcChar sub) + pctEncoded := by
  have hone : one (isNcChar sub) = one isUnreserved + one sub + lit [chr '@'] := by
    rw [lit_singleton, ← one_or, ← one_or]
    rfl
  rw [hone, ncChar]
  abel

theorem userinfo_eq : userinfo sub = units (isUserinfoChar sub) := by
  have hone : one (isUserinfoChar sub) = one isUnreserved + one sub + lit [chr ':'] := by
    rw [lit_singleton, ← one_or, ← one_or]
    rfl
  rw [units, hone, userinfo]
  congr 1
  abel

theorem regName_eq : regName sub = units (isNameChar sub) := by
  have hone : one (isNameChar sub) = one isUnreserved + one sub := by
    rw [← one_or]
    rfl
  rw [units, hone, regName]
  congr 1
  abel

theorem query_eq : query sub = units (isQueryChar sub) := by
  have hone : one (isQueryChar sub) = one (isPchar sub) + lit [chr '/'] + lit [chr '?'] := by
    rw [lit_singleton, lit_singleton, ← one_or, ← one_or]
    rfl
  rw [units, hone, query, pchar_eq]
  congr 1
  abel

theorem fragment_eq : fragment sub = units (isQueryChar sub) :=
  query_eq sub

theorem scheme_eq : scheme = one isAlpha * (one isSchemeChar)∗ := by
  have hone : one isSchemeChar =
      one isAlpha + one isdigit + lit [chr '+'] + lit [chr '-'] + lit [chr '.'] := by
    rw [lit_singleton, lit_singleton, lit_singleton, ← one_or, ← one_or, ← one_or, ← one_or]
    rfl
  rw [hone, scheme]

theorem mem_scheme {w : List UInt8} :
    w ∈ scheme ↔ isAlpha (w.headD 0) = true ∧ ∀ c ∈ w, isSchemeChar c = true := by
  rw [scheme_eq, mem_one_mul]
  constructor
  · rintro ⟨c, r, rfl, hc, hr⟩
    refine ⟨hc, fun d hd => ?_⟩
    rcases List.mem_cons.mp hd with rfl | hd
    · simp [isSchemeChar, hc]
    · exact mem_kstar_one.mp hr d hd
  · rintro ⟨hhead, hall⟩
    cases w with
    | nil => exact absurd hhead (by decide)
    | cons c r =>
        exact ⟨c, r, rfl, hhead,
          mem_kstar_one.mpr fun d hd => hall d (List.mem_cons_of_mem c hd)⟩

end Units

/-! ## Units -/

/-- A percent-encoded character is in front. -/
def startsPct : List UInt8 → Bool
  | c :: a :: b :: _ => c == chr '%' && isxdigit a && isxdigit b
  | _ => false

/-- A unit is in front. -/
def startsUnit (p : UInt8 → Bool) : List UInt8 → Bool
  | [] => false
  | c :: w => p c || startsPct (c :: w)

theorem mem_pctEncoded {w : List UInt8} :
    w ∈ pctEncoded ↔ ∃ a b, w = [chr '%', a, b] ∧ isxdigit a = true ∧ isxdigit b = true := by
  rw [pctEncoded, mul_assoc, mem_lit_mul]
  constructor
  · rintro ⟨r, rfl, hr⟩
    obtain ⟨a, r, rfl, ha, b, rfl, hb⟩ := mem_one_mul.mp hr
    exact ⟨a, b, rfl, ha, hb⟩
  · rintro ⟨a, b, rfl, ha, hb⟩
    exact ⟨[a, b], rfl, mem_one_mul.mpr ⟨a, [b], rfl, ha, b, rfl, hb⟩⟩

theorem startsPct_cons (a b : UInt8) (w : List UInt8) :
    startsPct (chr '%' :: a :: b :: w) = (isxdigit a && isxdigit b) := by
  simp [startsPct]

theorem exists_of_startsPct {w : List UInt8} (h : startsPct w = true) :
    ∃ a b r, w = chr '%' :: a :: b :: r ∧ isxdigit a = true ∧ isxdigit b = true := by
  match w, h with
  | c :: a :: b :: r, h =>
      simp only [startsPct, Bool.and_eq_true, beq_iff_eq] at h
      obtain ⟨⟨rfl, ha⟩, hb⟩ := h
      exact ⟨a, b, r, rfl, ha, hb⟩

section Scan

variable {p : UInt8 → Bool}

/-- The scanner of units takes each unit whole, since hexadecimal digits are units. -/
theorem scan_unit (hhex : ∀ c, isxdigit c = true → p c = true) {u : List UInt8}
    (hu : u ∈ one p + pctEncoded) (w : List UInt8) :
    scan (startsUnit p) (u ++ w) =
      (u ++ (scan (startsUnit p) w).1, (scan (startsUnit p) w).2) := by
  have hchar : ∀ c v, p c = true → scan (startsUnit p) (c :: v) =
      (c :: (scan (startsUnit p) v).1, (scan (startsUnit p) v).2) := fun c v hc =>
    scan_cons_pos (by rw [startsUnit, hc, Bool.true_or])
  rcases (Language.mem_add _ _ _).mp hu with ⟨c, rfl, hc⟩ | hpct
  · exact hchar c w hc
  · obtain ⟨a, b, rfl, ha, hb⟩ := mem_pctEncoded.mp hpct
    have hstart : startsUnit p (chr '%' :: a :: b :: w) = true := by
      rw [startsUnit, startsPct_cons, ha, hb, Bool.and_true, Bool.or_true]
    have hscan := scan_cons_pos hstart
    rw [hchar a _ (hhex a ha), hchar b _ (hhex b hb)] at hscan
    exact hscan

theorem exists_unit {w : List UInt8} (h : startsUnit p w = true) :
    ∃ u ∈ one p + pctEncoded, u ≠ [] ∧ ∃ r, w = u ++ r := by
  cases w with
  | nil => cases h
  | cons c w =>
      rcases Bool.or_eq_true_iff.mp h with hc | hpct
      · exact ⟨[c], Or.inl ⟨c, rfl, hc⟩, List.cons_ne_nil c [], w, rfl⟩
      · obtain ⟨a, b, r, heq, ha, hb⟩ := exists_of_startsPct hpct
        exact ⟨[chr '%', a, b], Or.inr (mem_pctEncoded.mpr ⟨a, b, rfl, ha, hb⟩),
          List.cons_ne_nil _ _, r, heq⟩

theorem scan_mem_units (hhex : ∀ c, isxdigit c = true → p c = true) (w : List UInt8) :
    (scan (startsUnit p) w).1 ∈ units p :=
  scan_mem_kstar (fun _ hu => scan_unit hhex hu) (fun _ => exists_unit) w

/-- The scanner cuts a text behind its longest repetition of units. -/
theorem scan_units_iff (hhex : ∀ c, isxdigit c = true → p c = true) {w x y : List UInt8} :
    scan (startsUnit p) w = (x, y) ↔ x ∈ units p ∧ startsUnit p y = false ∧ w = x ++ y := by
  constructor
  · intro h
    have hx := scan_mem_units hhex w
    have hy := scan_stops (p := startsUnit p) rfl w
    have hw := scan_append (startsUnit p) w
    rw [h] at hx hy hw
    exact ⟨hx, hy, hw.symm⟩
  · rintro ⟨hx, hstop, rfl⟩
    exact scan_kstar_of_stop (fun _ hu => scan_unit hhex hu) hx hstop

/-- Units in front of a place where none starts are what the scanner takes. -/
theorem scan_units_unique (hhex : ∀ c, isxdigit c = true → p c = true)
    {w x y x' y' : List UInt8} (hscan : scan (startsUnit p) w = (x, y)) (hx' : x' ∈ units p)
    (hstop : startsUnit p y' = false) (hw : w = x' ++ y') : x' = x ∧ y' = y := by
  have hscan' := (scan_units_iff hhex).mpr ⟨hx', hstop, hw⟩
  exact Prod.mk.inj (hscan'.symm.trans hscan)

end Scan

/-! ## Characters of units -/

theorem mem_units_cases {p : UInt8 → Bool} {x : List UInt8} (hx : x ∈ units p) {c : UInt8}
    (hc : c ∈ x) : p c = true ∨ c = chr '%' ∨ isxdigit c = true := by
  revert hc
  refine kstar_induction
    (motive := fun x => c ∈ x → p c = true ∨ c = chr '%' ∨ isxdigit c = true) ?_ ?_ hx
  · exact fun h => absurd h List.not_mem_nil
  · intro u hu y _ ih hc
    rcases List.mem_append.mp hc with hcu | hcy
    · rcases (Language.mem_add _ _ _).mp hu with ⟨d, rfl, hd⟩ | hpct
      · rw [List.mem_singleton.mp hcu]
        exact Or.inl hd
      · obtain ⟨a, b, rfl, ha, hb⟩ := mem_pctEncoded.mp hpct
        simp only [List.mem_cons, List.not_mem_nil, or_false] at hcu
        rcases hcu with rfl | rfl | rfl
        · exact Or.inr (Or.inl rfl)
        · exact Or.inr (Or.inr ha)
        · exact Or.inr (Or.inr hb)
    · exact ih hcy

/-- A character that is in no unit is in no repetition of units. -/
theorem notMem_units {p : UInt8 → Bool} {x : List UInt8} {k : UInt8} (hp : p k = false)
    (hmark : k ≠ chr '%' ∧ isxdigit k = false) (hx : x ∈ units p) : k ∉ x := by
  intro hk
  rcases mem_units_cases hx hk with hchar | hpct | hhex
  · exact Bool.false_ne_true (hp.symm.trans hchar)
  · exact hmark.1 hpct
  · exact Bool.false_ne_true (hmark.2.symm.trans hhex)

theorem mem_units_of_forall {p : UInt8 → Bool} {x : List UInt8} (hx : ∀ c ∈ x, p c = true) :
    x ∈ units p := by
  have hle : one p ≤ one p + pctEncoded := le_add_of_nonneg_right zero_le
  exact kstar_mono hle (mem_kstar_one.mpr hx)

theorem units_mono {p q : UInt8 → Bool} (h : ∀ c, p c = true → q c = true) {x : List UInt8}
    (hx : x ∈ units p) : x ∈ units q := by
  have hone : one p ≤ one q := by
    rintro _ ⟨c, rfl, hc⟩
    exact ⟨c, rfl, h c hc⟩
  exact kstar_mono (add_le_add hone le_rfl) hx

/-- Without one of the characters, a repetition of units is one of the smaller class. -/
theorem units_restrict {p q : UInt8 → Bool} {k : UInt8} {x : List UInt8}
    (hq : ∀ c, p c = true → c ≠ k → q c = true) (hx : x ∈ units p) (hk : k ∉ x) :
    x ∈ units q := by
  revert hk
  refine kstar_induction (motive := fun x => k ∉ x → x ∈ units q) ?_ ?_ hx
  · exact fun _ => Language.nil_mem_kstar _
  · intro u hu y _ ih hk
    have hrest := ih fun h => hk (List.mem_append_right u h)
    refine append_mem_kstar ?_ hrest
    rcases (Language.mem_add _ _ _).mp hu with ⟨c, rfl, hc⟩ | hpct
    · exact Or.inl ⟨c, rfl, hq c hc fun h => hk (by simp [h])⟩
    · exact Or.inr hpct

/-- Every `%` is followed by two hexadecimal digits. -/
def PctComplete (x : List UInt8) : Prop :=
  ∀ k, x[k]? = some (chr '%') →
    ∃ a b, x[k + 1]? = some a ∧ x[k + 2]? = some b ∧ isxdigit a = true ∧ isxdigit b = true

theorem units_pctComplete {p : UInt8 → Bool} (hp : p (chr '%') = false) {x : List UInt8}
    (hx : x ∈ units p) : PctComplete x := by
  refine kstar_induction (motive := PctComplete) ?_ ?_ hx
  · intro k hk
    cases hk
  · intro u hu y _ ih k hk
    have hlater : ∀ j, y[j]? = some (chr '%') → ∃ a b, (u ++ y)[u.length + j + 1]? = some a ∧
        (u ++ y)[u.length + j + 2]? = some b ∧ isxdigit a = true ∧ isxdigit b = true := by
      intro j hj
      obtain ⟨a, b, ha, hb, hax, hbx⟩ := ih j hj
      refine ⟨a, b, ?_, ?_, hax, hbx⟩
      · rw [List.getElem?_append_right (by omega), ← ha]
        congr 1
        omega
      · rw [List.getElem?_append_right (by omega), ← hb]
        congr 1
        omega
    rcases Nat.lt_or_ge k u.length with hlt | hge
    · rw [List.getElem?_append_left hlt] at hk
      rcases (Language.mem_add _ _ _).mp hu with ⟨c, rfl, hc⟩ | hpct
      · obtain rfl : k = 0 := by simpa using hlt
        obtain rfl : c = chr '%' := by simpa using hk
        rw [hp] at hc
        cases hc
      · obtain ⟨a, b, rfl, ha, hb⟩ := mem_pctEncoded.mp hpct
        have hnot : ∀ d, isxdigit d = true → d ≠ chr '%' := by
          rintro d hd rfl
          exact absurd hd (by decide)
        match k, hk with
        | 0, _ => exact ⟨a, b, by simp, by simp, ha, hb⟩
        | 1, hk => exact absurd (by simpa using hk) (hnot a ha)
        | 2, hk => exact absurd (by simpa using hk) (hnot b hb)
    · rw [List.getElem?_append_right hge] at hk
      have := hlater (k - u.length) hk
      rwa [Nat.add_sub_cancel' hge] at this

/-! ## Paths -/

/-- A class of sub-delimiters that contains no other delimiter. -/
def Separable (sub : UInt8 → Bool) : Prop :=
  ∀ c ∈ ascii ":/?#[]@%", sub c = false

/-- The part of a path in front of the first slash. -/
def firstSegment (w : List UInt8) : List UInt8 := w.takeWhile (· != chr '/')

theorem units_isPathChar (sub : UInt8 → Bool) :
    units (isPathChar sub) = segment sub * pathAbempty sub := by
  have hone : one (isPathChar sub) = one (isPchar sub) + lit [chr '/'] := by
    rw [lit_singleton, ← one_or]
    rfl
  have hsum : one (isPathChar sub) + pctEncoded = pchar sub + lit [chr '/'] := by
    rw [hone, pchar_eq]
    abel
  rw [units, hsum, kstar_add]
  rfl

section Paths

variable {sub : UInt8 → Bool} {w : List UInt8}

theorem segment_eq (sub : UInt8 → Bool) : segment sub = units (isPchar sub) := by
  rw [segment, pchar_eq, units]

theorem nil_notMem_units_one {p : UInt8 → Bool} : [] ∉ one p + pctEncoded := by
  rintro (⟨c, hc, -⟩ | hpct)
  · cases hc
  · obtain ⟨a, b, hab, -, -⟩ := mem_pctEncoded.mp hpct
    cases hab

theorem mem_segmentNz : w ∈ segmentNz sub ↔ w ∈ segment sub ∧ w ≠ [] := by
  rw [segmentNz, segment, pchar_eq]
  exact mem_mul_kstar nil_notMem_units_one

theorem mem_segmentNzNc : w ∈ segmentNzNc sub ↔ w ∈ units (isNcChar sub) ∧ w ≠ [] := by
  rw [segmentNzNc, ncChar_eq]
  exact mem_mul_kstar nil_notMem_units_one

variable (hsub : Separable sub)

include hsub

theorem slash_notMem_segment (hw : w ∈ segment sub) : chr '/' ∉ w := by
  rw [segment_eq] at hw
  have hslash : sub (chr '/') = false := hsub _ (by decide)
  have hpchar : isPchar sub (chr '/') = false := by
    rw [isPchar, hslash]
    decide
  exact notMem_units hpchar (by decide) hw

omit hsub in
/-- A path behind an authority is empty or starts with a slash. -/
theorem pathAbempty_cases (hw : w ∈ pathAbempty sub) :
    w = [] ∨ ∃ s ∈ segment sub, ∃ r ∈ pathAbempty sub, w = chr '/' :: (s ++ r) := by
  rw [pathAbempty, ← Language.one_add_self_mul_kstar_eq_kstar, Language.mem_add] at hw
  refine hw.imp_right fun hmul => ?_
  rw [mul_assoc, mem_lit_mul] at hmul
  obtain ⟨r, rfl, hr⟩ := hmul
  obtain ⟨s, hs, y, hy, rfl⟩ := Language.mem_mul.mp hr
  exact ⟨s, hs, y, hy, rfl⟩

omit hsub in
theorem firstSegment_of_pathAbempty (hw : w ∈ pathAbempty sub) : firstSegment w = [] := by
  rcases pathAbempty_cases hw with rfl | ⟨s, -, r, -, rfl⟩
  · rfl
  · rfl

theorem firstSegment_append {x : List UInt8} (hx : x ∈ segment sub) (hw : w ∈ pathAbempty sub) :
    firstSegment (x ++ w) = x := by
  have hall : ∀ c ∈ x, (c != chr '/') = true := fun c hc =>
    bne_iff_ne.mpr fun h => slash_notMem_segment hsub hx (h ▸ hc)
  rw [firstSegment, List.takeWhile_append_of_pos hall, ← firstSegment,
    firstSegment_of_pathAbempty hw, List.append_nil]

/-- A path is its first segment and a path that is empty or starts with a slash. -/
theorem mem_units_isPathChar : w ∈ units (isPathChar sub) ↔
    firstSegment w ∈ segment sub ∧ ∃ r ∈ pathAbempty sub, w = firstSegment w ++ r := by
  rw [units_isPathChar]
  constructor
  · intro hw
    obtain ⟨x, hx, r, hr, rfl⟩ := Language.mem_mul.mp hw
    rw [firstSegment_append hsub hx hr]
    exact ⟨hx, r, hr, rfl⟩
  · rintro ⟨hfirst, r, hr, hw⟩
    rw [hw]
    exact Language.append_mem_mul hfirst hr

theorem mem_pathAbempty : w ∈ pathAbempty sub ↔
    w ∈ units (isPathChar sub) ∧ firstSegment w = [] := by
  constructor
  · intro hw
    refine ⟨?_, firstSegment_of_pathAbempty hw⟩
    rw [units_isPathChar]
    exact Language.append_mem_mul (Language.nil_mem_kstar _) hw
  · rintro ⟨hw, hfirst⟩
    obtain ⟨-, r, hr, heq⟩ := (mem_units_isPathChar hsub).mp hw
    rw [heq, hfirst]
    exact hr

theorem mem_pathRootless : w ∈ pathRootless sub ↔
    w ∈ units (isPathChar sub) ∧ firstSegment w ≠ [] := by
  constructor
  · intro hw
    obtain ⟨x, hx, r, hr, rfl⟩ := Language.mem_mul.mp hw
    obtain ⟨hseg, hne⟩ := mem_segmentNz.mp hx
    rw [firstSegment_append hsub hseg hr, units_isPathChar]
    exact ⟨Language.append_mem_mul hseg hr, hne⟩
  · rintro ⟨hw, hne⟩
    obtain ⟨hseg, r, hr, heq⟩ := (mem_units_isPathChar hsub).mp hw
    rw [heq]
    exact Language.append_mem_mul (mem_segmentNz.mpr ⟨hseg, hne⟩) hr

theorem mem_units_isNcChar : w ∈ units (isNcChar sub) ↔ w ∈ segment sub ∧ chr ':' ∉ w := by
  rw [segment_eq]
  constructor
  · intro hw
    refine ⟨units_mono (fun c hc => ?_) hw, notMem_units ?_ (by decide) hw⟩
    · simp only [isNcChar, Bool.or_eq_true] at hc
      simp only [isPchar, Bool.or_eq_true]
      tauto
    · have hcolon : sub (chr ':') = false := hsub _ (by decide)
      rw [isNcChar, hcolon]
      decide
  · rintro ⟨hw, hmem⟩
    refine units_restrict (fun c hc hne => ?_) hw hmem
    simp only [isPchar, Bool.or_eq_true, beq_iff_eq] at hc
    simp only [isNcChar, Bool.or_eq_true, beq_iff_eq]
    tauto

theorem mem_pathNoscheme : w ∈ pathNoscheme sub ↔
    w ∈ units (isPathChar sub) ∧ firstSegment w ≠ [] ∧ chr ':' ∉ firstSegment w := by
  constructor
  · intro hw
    obtain ⟨x, hx, r, hr, rfl⟩ := Language.mem_mul.mp hw
    obtain ⟨hunits, hne⟩ := mem_segmentNzNc.mp hx
    obtain ⟨hseg, hcolon⟩ := (mem_units_isNcChar hsub).mp hunits
    rw [firstSegment_append hsub hseg hr, units_isPathChar]
    exact ⟨Language.append_mem_mul hseg hr, hne, hcolon⟩
  · rintro ⟨hw, hne, hcolon⟩
    obtain ⟨hseg, r, hr, heq⟩ := (mem_units_isPathChar hsub).mp hw
    rw [heq]
    exact Language.append_mem_mul
      (mem_segmentNzNc.mpr ⟨(mem_units_isNcChar hsub).mpr ⟨hseg, hcolon⟩, hne⟩) hr

theorem mem_pathAbsolute : w ∈ pathAbsolute sub ↔
    w ∈ units (isPathChar sub) ∧ ∃ r, w = chr '/' :: r ∧ (r = [] ∨ firstSegment r ≠ []) := by
  have hrule : w ∈ pathAbsolute sub ↔ ∃ r, w = chr '/' :: r ∧ (r = [] ∨ r ∈ pathRootless sub) := by
    rw [pathAbsolute, mem_lit_mul]
    exact exists_congr fun r => and_congr Iff.rfl mem_opt
  rw [hrule]
  have hslash : [chr '/'] ∈ one (isPathChar sub) + pctEncoded :=
    Or.inl ⟨chr '/', rfl, by rw [isPathChar, beq_self_eq_true, Bool.or_true]⟩
  constructor
  · rintro ⟨r, rfl, hr⟩
    rcases hr with rfl | hr
    · exact ⟨append_mem_kstar hslash (Language.nil_mem_kstar _), [], rfl, Or.inl rfl⟩
    · obtain ⟨hunits, hne⟩ := (mem_pathRootless hsub).mp hr
      exact ⟨append_mem_kstar hslash hunits, r, rfl, Or.inr hne⟩
  · rintro ⟨hw, r, rfl, hr⟩
    refine ⟨r, rfl, hr.imp_right fun hne => (mem_pathRootless hsub).mpr ⟨?_, hne⟩⟩
    have habempty := (mem_pathAbempty hsub).mpr ⟨hw, rfl⟩
    rcases pathAbempty_cases habempty with hnil | ⟨s, hs, y, hy, heq⟩
    · cases hnil
    · rw [(List.cons.inj heq).2, units_isPathChar]
      exact Language.append_mem_mul hs hy

/-- The rule for the path, as conditions on a path of any form. -/
theorem mem_pathRule {hasScheme hasAuthority : Bool} : w ∈ pathRule sub hasScheme hasAuthority ↔
    w ∈ units (isPathChar sub) ∧
      if hasAuthority then firstSegment w = []
      else (¬ ∃ r, w = chr '/' :: chr '/' :: r) ∧
        (hasScheme = false → chr ':' ∉ firstSegment w) := by
  cases hasAuthority with
  | true => exact mem_pathAbempty hsub
  | false =>
      have hempty : w ∈ pathEmpty ↔ w = [] := Language.mem_one w
      have hrule : w ∈ pathRule sub hasScheme false ↔ (w ∈ units (isPathChar sub) ∧
          ∃ r, w = chr '/' :: r ∧ (r = [] ∨ firstSegment r ≠ [])) ∨
          (w ∈ units (isPathChar sub) ∧ firstSegment w ≠ [] ∧
            (hasScheme = false → chr ':' ∉ firstSegment w)) ∨ w = [] := by
        cases hasScheme with
        | true =>
            change w ∈ pathAbsolute sub + pathRootless sub + pathEmpty ↔ _
            rw [Language.mem_add, Language.mem_add, mem_pathAbsolute hsub,
              mem_pathRootless hsub, hempty, or_assoc]
            simp
        | false =>
            change w ∈ pathAbsolute sub + pathNoscheme sub + pathEmpty ↔ _
            rw [Language.mem_add, Language.mem_add, mem_pathAbsolute hsub,
              mem_pathNoscheme hsub, hempty, or_assoc]
            simp
      rw [hrule]
      cases w with
      | nil => simp [firstSegment, show [] ∈ units (isPathChar sub) from Language.nil_mem_kstar _]
      | cons c r =>
          have htwo : (∃ r', c :: r = chr '/' :: chr '/' :: r') ↔
              c = chr '/' ∧ ¬ (r = [] ∨ firstSegment r ≠ []) := by
            cases r with
            | nil => simp
            | cons d r => simp [firstSegment, List.takeWhile_cons]
          rw [htwo]
          by_cases hc : c = chr '/'
          · have hfirst : firstSegment (c :: r) = [] := by
              simp [firstSegment, hc]
            simp [hc, hc ▸ hfirst, or_iff_not_imp_left]
          · have hfirst : firstSegment (c :: r) ≠ [] := by
              simp [firstSegment, hc]
            simp [hc, hfirst]

end Paths

end Hlibc.Uri
