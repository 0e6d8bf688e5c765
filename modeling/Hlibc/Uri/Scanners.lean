import Hlibc.Uri.Parse
import Hlibc.Uri.Rules

/-!
# The scanners of the parser

On a text of ASCII characters every loop of the parser is a scan, and its tables
hold the classes of the grammar for one class of sub-delimiters: the tables lack
the apostrophe and have the backslash in its place.
-/

set_option autoImplicit false

namespace Hlibc.Uri

open Grammar

/-! ## The classes of the tables -/

/-- The sub-delimiters of the tables. -/
def codeSub (c : UInt8) : Bool := (isSubDelim c && c != chr '\'') || c == chr '\\'

theorem codeSub_separable : Separable codeSub := by
  rw [Separable]
  decide

/-- A table holds the ASCII characters of a class. -/
def Tabulates (cset : List ℕ) (p : UInt8 → Bool) : Prop :=
  ∀ n < 128, cset[n]? = some (if p (UInt8.ofNat n) then 1 else 0)

/-- The tables with their classes. -/
def classTables : List (List ℕ × (UInt8 → Bool)) :=
  [(schemeCset, isSchemeChar), (userinfoCset, isUserinfoChar codeSub),
    (nameCset, isNameChar codeSub), (queryCset, isQueryChar codeSub),
    (fragmentCset, isQueryChar codeSub), (ipvfCset, isUserinfoChar codeSub),
    (pathCset, isPathChar codeSub)]

/-- A table has an entry for every byte, and the class has the hexadecimal digits and ASCII
characters other than the percent sign. -/
def EntryOf (p : UInt8 → Bool) (c : UInt8) (n : ℕ) : Prop :=
  n = (if p c then 1 else 0) ∧ (isxdigit c = true → p c = true) ∧
    (p c = true → c ≠ chr '%' ∧ c ≠ 0 ∧ c.toNat < 128)

instance (p : UInt8 → Bool) (c : UInt8) (n : ℕ) : Decidable (EntryOf p c n) :=
  inferInstanceAs (Decidable (_ ∧ _))

theorem classTables_entries : ∀ t ∈ classTables,
    t.1.length = 256 ∧ ∀ entry ∈ t.1.zipIdx, EntryOf t.2 (UInt8.ofNat entry.2) entry.1 := by
  decide +kernel

theorem entryOf_of_mem {t : List ℕ × (UInt8 → Bool)} (ht : t ∈ classTables) (c : UInt8) :
    EntryOf t.2 c (t.1.getD c.toNat 0) :=
  forall_entry (classTables_entries t ht) 0 c

theorem tabulates_of_mem : ∀ t ∈ classTables, Tabulates t.1 t.2 := by
  intro t hmem n hn
  have hlt : n < t.1.length := by
    rw [(classTables_entries t hmem).1]
    omega
  have hentry := (entryOf_of_mem hmem (UInt8.ofNat n)).1
  rw [UInt8.toNat_ofNat', Nat.mod_eq_of_lt (by omega), List.getD_eq_getElem?_getD,
    List.getElem?_eq_getElem hlt, Option.getD_some] at hentry
  rw [List.getElem?_eq_getElem hlt, hentry]

theorem schemeCset_tabulates : Tabulates schemeCset isSchemeChar :=
  tabulates_of_mem _ (.head _)

theorem userinfoCset_tabulates : Tabulates userinfoCset (isUserinfoChar codeSub) :=
  tabulates_of_mem _ (.tail _ (.head _))

theorem nameCset_tabulates : Tabulates nameCset (isNameChar codeSub) :=
  tabulates_of_mem _ (.tail _ (.tail _ (.head _)))

theorem queryCset_tabulates : Tabulates queryCset (isQueryChar codeSub) :=
  tabulates_of_mem _ (.tail _ (.tail _ (.tail _ (.head _))))

theorem fragmentCset_tabulates : Tabulates fragmentCset (isQueryChar codeSub) :=
  tabulates_of_mem _ (.tail _ (.tail _ (.tail _ (.tail _ (.head _)))))

theorem ipvfCset_tabulates : Tabulates ipvfCset (isUserinfoChar codeSub) :=
  tabulates_of_mem _ (.tail _ (.tail _ (.tail _ (.tail _ (.tail _ (.head _))))))

theorem hlibIsalpha_eq (c : UInt8) : hlibIsalpha c = isAlpha c :=
  forall_entry (P := fun c n => (n != 0) = isAlpha c) (by decide +kernel) 0 c

theorem isUnreserved_of_isxdigit {c : UInt8} (hc : isxdigit c = true) :
    isUnreserved c = true := by
  have hall : ∀ c, isxdigit c = true → isUnreserved c = true := by
    refine forall_byte ?_
    decide +kernel
  exact hall c hc

/-! ## Texts -/

/-- The object holds the string `w` at `pos`, up to its end. -/
structure StringAt (src : List UInt8) (pos : ℕ) (w : List UInt8) : Prop where
  drop : src.drop pos = w ++ [0]
  zero_notMem : 0 ∉ w

namespace StringAt

variable {src w x y : List UInt8} {pos : ℕ} {c : UInt8}

theorem start {s : List UInt8} (hs : 0 ∉ s) : StringAt (s ++ [0]) 0 s := ⟨rfl, hs⟩

theorem append (h : StringAt src pos (x ++ w)) : StringAt src (pos + x.length) w where
  drop := by
    rw [← List.drop_drop, h.drop, List.append_assoc, List.drop_left]
  zero_notMem := fun hzero => h.zero_notMem (List.mem_append_right x hzero)

theorem tail (h : StringAt src pos (c :: w)) : StringAt src (pos + 1) w :=
  append (x := [c]) h

theorem read (h : StringAt src pos w) : readByte src pos = .ok (w.headD 0) := by
  cases w with
  | nil => exact readByte_of_drop h.drop
  | cons c w => exact readByte_of_drop h.drop

theorem length_lt (h : StringAt src pos w) : w.length < src.length + 1 := by
  have hlen := congrArg List.length h.drop
  rw [List.length_drop, List.length_append, List.length_singleton] at hlen
  omega

theorem behind_scan {q : List UInt8 → Bool} (h : StringAt src pos w)
    (hscan : scan q w = (x, y)) : StringAt src (pos + x.length) y := by
  have happend := scan_append q w
  rw [hscan] at happend
  rw [← happend] at h
  exact h.append

theorem isPctEnc_eq (h : StringAt src pos w) : isPctEnc src pos = .ok (startsPct w) := by
  have hzero : isxdigit 0 = false := by decide
  rw [isPctEnc, h.read]
  match w, h with
  | [], _ => rfl
  | [c], h =>
      rw [h.tail.read]
      by_cases hc : c = chr '%' <;> simp [andThen, startsPct, hc, hzero]
  | [c, a], h =>
      rw [h.tail.read, h.tail.tail.read]
      by_cases hc : c = chr '%' <;> by_cases ha : isxdigit a = true <;>
        simp [andThen, startsPct, hc, ha, hzero]
  | c :: a :: b :: r, h =>
      rw [h.tail.read, h.tail.tail.read]
      by_cases hc : c = chr '%' <;> by_cases ha : isxdigit a = true <;>
        simp [andThen, startsPct, hc, ha]

end StringAt

/-- The bytes of a text that is ASCII and has no terminator in it. -/
def Ascii (w : List UInt8) : Prop := ∀ c ∈ w, c ≠ 0 ∧ c.toNat < 128

instance (w : List UInt8) : Decidable (Ascii w) :=
  inferInstanceAs (Decidable (∀ c ∈ w, c ≠ 0 ∧ c.toNat < 128))

/-- The object holds the text `w` at `pos`, up to its end. -/
structure TextAt (src : List UInt8) (pos : ℕ) (w : List UInt8) : Prop where
  drop : src.drop pos = w ++ [0]
  ascii : Ascii w

theorem TextAt.string {src w : List UInt8} {pos : ℕ} (h : TextAt src pos w) :
    StringAt src pos w :=
  ⟨h.drop, fun hzero => (h.ascii 0 hzero).1 rfl⟩

namespace TextAt

variable {src w x : List UInt8} {pos : ℕ} {c : UInt8}

theorem start {s : List UInt8} (hs : Ascii s) : TextAt (s ++ [0]) 0 s := ⟨rfl, hs⟩

theorem append (h : TextAt src pos (x ++ w)) : TextAt src (pos + x.length) w where
  drop := by
    rw [← List.drop_drop, h.drop, List.append_assoc, List.drop_left]
  ascii := fun c hc => h.ascii c (List.mem_append_right x hc)

theorem tail (h : TextAt src pos (c :: w)) : TextAt src (pos + 1) w :=
  append (x := [c]) h

/-- The byte at the position is the first of the text, or the terminator. -/
theorem read (h : TextAt src pos w) : readByte src pos = .ok (w.headD 0) := h.string.read

theorem length_lt (h : TextAt src pos w) : w.length < src.length + 1 := h.string.length_lt

theorem lt_of_cons (h : TextAt src pos (c :: w)) : c ≠ 0 ∧ c.toNat < 128 :=
  h.ascii c List.mem_cons_self

theorem inCset_eq {cset : List ℕ} {p : UInt8 → Bool} (h : TextAt src pos w)
    (hcset : Tabulates cset p) : inCset cset src pos = .ok (p (w.headD 0)) := by
  have hlt : (w.headD 0).toNat < 128 := by
    cases w with
    | nil => decide
    | cons c w => exact h.lt_of_cons.2
  have hentry := hcset _ hlt
  rw [UInt8.ofNat_toNat] at hentry
  rw [inCset, h.read, Exec.ok_bind, charIndex, if_pos hlt, hentry]
  cases p (w.headD 0) <;> rfl

theorem isPctEnc_eq (h : TextAt src pos w) : isPctEnc src pos = .ok (startsPct w) :=
  h.string.isPctEnc_eq

/-- A test for a character of a table or a percent-encoded one. -/
theorem unitTest_eq {cset : List ℕ} {p : UInt8 → Bool} (h : TextAt src pos w)
    (hcset : Tabulates cset p) (hzero : p 0 = false) :
    orElse (inCset cset src pos) (isPctEnc src pos) = .ok (startsUnit p w) := by
  rw [h.inCset_eq hcset, h.isPctEnc_eq]
  cases w with
  | nil => simp [orElse, startsUnit, startsPct, hzero]
  | cons c w =>
      cases hc : p c <;> simp [orElse, startsUnit, hc]

/-- A loop over the text is a scan, if its test looks at the text from its position on. -/
theorem skipWhile_eq {test : List UInt8 → ℕ → Exec Bool} {q : List UInt8 → Bool}
    (h : TextAt src pos w) (hnil : q [] = false)
    (htest : ∀ pos w, TextAt src pos w → test src pos = .ok (q w)) :
    skipWhile src test pos = .ok (pos + (scan q w).1.length) := by
  refine whileLoop_eq_scan hnil h.length_lt ?_
  rintro front back rfl
  exact htest _ _ h.append

theorem behind_scan {q : List UInt8 → Bool} {y : List UInt8} (h : TextAt src pos w)
    (hscan : scan q w = (x, y)) : TextAt src (pos + x.length) y := by
  have happend := scan_append q w
  rw [hscan] at happend
  rw [← happend] at h
  exact h.append

end TextAt

/-! ## Scans of single characters -/

/-- A character of a class is in front. -/
def startsChar (p : UInt8 → Bool) : List UInt8 → Bool
  | [] => false
  | c :: _ => p c

section Chars

variable {p : UInt8 → Bool} {w x : List UInt8}

theorem scan_char {u : List UInt8} (hu : u ∈ one p) (w : List UInt8) :
    scan (startsChar p) (u ++ w) =
      (u ++ (scan (startsChar p) w).1, (scan (startsChar p) w).2) := by
  obtain ⟨c, rfl, hc⟩ := hu
  exact scan_cons_pos hc

theorem mem_scan_chars (w : List UInt8) : ∀ c ∈ (scan (startsChar p) w).1, p c = true := by
  refine mem_kstar_one.mp (scan_mem_kstar (fun _ hu => scan_char hu) (fun w hw => ?_) w)
  cases w with
  | nil => cases hw
  | cons c w => exact ⟨[c], ⟨c, rfl, hw⟩, List.cons_ne_nil c [], w, rfl⟩

/-- The scanner cuts a text behind its longest front of characters of the class. -/
theorem scan_chars_iff {y : List UInt8} : scan (startsChar p) w = (x, y) ↔
    (∀ c ∈ x, p c = true) ∧ startsChar p y = false ∧ w = x ++ y := by
  constructor
  · intro h
    have hx := mem_scan_chars (p := p) w
    have hy := scan_stops (p := startsChar p) rfl w
    have hw := scan_append (startsChar p) w
    rw [h] at hx hy hw
    exact ⟨hx, hy, hw.symm⟩
  · rintro ⟨hx, hstop, rfl⟩
    exact scan_kstar_of_stop (fun _ hu => scan_char hu) (mem_kstar_one.mpr hx) hstop

/-- Characters in front of one outside the class are what the scanner takes. -/
theorem scan_chars_unique {y x' y' : List UInt8} (hscan : scan (startsChar p) w = (x, y))
    (hx' : ∀ c ∈ x', p c = true) (hstop : startsChar p y' = false) (hw : w = x' ++ y') :
    x' = x ∧ y' = y := by
  have hscan' := scan_chars_iff.mpr ⟨hx', hstop, hw⟩
  exact Prod.mk.inj (hscan'.symm.trans hscan)

end Chars

/-! ## The loops -/

namespace TextAt

variable {src w : List UInt8} {pos : ℕ}

theorem skip_scheme (h : TextAt src pos w) : skipWhile src isSchemeCset pos =
    .ok (pos + (scan (startsChar isSchemeChar) w).1.length) := by
  refine h.skipWhile_eq rfl fun pos w h => ?_
  rw [isSchemeCset, h.inCset_eq schemeCset_tabulates]
  cases w <;> rfl

theorem skip_userinfo (h : TextAt src pos w) : skipWhile src isUserinfoCset pos =
    .ok (pos + (scan (startsUnit (isUserinfoChar codeSub)) w).1.length) :=
  h.skipWhile_eq rfl fun _ _ h => h.unitTest_eq userinfoCset_tabulates rfl

theorem skip_query (h : TextAt src pos w) : skipWhile src isQueryCset pos =
    .ok (pos + (scan (startsUnit (isQueryChar codeSub)) w).1.length) :=
  h.skipWhile_eq rfl fun _ _ h => h.unitTest_eq queryCset_tabulates rfl

theorem skip_fragment (h : TextAt src pos w) : skipWhile src isFragmentCset pos =
    .ok (pos + (scan (startsUnit (isQueryChar codeSub)) w).1.length) :=
  h.skipWhile_eq rfl fun _ _ h => h.unitTest_eq fragmentCset_tabulates rfl

theorem skip_name (h : TextAt src pos w) : skipWhile src isNameCset pos =
    .ok (pos + (scan (startsUnit (isNameChar codeSub)) w).1.length) :=
  h.skipWhile_eq rfl fun _ _ h => h.unitTest_eq nameCset_tabulates rfl

theorem skip_port (h : TextAt src pos w) :
    skipWhile src (fun src pos => isdigit <$> readByte src pos) pos =
      .ok (pos + (scan (startsChar isdigit) w).1.length) := by
  refine h.skipWhile_eq rfl fun pos w h => ?_
  rw [h.read]
  cases w <;> rfl

end TextAt

/-! ## Units of the tables -/

theorem userinfoUnits_hex (sub : UInt8 → Bool) (c : UInt8) (hc : isxdigit c = true) :
    isUserinfoChar sub c = true := by
  simp [isUserinfoChar, isUnreserved_of_isxdigit hc]

theorem pathUnits_hex (sub : UInt8 → Bool) (c : UInt8) (hc : isxdigit c = true) :
    isPathChar sub c = true := by
  simp [isPathChar, isPchar, isUnreserved_of_isxdigit hc]

theorem queryUnits_hex (sub : UInt8 → Bool) (c : UInt8) (hc : isxdigit c = true) :
    isQueryChar sub c = true := by
  simp [isQueryChar, isPchar, isUnreserved_of_isxdigit hc]

end Hlibc.Uri
