import Hlibc.Uri.Scanners

/-!
# Scanners on any bytes

The tables of the parser are indexed with signed characters: a byte from 128 on is
an index far behind their end.  So on a string of any bytes a loop of the parser
stays inside its objects exactly if an ASCII character, or the end of the string,
is behind what it scans.
-/

set_option autoImplicit false

namespace Hlibc.Uri

open Grammar

/-! ## Tables -/

/-- An ASCII character is in front, or the end. -/
def AsciiFront (w : List UInt8) : Prop := (w.headD 0).toNat < 128

instance (w : List UInt8) : Decidable (AsciiFront w) :=
  inferInstanceAs (Decidable ((w.headD 0).toNat < 128))

/-- A table for a class of ASCII characters. -/
structure Holds (cset : List ℕ) (p : UInt8 → Bool) : Prop where
  tabulates : Tabulates cset p
  length_le : cset.length ≤ 256
  ascii : ∀ n < 128, p (UInt8.ofNat (128 + n)) = false

theorem holds_of_mem : ∀ t ∈ classTables, Holds t.1 t.2 := by
  intro t hmem
  refine ⟨tabulates_of_mem t hmem, (classTables_entries t hmem).1.le, fun n hn => ?_⟩
  rw [Bool.eq_false_iff]
  intro hclass
  have hlt := ((entryOf_of_mem hmem _).2.2 hclass).2.2
  rw [UInt8.toNat_ofNat'] at hlt
  omega

theorem schemeCset_holds : Holds schemeCset isSchemeChar :=
  holds_of_mem _ (.head _)

theorem userinfoCset_holds : Holds userinfoCset (isUserinfoChar codeSub) :=
  holds_of_mem _ (.tail _ (.head _))

theorem nameCset_holds : Holds nameCset (isNameChar codeSub) :=
  holds_of_mem _ (.tail _ (.tail _ (.head _)))

theorem queryCset_holds : Holds queryCset (isQueryChar codeSub) :=
  holds_of_mem _ (.tail _ (.tail _ (.tail _ (.head _))))

theorem fragmentCset_holds : Holds fragmentCset (isQueryChar codeSub) :=
  holds_of_mem _ (.tail _ (.tail _ (.tail _ (.tail _ (.head _)))))

theorem ipvfCset_holds : Holds ipvfCset (isUserinfoChar codeSub) :=
  holds_of_mem _ (.tail _ (.tail _ (.tail _ (.tail _ (.tail _ (.head _))))))

theorem pathCset_holds : Holds pathCset (isPathChar codeSub) :=
  holds_of_mem _ (.tail _ (.tail _ (.tail _ (.tail _ (.tail _ (.tail _ (.head _)))))))

theorem Holds.lt {cset : List ℕ} {p : UInt8 → Bool} (h : Holds cset p) {c : UInt8}
    (hc : p c = true) : c.toNat < 128 := by
  by_contra hge
  have hlt := UInt8.toNat_lt c
  have hfalse := h.ascii (c.toNat - 128) (by omega)
  rw [Nat.add_sub_cancel' (Nat.not_lt.mp hge), UInt8.ofNat_toNat, hc] at hfalse
  cases hfalse

namespace StringAt

variable {src w : List UInt8} {pos : ℕ} {cset : List ℕ} {p : UInt8 → Bool}

/-- A table is read inside for ASCII characters only. -/
theorem inCset_eq (h : StringAt src pos w) (hcset : Holds cset p) :
    inCset cset src pos = if AsciiFront w then .ok (p (w.headD 0)) else .error .read := by
  rw [inCset, h.read, Exec.ok_bind, charIndex]
  by_cases hfront : AsciiFront w
  · have hlt : (w.headD 0).toNat < 128 := hfront
    have hentry := hcset.tabulates _ hlt
    rw [UInt8.ofNat_toNat] at hentry
    rw [if_pos hlt, if_pos hfront, hentry]
    cases p (w.headD 0) <;> rfl
  · have hge : ¬ (w.headD 0).toNat < 128 := hfront
    have hlong : cset.length ≤ 2 ^ 32 - 256 + (w.headD 0).toNat := by
      have := hcset.length_le
      omega
    rw [if_neg hge, if_neg hfront, List.getElem?_eq_none hlong]

theorem unitTest_eq (h : StringAt src pos w) (hcset : Holds cset p) (hzero : p 0 = false) :
    orElse (inCset cset src pos) (isPctEnc src pos) =
      if AsciiFront w then .ok (startsUnit p w) else .error .read := by
  rw [h.inCset_eq hcset, h.isPctEnc_eq]
  by_cases hfront : AsciiFront w
  · rw [if_pos hfront, if_pos hfront]
    cases w with
    | nil => simp [orElse, startsUnit, startsPct, hzero]
    | cons c w => cases hc : p c <;> simp [orElse, startsUnit, hc]
  · rw [if_neg hfront, if_neg hfront]
    rfl

/-- A loop of the parser returns if an ASCII character is behind what it scans. -/
theorem skipWhile_eq {test : List UInt8 → ℕ → Exec Bool} {q : List UInt8 → Bool}
    (h : StringAt src pos w) (hnil : q [] = false) (hascii : ∀ w, q w = true → AsciiFront w)
    (htest : ∀ pos w, StringAt src pos w →
      test src pos = if AsciiFront w then .ok (q w) else .error .read) :
    skipWhile src test pos =
      if AsciiFront (scan q w).2 then .ok (pos + (scan q w).1.length) else .error .read := by
  have hstop := htest _ _ (h.behind_scan (Prod.eta (scan q w)).symm)
  rw [scan_stops hnil] at hstop
  rw [skipWhile, whileLoop_scan h.length_lt ?_ ?_, hstop]
  · by_cases hfront : AsciiFront (scan q w).2
    · rw [if_pos hfront, if_pos hfront]
      rfl
    · rw [if_neg hfront, if_neg hfront]
      rfl
  · rintro front back rfl hq
    rw [htest _ _ h.append, if_pos (hascii back hq), hq]
  · rw [hstop]
    split <;> simp

end StringAt

theorem TextAt.asciiFront {src w : List UInt8} {pos : ℕ} (h : TextAt src pos w) :
    AsciiFront w := by
  cases w with
  | nil => exact (by decide : (0 : UInt8).toNat < 128)
  | cons c w => exact h.lt_of_cons.2

theorem Holds.asciiFront_char {cset : List ℕ} {p : UInt8 → Bool} (h : Holds cset p)
    {w : List UInt8} (hw : startsChar p w = true) : AsciiFront w := by
  cases w with
  | nil => cases hw
  | cons c w => exact h.lt hw

theorem Holds.asciiFront_unit {cset : List ℕ} {p : UInt8 → Bool} (h : Holds cset p)
    {w : List UInt8} (hw : startsUnit p w = true) : AsciiFront w := by
  cases w with
  | nil => cases hw
  | cons c w =>
      rcases Bool.or_eq_true_iff.mp hw with hc | hpct
      · exact h.lt hc
      · obtain ⟨a, b, r, heq, -⟩ := exists_of_startsPct hpct
        obtain ⟨rfl, -⟩ := List.cons.inj heq
        exact (by decide : (chr '%').toNat < 128)

/-! ## The loops -/

namespace StringAt

variable {src w : List UInt8} {pos : ℕ}

theorem skip_chars {cset : List ℕ} {p : UInt8 → Bool} (h : StringAt src pos w)
    (hcset : Holds cset p) (hzero : p 0 = false) : skipWhile src (inCset cset) pos =
      if AsciiFront (scan (startsChar p) w).2
      then .ok (pos + (scan (startsChar p) w).1.length) else .error .read := by
  refine h.skipWhile_eq rfl (fun _ => hcset.asciiFront_char) fun pos w h => ?_
  rw [h.inCset_eq hcset]
  cases w with
  | nil => rw [List.headD_nil, hzero]; rfl
  | cons c w => rfl

theorem skip_units {cset : List ℕ} {p : UInt8 → Bool} (h : StringAt src pos w)
    (hcset : Holds cset p) (hzero : p 0 = false) :
    skipWhile src (fun src pos => orElse (inCset cset src pos) (isPctEnc src pos)) pos =
      if AsciiFront (scan (startsUnit p) w).2
      then .ok (pos + (scan (startsUnit p) w).1.length) else .error .read :=
  h.skipWhile_eq rfl (fun _ => hcset.asciiFront_unit) fun _ _ h => h.unitTest_eq hcset hzero

theorem skip_digits {p : UInt8 → Bool} (h : StringAt src pos w) (hzero : p 0 = false) :
    skipWhile src (fun src pos => p <$> readByte src pos) pos =
      .ok (pos + (scan (startsChar p) w).1.length) := by
  refine whileLoop_eq_scan rfl h.length_lt ?_
  rintro front back rfl
  simp only [h.append.read, Exec.map_ok]
  cases back with
  | nil => rw [List.headD_nil, hzero]; rfl
  | cons c back => rfl

end StringAt

end Hlibc.Uri
