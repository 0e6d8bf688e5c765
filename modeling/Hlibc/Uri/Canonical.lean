import Hlibc.Uri.Normalize
import Hlibc.Uri.Percent
import Hlibc.Uri.Scanners

/-!
# Normalised components

`normalize_with_cset` takes the texts in which every character has its place, and writes
the canonical spelling of what they spell.
-/

set_option autoImplicit false

namespace Hlibc.Uri

open Grammar

/-! ## Tables -/

/-- The bytes of a table. -/
def tabled (cset : List ℕ) (c : UInt8) : Bool := cset.getD c.toNat 0 != 0

/-- A table of all bytes with ASCII characters in it, the hexadecimal digits among them, and
not the percent sign. -/
structure UnitTable (cset : List ℕ) : Prop where
  length_eq : cset.length = 256
  hex : ∀ c, isxdigit c = true → tabled cset c = true
  percent : tabled cset (chr '%') = false
  ascii : ∀ c, tabled cset c = true → c ≠ 0 ∧ c.toNat < 128

theorem unitTable_of_mem : ∀ t ∈ classTables, UnitTable t.1 := by
  intro t hmem
  have hentry := entryOf_of_mem hmem
  have htabled : ∀ c, tabled t.1 c = t.2 c := by
    intro c
    rw [tabled, (hentry c).1]
    cases t.2 c with
    | false => rfl
    | true => rfl
  refine ⟨(classTables_entries t hmem).1, fun c hc => ?_, ?_, fun c hc => ?_⟩
  · rw [htabled]
    exact (hentry c).2.1 hc
  · rw [htabled, Bool.eq_false_iff]
    exact fun hclass => ((hentry _).2.2 hclass).1 rfl
  · rw [htabled] at hc
    exact ((hentry c).2.2 hc).2

theorem schemeCset_unitTable : UnitTable schemeCset :=
  unitTable_of_mem _ (.head _)

theorem userinfoCset_unitTable : UnitTable userinfoCset :=
  unitTable_of_mem _ (.tail _ (.head _))

theorem nameCset_unitTable : UnitTable nameCset :=
  unitTable_of_mem _ (.tail _ (.tail _ (.head _)))

theorem queryCset_unitTable : UnitTable queryCset :=
  unitTable_of_mem _ (.tail _ (.tail _ (.tail _ (.head _))))

theorem fragmentCset_unitTable : UnitTable fragmentCset :=
  unitTable_of_mem _ (.tail _ (.tail _ (.tail _ (.tail _ (.head _)))))

theorem ipvfCset_unitTable : UnitTable ipvfCset :=
  unitTable_of_mem _ (.tail _ (.tail _ (.tail _ (.tail _ (.tail _ (.head _))))))

theorem pathCset_unitTable : UnitTable pathCset :=
  unitTable_of_mem _ (.tail _ (.tail _ (.tail _ (.tail _ (.tail _ (.tail _ (.head _)))))))

namespace UnitTable

variable {cset : List ℕ}

theorem csetAt_eq (h : UnitTable cset) (c : UInt8) :
    csetAt cset c.toNat = .ok (tabled cset c) := by
  have hlt : c.toNat < cset.length := by
    rw [h.length_eq]
    exact UInt8.toNat_lt c
  rw [csetAt, tabled, List.getElem?_eq_getElem hlt, List.getD_eq_getElem?_getD,
    List.getElem?_eq_getElem hlt]
  rfl

theorem inCset_eq (h : UnitTable cset) {src w : List UInt8} {pos : ℕ} (hw : TextAt src pos w) :
    inCset cset src pos = .ok (tabled cset (w.headD 0)) := by
  have hlt : (w.headD 0).toNat < 128 := by
    cases w with
    | nil => decide
    | cons c w => exact hw.lt_of_cons.2
  rw [inCset, hw.read, Exec.ok_bind, charIndex, if_pos hlt]
  exact h.csetAt_eq (w.headD 0)

/-- A text is made of units if the scanner of units takes it. -/
theorem mem_units (h : UnitTable cset) {w : List UInt8}
    (hscan : (scan (startsUnit (tabled cset)) w).1 = w) : w ∈ units (tabled cset) := by
  rw [← hscan]
  exact scan_mem_units h.hex w

theorem canonical_ascii (h : UnitTable cset) (w : List UInt8) :
    Ascii (canonical (tabled cset) w) := by
  intro c hc
  rcases mem_units_cases (pctEncode_mem_units (pctDecode w)) hc with htab | rfl | hhex
  · exact h.ascii c htab
  · decide
  · exact h.ascii c (h.hex c hhex)

end UnitTable

/-! ## Passes -/

/-- The value of two digits is that of the byte they encode. -/
theorem toNat_hexByte {a b : UInt8} (ha : isxdigit a = true) (hb : isxdigit b = true) :
    (16 * hexVal a + hexVal b).toNat = (hexByte a b).toNat := by
  have ha' := hexVal_nonneg ha
  have hb' := hexVal_nonneg hb
  have hlta := hexVal_lt a
  have hltb := hexVal_lt b
  rw [hexByte, UInt8.toNat_ofNat', Nat.mod_eq_of_lt (by omega)]
  omega

section Passes

variable {cset : List ℕ} {src done room w : List UInt8} {pos : ℕ} {a b c : UInt8}

theorem normalizePass_end (x : UInt8) (h : TextAt src pos []) :
    normalizePass src cset { pos := pos, dest := done ++ x :: room, off := done.length } =
      .ok (.done (0, done ++ 0 :: room)) := by
  have hread : readByte src pos = .ok 0 := h.read
  simp only [normalizePass, hread, Exec.ok_bind, if_true, writeByte_append rfl]

theorem normalizePass_char (htable : UnitTable cset) (x : UInt8) (h : TextAt src pos (c :: w))
    (hne : c ≠ chr '%') (hc : tabled cset c = true) :
    normalizePass src cset { pos := pos, dest := done ++ x :: room, off := done.length } =
      .ok (.next { pos := pos + 1, dest := done ++ [c] ++ room, off := (done ++ [c]).length }) := by
  have hread : readByte src pos = .ok c := h.read
  have hcset : inCset cset src pos = .ok true := (htable.inCset_eq h).trans (by rw [← hc]; rfl)
  have hzero : c ≠ 0 := h.lt_of_cons.1
  simp only [normalizePass, hread, Exec.ok_bind, if_neg hzero, if_neg hne, hcset, if_true,
    writeByte_append rfl]
  simp

theorem normalizePass_stray (htable : UnitTable cset) (h : TextAt src pos (c :: w))
    (hne : c ≠ chr '%') (hc : tabled cset c = false) (dest : List UInt8) (off : ℕ) :
    normalizePass src cset { pos := pos, dest := dest, off := off } =
      .ok (.done (EINVAL, dest)) := by
  have hread : readByte src pos = .ok c := h.read
  have hcset : inCset cset src pos = .ok false := (htable.inCset_eq h).trans (by rw [← hc]; rfl)
  have hzero : c ≠ 0 := h.lt_of_cons.1
  simp only [normalizePass, hread, Exec.ok_bind, if_neg hzero, if_neg hne, hcset,
    Bool.false_eq_true, if_false]

/-- A percent sign without two digits behind it ends the loop. -/
theorem normalizePass_strayPct (h : TextAt src pos (chr '%' :: w))
    (hw : ¬ ∃ a b r, w = a :: b :: r ∧ isxdigit a = true ∧ isxdigit b = true)
    (dest : List UInt8) (off : ℕ) :
    normalizePass src cset { pos := pos, dest := dest, off := off } =
      .ok (.done (EINVAL, dest)) := by
  have hread : readByte src pos = .ok (chr '%') := h.read
  have hzero : chr '%' ≠ 0 := by decide
  have hfirst := h.tail.read
  simp only [normalizePass, hread, Exec.ok_bind, if_neg hzero, if_true, hfirst]
  by_cases ha : hexVal (w.headD 0) < 0
  · rw [if_pos ha]
  rw [if_neg ha]
  have hdigit : isxdigit (w.headD 0) = true := by
    rw [hexVal_neg_iff] at ha
    exact eq_true_of_ne_false ha
  cases w with
  | nil => exact absurd hdigit (by decide)
  | cons a w =>
      have hsecond : readByte src (pos + 2) = .ok (w.headD 0) := h.tail.tail.read
      rw [hsecond, Exec.ok_bind]
      by_cases hb : hexVal (w.headD 0) < 0
      · rw [if_pos hb]
      rw [hexVal_neg_iff] at hb
      have hdigit' : isxdigit (w.headD 0) = true := eq_true_of_ne_false hb
      cases w with
      | nil => exact absurd hdigit' (by decide)
      | cons b w => exact absurd ⟨a, b, w, rfl, hdigit, hdigit'⟩ hw

theorem normalizePass_pct (done : List UInt8) (htable : UnitTable cset)
    (h : TextAt src pos (chr '%' :: a :: b :: w)) (ha : isxdigit a = true) (hb : isxdigit b = true)
    (hroom : 3 ≤ room.length) :
    normalizePass src cset { pos := pos, dest := done ++ room, off := done.length } =
      .ok (.next { pos := pos + 3,
                   dest := done ++ spellByte (tabled cset) (hexByte a b) ++
                     room.drop (spellByte (tabled cset) (hexByte a b)).length,
                   off := (done ++ spellByte (tabled cset) (hexByte a b)).length }) := by
  have hread : readByte src pos = .ok (chr '%') := h.read
  have hzero : chr '%' ≠ 0 := by decide
  have hfirst : readByte src (pos + 1) = .ok a := h.tail.read
  have hsecond : readByte src (pos + 2) = .ok b := h.tail.tail.read
  have hnega : ¬ hexVal a < 0 := by
    rw [hexVal_neg_iff, ha]
    exact Bool.true_eq_false.mp
  have hnegb : ¬ hexVal b < 0 := by
    rw [hexVal_neg_iff, hb]
    exact Bool.true_eq_false.mp
  obtain ⟨x, y, z, room, rfl⟩ : ∃ x y z r, room = x :: y :: z :: r := by
    match room, hroom with
    | x :: y :: z :: r, _ => exact ⟨x, y, z, r, rfl⟩
  simp only [normalizePass, hread, Exec.ok_bind, if_neg hzero, if_true, hfirst, if_neg hnega,
    hsecond, if_neg hnegb, toNat_hexByte ha hb, htable.csetAt_eq, UInt8.ofNat_toNat]
  cases hc : tabled cset (hexByte a b) with
  | true =>
      rw [spellByte_pos hc, if_pos rfl, writeByte_append rfl]
      simp
  | false =>
      have hthree : writeByte (done ++ chr '%' :: toupper a :: z :: room) (done.length + 2)
          (toupper b) = .ok (done ++ chr '%' :: toupper a :: toupper b :: room) := by
        rw [List.append_cons done, List.append_cons (done ++ [chr '%'])]
        exact (writeByte_append (by simp) z _).trans (by simp)
      have htwo : writeByte (done ++ chr '%' :: y :: z :: room) (done.length + 1) (toupper a) =
          .ok (done ++ chr '%' :: toupper a :: z :: room) := by
        rw [List.append_cons done]
        exact (writeByte_append (by simp) y _).trans (by simp)
      rw [spellByte_neg hc, pctByte_hexByte ha hb, if_neg Bool.false_ne_true,
        writeByte_append rfl, Exec.ok_bind, htwo, Exec.ok_bind, hthree]
      simp

end Passes

/-! ## Runs -/

section Runs

variable {cset : List ℕ} {src : List UInt8}

/-- The loop writes the canonical spelling of what is left of the text, or refuses it. -/
theorem normalize_loop (htable : UnitTable cset) (budget : ℕ) :
    ∀ (done room w : List UInt8) (pos : ℕ), TextAt src pos w → w.length < room.length →
      w.length < budget →
      (w ∈ units (tabled cset) →
        loop (normalizePass src cset) budget
            { pos := pos, dest := done ++ room, off := done.length } =
          .ok (0, done ++ canonical (tabled cset) w ++
            0 :: room.drop ((canonical (tabled cset) w).length + 1))) ∧
      (w ∉ units (tabled cset) → ∃ out,
        loop (normalizePass src cset) budget
            { pos := pos, dest := done ++ room, off := done.length } =
          .ok (EINVAL, out)) := by
  induction budget with
  | zero =>
      intro done room w pos _ _ hbudget
      exact absurd hbudget (Nat.not_lt_zero _)
  | succ budget ih =>
      intro done room w pos h hroom hbudget
      cases w with
      | nil =>
          obtain ⟨x, room, rfl⟩ := List.exists_cons_of_length_pos hroom
          refine ⟨fun _ => ?_, fun hnot => absurd (Language.nil_mem_kstar _) hnot⟩
          rw [loop_done (normalizePass_end x h)]
          simp [canonical]
      | cons c w =>
          rw [List.length_cons] at hroom hbudget
          by_cases hpct : c = chr '%'
          · subst hpct
            rw [pct_mem_units htable.percent]
            by_cases hdigits : ∃ a b r, w = a :: b :: r ∧ isxdigit a = true ∧ isxdigit b = true
            · obtain ⟨a, b, r, rfl, ha, hb⟩ := hdigits
              rw [List.length_cons, List.length_cons] at hroom hbudget
              have hspell := length_spellByte_le (p := tabled cset) (hexByte a b)
              have hpass := normalizePass_pct done htable h ha hb
                (show 3 ≤ room.length by omega)
              have hbehind : TextAt src (pos + 3) r := h.tail.tail.tail
              obtain ⟨htaken, hrefused⟩ := ih (done ++ spellByte (tabled cset) (hexByte a b))
                (room.drop (spellByte (tabled cset) (hexByte a b)).length) r (pos + 3) hbehind
                (by rw [List.length_drop]; omega) (by omega)
              rw [loop_next hpass]
              constructor
              · rintro ⟨a', b', r', heq, -, -, hr⟩
                obtain ⟨-, heq⟩ := List.cons.inj heq
                obtain ⟨-, rfl⟩ := List.cons.inj heq
                rw [htaken hr, canonical_pct ha hb, List.drop_drop, List.length_append]
                simp only [List.append_assoc, Nat.add_assoc]
              · intro hnot
                exact hrefused fun hr => hnot ⟨a, b, r, rfl, ha, hb, hr⟩
            · refine ⟨?_, fun _ => ⟨_, loop_done (normalizePass_strayPct h hdigits _ _) budget⟩⟩
              rintro ⟨a, b, r, rfl, ha, hb, -⟩
              exact absurd ⟨a, b, r, rfl, ha, hb⟩ hdigits
          · rw [cons_mem_units hpct]
            cases hc : tabled cset c with
            | true =>
                obtain ⟨x, room, rfl⟩ : ∃ x r, room = x :: r :=
                  List.exists_cons_of_length_pos (by omega)
                rw [List.length_cons] at hroom
                obtain ⟨htaken, hrefused⟩ := ih (done ++ [c]) room w (pos + 1) h.tail (by omega)
                  (by omega)
                rw [loop_next (normalizePass_char htable x h hpct hc)]
                refine ⟨fun hw => ?_, fun hnot => hrefused fun hw => hnot ⟨rfl, hw⟩⟩
                rw [htaken hw.2, canonical_cons hpct hc]
                simp
            | false =>
                refine ⟨fun hw => absurd hw.1 Bool.false_ne_true, fun _ => ?_⟩
                exact ⟨_, loop_done (normalizePass_stray htable h hpct hc _ _) budget⟩

/-- `normalize_with_cset` of the text at `pos`, into the object behind what is done. -/
theorem normalizeWithCset_eq (htable : UnitTable cset) {w : List UInt8} {pos : ℕ}
    (h : TextAt src pos w) (done : List UInt8) {room : List UInt8}
    (hroom : w.length < room.length) :
    (w ∈ units (tabled cset) →
      normalizeWithCset src pos (done ++ room) done.length cset =
        .ok (0, done ++ canonical (tabled cset) w ++
          0 :: room.drop ((canonical (tabled cset) w).length + 1))) ∧
    (w ∉ units (tabled cset) → ∃ out,
      normalizeWithCset src pos (done ++ room) done.length cset = .ok (EINVAL, out)) :=
  normalize_loop htable (src.length + 1) done room w pos h hroom h.length_lt

end Runs

/-! ## Components -/

/-- The components that `normalize_with_cset` alone rewrites. -/
inductive Component where
  | userinfo
  | path
  | query
  | fragment

namespace Component

/-- The table of the component. -/
def cset : Component → List ℕ
  | userinfo => userinfoCset
  | path => pathCset
  | query => queryCset
  | fragment => fragmentCset

/-- The function that rewrites the component. -/
def normalize : Component → List UInt8 → List UInt8 → Exec (ℤ × List UInt8)
  | userinfo => uriNormalizeUserinfo
  | path => uriNormalizePath
  | query => uriNormalizeQuery
  | fragment => uriNormalizeFragment

theorem cset_unitTable : ∀ k : Component, UnitTable k.cset
  | userinfo => userinfoCset_unitTable
  | path => pathCset_unitTable
  | query => queryCset_unitTable
  | fragment => fragmentCset_unitTable

theorem normalize_eq (k : Component) (src dest : List UInt8) :
    k.normalize src dest = normalizeWithCset src 0 dest 0 k.cset := by
  cases k <;> rfl

/-- Every character is in the table of the component, or begins a percent-encoded one. -/
def Accepts (k : Component) (s : List UInt8) : Prop := EachStarts (tabled k.cset) s

theorem accepts_iff (k : Component) {s : List UInt8} :
    k.Accepts s ↔ s ∈ units (tabled k.cset) :=
  eachStarts_iff k.cset_unitTable.hex

end Component

/-- The function returns 0 for the string `s`, and leaves the string `y` in any object with
room for `s`; what was behind it stays. -/
def Writes (f : List UInt8 → List UInt8 → Exec (ℤ × List UInt8)) (s y : List UInt8) : Prop :=
  0 ∉ y ∧ ∀ dest : List UInt8, s.length < dest.length →
    f (s ++ [0]) dest = .ok (0, y ++ 0 :: dest.drop (y.length + 1))

theorem Writes.unique {f : List UInt8 → List UInt8 → Exec (ℤ × List UInt8)} {s y z : List UInt8}
    (hy : Writes f s y) (hz : Writes f s z) : y = z := by
  have hroom : s.length < (List.replicate (s.length + 1) (0 : UInt8)).length := by
    rw [List.length_replicate]
    exact Nat.lt_succ_self _
  have hrun := (hy.2 _ hroom).symm.trans (hz.2 _ hroom)
  exact string_unique hy.1 hz.1 (Prod.mk.inj (Except.ok.inj hrun)).2

namespace Component

variable {k : Component} {s y : List UInt8}

theorem writes_canonical (hs : Ascii s) (hunits : s ∈ units (tabled k.cset)) :
    Writes k.normalize s (canonical (tabled k.cset) s) := by
  refine ⟨fun hzero => (k.cset_unitTable.canonical_ascii s 0 hzero).1 rfl, fun dest hroom => ?_⟩
  rw [k.normalize_eq]
  exact (normalizeWithCset_eq k.cset_unitTable (TextAt.start hs) [] hroom).1 hunits

/-- The function returns 0 for the accepted texts. -/
theorem normalize_returns (hs : Ascii s) {dest : List UInt8} (hroom : s.length < dest.length) :
    ∃ code out, k.normalize (s ++ [0]) dest = .ok (code, out) ∧ (code = 0 ↔ k.Accepts s) := by
  rw [k.accepts_iff]
  by_cases hunits : s ∈ units (tabled k.cset)
  · exact ⟨0, _, (writes_canonical hs hunits).2 dest hroom, iff_of_true rfl hunits⟩
  · obtain ⟨out, hrun⟩ :=
      (normalizeWithCset_eq k.cset_unitTable (TextAt.start hs) [] hroom).2 hunits
    rw [k.normalize_eq]
    exact ⟨EINVAL, out, hrun, iff_of_false (by decide) hunits⟩

/-- What is written is the canonical spelling of an accepted text. -/
theorem writes_iff (hs : Ascii s) :
    Writes k.normalize s y ↔ s ∈ units (tabled k.cset) ∧ y = canonical (tabled k.cset) s := by
  constructor
  · intro hy
    have hroom : s.length < (List.replicate (s.length + 1) (0 : UInt8)).length := by
      rw [List.length_replicate]
      exact Nat.lt_succ_self _
    obtain ⟨code, out, hrun, hcode⟩ := normalize_returns (k := k) hs hroom
    have hzero : code = 0 := (Prod.mk.inj (Except.ok.inj (hrun.symm.trans (hy.2 _ hroom)))).1
    have hunits := k.accepts_iff.mp (hcode.mp hzero)
    exact ⟨hunits, hy.unique (writes_canonical hs hunits)⟩
  · rintro ⟨hunits, rfl⟩
    exact writes_canonical hs hunits

/-- Each of the four functions returns 0 exactly for the accepted texts, and writes the
canonical spelling of the bytes they spell: that is not longer, it stays as it is, and it is
the same for texts that spell the same bytes. -/
theorem normalize_canonical (k : Component) (hs : Ascii s) :
    (∀ dest : List UInt8, s.length < dest.length → ∃ code out,
      k.normalize (s ++ [0]) dest = .ok (code, out) ∧ (code = 0 ↔ k.Accepts s)) ∧
    (k.Accepts s →
      Writes k.normalize s (pctEncode (tabled k.cset) (pctDecode s))) ∧
    (∀ y, Writes k.normalize s y → y.length ≤ s.length ∧ Writes k.normalize y y ∧
      ∀ t z, Ascii t → Writes k.normalize t z → (y = z ↔ pctDecode s = pctDecode t)) := by
  have hpct := k.cset_unitTable.percent
  refine ⟨fun dest => normalize_returns hs, ?_, ?_⟩
  · intro haccepts
    exact writes_canonical hs (k.accepts_iff.mp haccepts)
  · intro y hy
    obtain ⟨hunits, rfl⟩ := (writes_iff hs).mp hy
    refine ⟨length_canonical_le hpct hunits, ?_, ?_⟩
    · rw [writes_iff (k.cset_unitTable.canonical_ascii s)]
      exact ⟨pctEncode_mem_units _, (canonical_canonical hpct s).symm⟩
    · intro t z ht hz
      obtain ⟨-, rfl⟩ := (writes_iff ht).mp hz
      exact canonical_eq_iff hpct

theorem normalize_canonical_tilde :
    Writes path.normalize (ascii "%7e%3f") (ascii "~%3F") := by
  have hs : Ascii (ascii "%7e%3f") := by decide
  have hunits : ascii "%7e%3f" ∈ units (tabled pathCset) :=
    pathCset_unitTable.mem_units (by decide)
  have hspell : pctEncode (tabled pathCset) (pctDecode (ascii "%7e%3f")) = ascii "~%3F" := by
    decide
  rw [← hspell]
  exact (normalize_canonical path hs).2.1 (path.accepts_iff.mpr hunits)

end Component

end Hlibc.Uri
