import Hlibc.Uri.Canonical

/-!
# Segments of a normalised path

The table of paths has the slash in it, so `uri_normalize_path` writes an encoded slash as
a slash.  A path without one keeps the segments it names.
-/

set_option autoImplicit false

namespace Hlibc.Uri

open Grammar

/-! ## Segments -/

/-- What the segments of a path spell. -/
def pathSegments (w : List UInt8) : List (List UInt8) := (w.splitOn (chr '/')).map pctDecode

/-- The path has a percent-encoded slash in it. -/
def EncodesSlash (w : List UInt8) : Prop := ascii "%2F" <:+: w ∨ ascii "%2f" <:+: w

instance (w : List UInt8) : Decidable (EncodesSlash w) :=
  inferInstanceAs (Decidable (ascii "%2F" <:+: w ∨ ascii "%2f" <:+: w))

section Segments

variable {w : List UInt8} {a b c : UInt8}

theorem splitOn_slash (w : List UInt8) :
    (chr '/' :: w).splitOn (chr '/') = [] :: w.splitOn (chr '/') := by
  rw [List.splitOn_cons_eq_if_modifyHead, if_pos (beq_self_eq_true _)]

theorem splitOn_other (hc : c ≠ chr '/') (w : List UInt8) :
    (c :: w).splitOn (chr '/') = (w.splitOn (chr '/')).modifyHead (List.cons c) := by
  rw [List.splitOn_cons_eq_if_modifyHead, if_neg (by simpa using hc)]

theorem map_modifyHead {α β : Type*} {f : α → β} {g : α → α} {g' : β → β}
    (h : ∀ x, f (g x) = g' (f x)) (l : List α) :
    (l.modifyHead g).map f = (l.map f).modifyHead g' := by
  cases l with
  | nil => rfl
  | cons x l => exact congrArg (· :: l.map f) (h x)

theorem pathSegments_slash (w : List UInt8) :
    pathSegments (chr '/' :: w) = [] :: pathSegments w := by
  rw [pathSegments, splitOn_slash]
  rfl

/-- A character that stands for itself begins the first segment. -/
theorem pathSegments_char (hslash : c ≠ chr '/') (hpct : c ≠ chr '%') (w : List UInt8) :
    pathSegments (c :: w) = (pathSegments w).modifyHead (List.cons c) := by
  rw [pathSegments, splitOn_other hslash]
  exact map_modifyHead (fun x => pctDecode_cons hpct x) _

theorem ne_slash_of_isxdigit (ha : isxdigit a = true) : a ≠ chr '/' := by
  rintro rfl
  exact absurd ha (by decide)

theorem ne_percent_of_isxdigit (ha : isxdigit a = true) : a ≠ chr '%' := by
  rintro rfl
  exact absurd ha (by decide)

theorem pathSegments_pct (ha : isxdigit a = true) (hb : isxdigit b = true) (w : List UInt8) :
    pathSegments (chr '%' :: a :: b :: w) =
      (pathSegments w).modifyHead (List.cons (hexByte a b)) := by
  rw [pathSegments, splitOn_other (by decide), splitOn_other (ne_slash_of_isxdigit ha),
    splitOn_other (ne_slash_of_isxdigit hb), List.modifyHead_modifyHead,
    List.modifyHead_modifyHead]
  exact map_modifyHead (fun x => pctDecode_pct ha hb x) _

theorem length_pathSegments (w : List UInt8) :
    (pathSegments w).length = w.count (chr '/') + 1 := by
  rw [pathSegments, List.length_map]
  induction w with
  | nil => rfl
  | cons c w ih =>
      by_cases hc : c = chr '/'
      · subst hc
        rw [splitOn_slash, List.length_cons, ih, List.count_cons_self]
      · rw [splitOn_other hc, List.length_modifyHead, ih, List.count_cons_of_ne hc]

end Segments

/-! ## Encoded slashes -/

section EncodedSlash

variable {w : List UInt8} {a b c : UInt8}

theorem hexByte_slash (a b : UInt8) :
    hexByte a b = chr '/' ↔ a = chr '2' ∧ (b = chr 'F' ∨ b = chr 'f') := by
  have hdigit : ∀ c, ((hexVal c).toNat = 2 ↔ c = chr '2') ∧
      ((hexVal c).toNat = 15 ↔ c = chr 'F' ∨ c = chr 'f') := by
    exact fun c => forall_entry (P := fun c v => (v.toNat = 2 ↔ c = chr '2') ∧
      (v.toNat = 15 ↔ c = chr 'F' ∨ c = chr 'f')) (by decide +kernel) (-1) c
  have hlta := hexVal_lt a
  have hltb := hexVal_lt b
  have htwo := (hdigit a).1
  have hfifteen := (hdigit b).2
  rw [← htwo, ← hfifteen, hexByte, ← UInt8.toNat_inj, UInt8.toNat_ofNat',
    Nat.mod_eq_of_lt (by omega)]
  have hslash : (chr '/').toNat = 47 := rfl
  omega

theorem encodesSlash_char (hc : c ≠ chr '%') : EncodesSlash (c :: w) ↔ EncodesSlash w := by
  have hfront : ∀ b, ¬ [chr '%', chr '2', b] <+: c :: w := by
    intro b hpre
    exact hc (List.cons_prefix_cons.mp hpre).1.symm
  have hupper : ascii "%2F" = [chr '%', chr '2', chr 'F'] := rfl
  have hlower : ascii "%2f" = [chr '%', chr '2', chr 'f'] := rfl
  rw [EncodesSlash, EncodesSlash, hupper, hlower, List.infix_cons_iff, List.infix_cons_iff,
    or_iff_right (hfront _), or_iff_right (hfront _)]

theorem encodesSlash_pct (ha : isxdigit a = true) (hb : isxdigit b = true) :
    EncodesSlash (chr '%' :: a :: b :: w) ↔ hexByte a b = chr '/' ∨ EncodesSlash w := by
  rw [← encodesSlash_char (w := w) (ne_percent_of_isxdigit hb),
    ← encodesSlash_char (w := b :: w) (ne_percent_of_isxdigit ha), hexByte_slash a b]
  have hfront : ∀ x, [chr '%', chr '2', x] <+: chr '%' :: a :: b :: w ↔ a = chr '2' ∧ b = x := by
    intro x
    rw [List.cons_prefix_cons, List.cons_prefix_cons, List.cons_prefix_cons]
    simp only [true_and, List.nil_prefix, and_true, eq_comm]
  have hupper : ascii "%2F" = [chr '%', chr '2', chr 'F'] := rfl
  have hlower : ascii "%2f" = [chr '%', chr '2', chr 'f'] := rfl
  have hinfix : ∀ x, [chr '%', chr '2', x] <:+: chr '%' :: a :: b :: w ↔
      (a = chr '2' ∧ b = x) ∨ [chr '%', chr '2', x] <:+: a :: b :: w := by
    intro x
    rw [List.infix_cons_iff, hfront]
  rw [EncodesSlash, EncodesSlash, hupper, hlower, hinfix, hinfix]
  tauto

end EncodedSlash

/-! ## Normalised paths -/

section NormalPath

variable {w : List UInt8}

theorem spellByte_slash : spellByte (tabled pathCset) (chr '/') = [chr '/'] := rfl

/-- A byte other than the slash is spelled without one. -/
theorem pathSegments_spell {c : UInt8} (hc : c ≠ chr '/') (w : List UInt8) :
    pathSegments (spellByte (tabled pathCset) c ++ w) =
      (pathSegments w).modifyHead (List.cons c) := by
  cases htab : tabled pathCset c with
  | true =>
      have hpct : c ≠ chr '%' := by
        rintro rfl
        rw [pathCset_unitTable.percent] at htab
        cases htab
      rw [spellByte_pos htab]
      exact pathSegments_char hc hpct w
  | false =>
      obtain ⟨hhigh, hlow, hbyte⟩ := pctByte_digits c
      rw [spellByte_neg htab]
      exact (pathSegments_pct hhigh hlow w).trans (by rw [hbyte])

theorem pathSegments_canonical (hw : w ∈ units (tabled pathCset)) :
    ¬ EncodesSlash w → pathSegments (canonical (tabled pathCset) w) = pathSegments w := by
  refine units_induction (motive := fun w => ¬ EncodesSlash w →
    pathSegments (canonical (tabled pathCset) w) = pathSegments w) pathCset_unitTable.percent
    (fun _ => rfl) ?_ ?_ hw
  · intro c r hne hc _ ih hnot
    rw [encodesSlash_char hne] at hnot
    rw [canonical_cons hne hc]
    by_cases hslash : c = chr '/'
    · subst hslash
      rw [pathSegments_slash, pathSegments_slash, ih hnot]
    · rw [pathSegments_char hslash hne, pathSegments_char hslash hne, ih hnot]
  · intro a b r ha hb _ ih hnot
    rw [encodesSlash_pct ha hb, not_or] at hnot
    rw [canonical_pct ha hb, pathSegments_spell hnot.1, pathSegments_pct ha hb, ih hnot.2]

theorem count_spellByte (c : UInt8) : c ≠ chr '/' →
    (spellByte (tabled pathCset) c).count (chr '/') = 0 := by
  intro hc
  rw [List.count_eq_zero]
  intro hmem
  rw [spellByte] at hmem
  split at hmem
  · exact hc (List.mem_singleton.mp hmem).symm
  · obtain ⟨hhigh, hlow, -⟩ := pctByte_digits c
    have hslash : ∀ d, isxdigit d = true → chr '/' ≠ d := by
      rintro d hd rfl
      exact absurd hd (by decide)
    rw [pctByte, List.mem_cons, List.mem_cons, List.mem_singleton] at hmem
    rcases hmem with hpct | hdigit | hdigit
    · exact absurd hpct (by decide)
    · exact hslash _ hhigh hdigit
    · exact hslash _ hlow hdigit

/-- No slash is lost, and an encoded one is a new slash. -/
theorem count_canonical (hw : w ∈ units (tabled pathCset)) :
    w.count (chr '/') ≤ (canonical (tabled pathCset) w).count (chr '/') ∧
      (EncodesSlash w →
        w.count (chr '/') < (canonical (tabled pathCset) w).count (chr '/')) := by
  refine units_induction (motive := fun w =>
    w.count (chr '/') ≤ (canonical (tabled pathCset) w).count (chr '/') ∧
      (EncodesSlash w → w.count (chr '/') < (canonical (tabled pathCset) w).count (chr '/')))
    pathCset_unitTable.percent ⟨le_refl 0, fun h => absurd h (by decide)⟩ ?_ ?_ hw
  · rintro c r hne hc - ⟨hle, hlt⟩
    rw [encodesSlash_char hne, canonical_cons hne hc, List.count_cons, List.count_cons]
    exact ⟨Nat.add_le_add_right hle _, fun h => Nat.add_lt_add_right (hlt h) _⟩
  · rintro a b r ha hb - ⟨hle, hlt⟩
    have hunit : (chr '%' :: a :: b :: r).count (chr '/') = r.count (chr '/') := by
      rw [List.count_cons_of_ne (by decide), List.count_cons_of_ne (ne_slash_of_isxdigit ha),
        List.count_cons_of_ne (ne_slash_of_isxdigit hb)]
    rw [hunit, encodesSlash_pct ha hb, canonical_pct ha hb, List.count_append]
    by_cases hslash : hexByte a b = chr '/'
    · rw [hslash, spellByte_slash, List.count_singleton_self]
      exact ⟨by omega, fun _ => by omega⟩
    · rw [count_spellByte _ hslash, Nat.zero_add, or_iff_right hslash]
      exact ⟨hle, hlt⟩

/-- `uri_normalize_path` keeps the segments a path names exactly if no slash of it is
encoded. -/
theorem uriNormalizePath_segments_iff {s y : List UInt8} (hs : Ascii s)
    (hy : Writes uriNormalizePath s y) : pathSegments y = pathSegments s ↔ ¬ EncodesSlash s := by
  obtain ⟨hunits, rfl⟩ := (Component.writes_iff (k := .path) hs).mp hy
  constructor
  · intro heq hslash
    have hlen := congrArg List.length heq
    rw [length_pathSegments, length_pathSegments] at hlen
    have hlt : s.count (chr '/') < (canonical (tabled pathCset) s).count (chr '/') :=
      (count_canonical hunits).2 hslash
    have hsame : (canonical (tabled pathCset) s).count (chr '/') = s.count (chr '/') :=
      Nat.succ_injective hlen
    omega
  · exact pathSegments_canonical hunits

theorem uriNormalizePath_segments_tilde :
    pathSegments (ascii "/~a/%3F") = pathSegments (ascii "/%7ea/%3f") := by
  have hs : Ascii (ascii "/%7ea/%3f") := by decide
  have hspell : canonical (tabled pathCset) (ascii "/%7ea/%3f") = ascii "/~a/%3F" := by
    decide
  have hwrites : Writes uriNormalizePath _ (canonical (tabled pathCset) (ascii "/%7ea/%3f")) :=
    Component.writes_canonical (k := .path) hs (pathCset_unitTable.mem_units (by decide))
  rw [hspell] at hwrites
  exact (uriNormalizePath_segments_iff hs hwrites).mpr (by decide)

/-- An encoded slash in a segment becomes a boundary of segments. -/
theorem uriNormalizePath_splits_segment :
    ¬ ∀ s y : List UInt8, Ascii s → Writes uriNormalizePath s y →
      pathSegments y = pathSegments s := by
  intro hall
  have hs : Ascii (ascii "a%2Fb") := by decide
  have hspell : canonical (tabled pathCset) (ascii "a%2Fb") = ascii "a/b" := by decide
  have hwrites : Writes uriNormalizePath _ (canonical (tabled pathCset) (ascii "a%2Fb")) :=
    Component.writes_canonical (k := .path) hs (pathCset_unitTable.mem_units (by decide))
  rw [hspell] at hwrites
  have hlen := congrArg List.length (hall _ _ hs hwrites)
  rw [length_pathSegments, length_pathSegments] at hlen
  exact absurd hlen (by decide)

end NormalPath

end Hlibc.Uri
