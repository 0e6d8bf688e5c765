import Hlibc.Uri.Canonical

/-!
# Normalised schemes

`uri_normalize_scheme` copies a scheme in lower case, and does not terminate it: what the
object holds behind the scheme stays, so that there is a string only by chance.
-/

set_option autoImplicit false

namespace Hlibc.Uri

open Grammar

/-! ## Stable results -/

/-- The function returns 0 for the string `s`, and leaves the string `y` in any object with
room for `s`. -/
def Leaves (f : List UInt8 → List UInt8 → Exec (ℤ × List UInt8)) (s y : List UInt8) : Prop :=
  0 ∉ y ∧ ∀ dest : List UInt8, s.length < dest.length →
    ∃ rest, f (s ++ [0]) dest = .ok (0, y ++ 0 :: rest)

/-- The function, run with the data `u` that the source leaves open, returns 0 for the
string `s`. -/
def ReturnsZero {υ : Type} (f : υ → List UInt8 → List UInt8 → Exec (ℤ × List UInt8))
    (s : List UInt8) : Prop :=
  ∃ (u : υ) (dest out : List UInt8), s.length < dest.length ∧ f u (s ++ [0]) dest = .ok (0, out)

/-- Where the function returns 0, it leaves one string whatever the object held before and
whatever the source leaves open, and this string it reproduces. -/
def Stable {υ : Type} (f : υ → List UInt8 → List UInt8 → Exec (ℤ × List UInt8))
    (s : List UInt8) : Prop :=
  ReturnsZero f s → ∃ y, ∀ u, Leaves (f u) s y ∧ Leaves (f u) y y

theorem Writes.leaves {f : List UInt8 → List UInt8 → Exec (ℤ × List UInt8)} {s y : List UInt8}
    (h : Writes f s y) : Leaves f s y :=
  ⟨h.1, fun dest hroom => ⟨_, h.2 dest hroom⟩⟩

/-- An object of this length without a null byte. -/
theorem exists_unterminated (n : ℕ) : ∃ dest : List UInt8, n < dest.length ∧ 0 ∉ dest := by
  refine ⟨List.replicate (n + 1) 1, ?_, ?_⟩
  · rw [List.length_replicate]
    exact Nat.lt_succ_self n
  · intro hmem
    exact absurd (List.eq_of_mem_replicate hmem) (by decide)

/-- A function that writes no null byte leaves no string. -/
theorem not_leaves_of_unterminated {f : List UInt8 → List UInt8 → Exec (ℤ × List UInt8)}
    {s y : List UInt8} (h : ∀ dest : List UInt8, s.length < dest.length → 0 ∉ dest →
      ∃ out, f (s ++ [0]) dest = .ok (0, out) ∧ 0 ∉ out) : ¬ Leaves f s y := by
  rintro ⟨-, hleaves⟩
  obtain ⟨dest, hroom, hzero⟩ := exists_unterminated s.length
  obtain ⟨out, hrun, hout⟩ := h dest hroom hzero
  obtain ⟨rest, hrun'⟩ := hleaves dest hroom
  obtain rfl := (Prod.mk.inj (Except.ok.inj (hrun.symm.trans hrun'))).2
  exact hout (List.mem_append_right y List.mem_cons_self)

/-! ## Copies in lower case -/

theorem tolower_ne_zero (c : UInt8) (hc : c ≠ 0) : tolower c ≠ 0 := by
  rw [tolower]
  split
  next hupper =>
      have hlow : 65 ≤ c.toNat := hupper.1
      have hhigh : c.toNat ≤ 90 := hupper.2
      have hshift : (chr 'a' - chr 'A').toNat = 32 := rfl
      rw [ne_eq, ← UInt8.toNat_inj, UInt8.toNat_add, hshift, UInt8.toNat_zero]
      omega
  · exact hc

theorem zero_notMem_lower {x : List UInt8} (hx : 0 ∉ x) : 0 ∉ x.map tolower := by
  intro hmem
  obtain ⟨c, hc, hzero⟩ := List.mem_map.mp hmem
  exact tolower_ne_zero c (fun h => hx (h ▸ hc)) hzero

section LowerCopy

variable {ρ : Type} {src : List UInt8} {body : NormState → Exec (Pass NormState ρ)}
  {p : UInt8 → Bool}

/-- A loop that copies the characters of a class in lower case. -/
theorem lower_loop
    (hnext : ∀ (done room w : List UInt8) (x c : UInt8) (pos : ℕ), TextAt src pos (c :: w) →
      p c = true → body { pos := pos, dest := done ++ x :: room, off := done.length } =
        .ok (.next { pos := pos + 1, dest := done ++ [tolower c] ++ room,
                     off := (done ++ [tolower c]).length }))
    (budget : ℕ) {y : List UInt8} (x : List UInt8) : ∀ (done room : List UInt8) (pos : ℕ),
      TextAt src pos (x ++ y) → (∀ c ∈ x, p c = true) → x.length ≤ room.length →
      loop body (x.length + budget) { pos := pos, dest := done ++ room, off := done.length } =
        loop body budget { pos := pos + x.length,
                           dest := done ++ x.map tolower ++ room.drop x.length,
                           off := (done ++ x.map tolower).length } := by
  induction x with
  | nil =>
      intro done room pos _ _ _
      simp
  | cons c x ih =>
      intro done room pos h hx hroom
      obtain ⟨a, room, rfl⟩ := List.exists_cons_of_length_pos (Nat.lt_of_lt_of_le (by simp) hroom)
      have hbudget : (c :: x).length + budget = x.length + budget + 1 := by
        rw [List.length_cons]
        omega
      rw [hbudget, loop_next (hnext done room (x ++ y) a c pos h (hx c List.mem_cons_self)),
        ih (done ++ [tolower c]) room (pos + 1) h.tail
          (fun d hd => hx d (List.mem_cons_of_mem c hd)) (Nat.le_of_succ_le_succ hroom)]
      have hpos : pos + 1 + x.length = pos + (c :: x).length := by
        rw [List.length_cons]
        omega
      rw [hpos, List.map_cons, List.append_cons done (tolower c) (x.map tolower),
        List.length_cons, List.drop_succ_cons]

end LowerCopy

/-! ## Schemes -/

/-- A letter, and characters of the table of schemes behind it. -/
def IsScheme (s : List UInt8) : Prop :=
  ∃ c r, s = c :: r ∧ hlibIsalpha c = true ∧ ∀ d ∈ r, tabled schemeCset d = true

section Scheme

variable {src s w : List UInt8} {pos : ℕ} {c : UInt8}

theorem normalizeSchemePass_next (h : TextAt src pos (c :: w)) (hc : tabled schemeCset c = true)
    (done room : List UInt8) (x : UInt8) :
    normalizeSchemePass src { pos := pos, dest := done ++ x :: room, off := done.length } =
      .ok (.next { pos := pos + 1, dest := done ++ [tolower c] ++ room,
                   off := (done ++ [tolower c]).length }) := by
  have hread : readByte src pos = .ok c := h.read
  have hcset : inCset schemeCset src pos = .ok true :=
    (schemeCset_unitTable.inCset_eq h).trans (by rw [← hc]; rfl)
  simp only [normalizeSchemePass, hread, Exec.ok_bind, if_neg h.lt_of_cons.1, hcset, if_true,
    writeByte_append rfl]
  simp

theorem normalizeSchemePass_end (h : TextAt src pos []) (dest : List UInt8) (off : ℕ) :
    normalizeSchemePass src { pos := pos, dest := dest, off := off } = .ok (.done (0, dest)) := by
  have hread : readByte src pos = .ok 0 := h.read
  simp only [normalizeSchemePass, hread, Exec.ok_bind, if_true]

theorem normalizeSchemePass_stray (h : TextAt src pos (c :: w))
    (hc : tabled schemeCset c = false) (dest : List UInt8) (off : ℕ) :
    normalizeSchemePass src { pos := pos, dest := dest, off := off } =
      .ok (.done (EINVAL, dest)) := by
  have hread : readByte src pos = .ok c := h.read
  have hcset : inCset schemeCset src pos = .ok false :=
    (schemeCset_unitTable.inCset_eq h).trans (by rw [← hc]; rfl)
  simp only [normalizeSchemePass, hread, Exec.ok_bind, if_neg h.lt_of_cons.1, hcset,
    Bool.false_eq_true, if_false]

/-- A scheme is copied in lower case; behind the copy the object stays as it is. -/
theorem uriNormalizeScheme_eq (hs : Ascii s) {dest : List UInt8} (hroom : s.length < dest.length) :
    (IsScheme s ∧ uriNormalizeScheme (s ++ [0]) dest =
        .ok (0, s.map tolower ++ dest.drop s.length)) ∨
      ¬ IsScheme s ∧ ∃ out, uriNormalizeScheme (s ++ [0]) dest = .ok (EINVAL, out) := by
  have htext := TextAt.start hs
  have hread := htext.read
  by_cases hfirst : hlibIsalpha (s.headD 0) = true
  swap
  · right
    refine ⟨?_, dest, ?_⟩
    · rintro ⟨c, r, rfl, hc, -⟩
      exact hfirst hc
    · simp only [uriNormalizeScheme, hread, Exec.ok_bind]
      rw [if_pos (by simpa using hfirst)]
  cases s with
  | nil => exact absurd hfirst (by decide)
  | cons c r =>
  obtain ⟨a, room, rfl⟩ := List.exists_cons_of_length_pos (Nat.lt_of_le_of_lt (Nat.zero_le _) hroom)
  obtain ⟨x, y, hscan⟩ : ∃ x y, scan (startsChar (tabled schemeCset)) r = (x, y) := ⟨_, _, rfl⟩
  obtain ⟨hx, hstop, rfl⟩ := scan_chars_iff.mp hscan
  have hroom' : x.length ≤ room.length := by
    simp only [List.length_cons, List.length_append] at hroom
    omega
  have hcopy := lower_loop
    (fun done room w a c pos h hc => normalizeSchemePass_next h hc done room a)
    (y.length + 3) x [tolower c] room 1 htext.tail hx hroom'
  have hbudget : x.length + (y.length + 3) = (c :: (x ++ y) ++ [0]).length + 1 := by
    simp only [List.length_cons, List.length_append, List.length_nil]
    omega
  have hwrite : writeByte (a :: room) 0 (tolower c) = .ok (tolower c :: room) :=
    @writeByte_append [] room 0 rfl a (tolower c)
  have hletter : hlibIsalpha c = true := hfirst
  have hcode : uriNormalizeScheme (c :: (x ++ y) ++ [0]) (a :: room) =
      loop (normalizeSchemePass (c :: (x ++ y) ++ [0])) (y.length + 3)
        { pos := 1 + x.length, dest := [tolower c] ++ x.map tolower ++ room.drop x.length,
          off := ([tolower c] ++ x.map tolower).length } := by
    rw [← hcopy, hbudget]
    simp only [uriNormalizeScheme, hread, Exec.ok_bind, List.headD_cons, hletter, Bool.not_true,
      Bool.false_eq_true, if_false, hwrite]
    rfl
  have hbehind : TextAt (c :: (x ++ y) ++ [0]) (1 + x.length) y := htext.tail.append
  cases y with
  | nil =>
      left
      rw [List.append_nil] at hcode ⊢
      refine ⟨⟨c, x, rfl, hfirst, hx⟩, ?_⟩
      rw [List.append_nil] at hbehind
      rw [hcode, loop_done (normalizeSchemePass_end hbehind _ _)]
      rfl
  | cons d y =>
      right
      refine ⟨?_, _, hcode.trans (loop_done (normalizeSchemePass_stray hbehind hstop _ _) _)⟩
      rintro ⟨c', r', heq, -, hr'⟩
      have hmem : d ∈ r' := by
        rw [← (List.cons.inj heq).2]
        exact List.mem_append_right x List.mem_cons_self
      exact Bool.false_ne_true (hstop.symm.trans (hr' d hmem))

/-- What `uri_normalize_scheme` leaves is no string, for any scheme. -/
theorem scheme_stable_iff (hs : Ascii s) :
    Stable (fun _ : Unit => uriNormalizeScheme) s ↔ ¬ IsScheme s := by
  constructor
  · intro hstable hscheme
    have hrun : ∀ dest : List UInt8, s.length < dest.length →
        uriNormalizeScheme (s ++ [0]) dest = .ok (0, s.map tolower ++ dest.drop s.length) := by
      intro dest hroom
      rcases uriNormalizeScheme_eq hs hroom with ⟨-, hrun⟩ | ⟨hnot, -⟩
      · exact hrun
      · exact absurd hscheme hnot
    obtain ⟨dest, hroom, -⟩ := exists_unterminated s.length
    obtain ⟨y, hy⟩ := hstable ⟨(), dest, _, hroom, hrun dest hroom⟩
    refine not_leaves_of_unterminated (fun dest hroom hzero => ⟨_, hrun dest hroom, ?_⟩) (hy ()).1
    intro hmem
    rcases List.mem_append.mp hmem with hlower | hrest
    · exact zero_notMem_lower (fun h => (hs 0 h).1 rfl) hlower
    · exact hzero (List.mem_of_mem_drop hrest)
  · rintro hnot ⟨_, dest, out, hroom, hrun⟩
    rcases uriNormalizeScheme_eq hs hroom with ⟨hscheme, -⟩ | ⟨-, out', hrun'⟩
    · exact absurd hscheme hnot
    · exact absurd (Prod.mk.inj (Except.ok.inj (hrun'.symm.trans hrun))).1 (by decide)

end Scheme

end Hlibc.Uri
