import Hlibc.Support.Exec
import Mathlib.Computability.Language

/-!
# Grammars and scanners

Languages for the rules of a grammar, and the scanner that takes characters from
the front of a text while a test on what is left of it holds.  A scanner whose
test marks the units of a language takes the longest repetition of units.
-/

set_option autoImplicit false

namespace Hlibc.Grammar

open scoped Computability

variable {α : Type*}

/-- A fact about the members of a list is tried on them, not on every value of a finite
type. -/
scoped instance (priority := high) decidableMembers (p : α → Prop) [DecidablePred p]
    (l : List α) : Decidable (∀ c ∈ l, p c) :=
  List.decidableBAll p l

/-! ## Languages -/

/-- The words of one character of a class. -/
def one (p : α → Bool) : Language α := {w | ∃ c, w = [c] ∧ p c = true}

/-- The word `w` alone. -/
def lit (w : List α) : Language α := {w}

/-- A word of `l`, or nothing. -/
def opt (l : Language α) : Language α := 1 + l

section Rules

variable {p : α → Bool} {l l' : Language α} {w : List α} {c : α}

theorem mem_one : w ∈ one p ↔ ∃ c, w = [c] ∧ p c = true := Iff.rfl

theorem mem_lit {v : List α} : w ∈ lit v ↔ w = v := Iff.rfl

theorem mem_opt : w ∈ opt l ↔ w = [] ∨ w ∈ l := by
  rw [opt, Language.mem_add, Language.mem_one]

theorem mem_one_mul : w ∈ one p * l ↔ ∃ c r, w = c :: r ∧ p c = true ∧ r ∈ l := by
  rw [Language.mem_mul]
  constructor
  · rintro ⟨_, ⟨c, rfl, hc⟩, r, hr, rfl⟩
    exact ⟨c, r, rfl, hc, hr⟩
  · rintro ⟨c, r, rfl, hc, hr⟩
    exact ⟨[c], ⟨c, rfl, hc⟩, r, hr, rfl⟩

theorem mem_lit_mul {v : List α} : w ∈ lit v * l ↔ ∃ r, w = v ++ r ∧ r ∈ l := by
  rw [Language.mem_mul]
  constructor
  · rintro ⟨_, rfl, r, hr, rfl⟩
    exact ⟨r, rfl, hr⟩
  · rintro ⟨r, rfl, hr⟩
    exact ⟨v, rfl, r, hr, rfl⟩

theorem append_mem_kstar {x y : List α} (hx : x ∈ l) (hy : y ∈ l∗) : x ++ y ∈ l∗ :=
  mul_kstar_le_kstar (a := l) (Language.append_mem_mul hx hy)

theorem kstar_induction {motive : List α → Prop} (hnil : motive [])
    (happend : ∀ x ∈ l, ∀ y ∈ l∗, motive y → motive (x ++ y)) (hw : w ∈ l∗) : motive w := by
  obtain ⟨parts, rfl, hparts⟩ := Language.mem_kstar.mp hw
  clear hw
  induction parts with
  | nil => exact hnil
  | cons x parts ih =>
      have hlater : ∀ y ∈ parts, y ∈ l := fun y hy => hparts y (List.mem_cons_of_mem x hy)
      have hrest : parts.flatten ∈ l∗ := Language.join_mem_kstar hlater
      exact happend x (hparts x List.mem_cons_self) parts.flatten hrest (ih hlater)

/-- One repetition or more is a repetition that is not empty. -/
theorem mem_mul_kstar (hnil : [] ∉ l) : w ∈ l * l∗ ↔ w ∈ l∗ ∧ w ≠ [] := by
  constructor
  · intro hw
    refine ⟨mul_kstar_le_kstar (a := l) hw, ?_⟩
    rintro rfl
    obtain ⟨x, hx, y, -, hxy⟩ := Language.mem_mul.mp hw
    exact hnil ((List.append_eq_nil_iff.mp hxy).1 ▸ hx)
  · rintro ⟨hw, hne⟩
    rw [← Language.one_add_self_mul_kstar_eq_kstar, Language.mem_add] at hw
    exact hw.resolve_left hne

theorem mem_kstar_one : w ∈ (one p)∗ ↔ ∀ c ∈ w, p c = true := by
  constructor
  · refine kstar_induction (motive := fun w => ∀ c ∈ w, p c = true) (by simp) ?_
    rintro _ ⟨c, rfl, hc⟩ y - ih d hd
    rcases List.mem_cons.mp hd with rfl | hd
    · exact hc
    · exact ih d hd
  · intro h
    induction w with
    | nil => exact Language.nil_mem_kstar _
    | cons c w ih =>
        exact append_mem_kstar (x := [c]) ⟨c, rfl, h c List.mem_cons_self⟩
          (ih fun d hd => h d (List.mem_cons_of_mem c hd))

end Rules

/-- Repetitions of two units are repetitions of the first, cut by the second. -/
theorem kstar_add {K : Type*} [KleeneAlgebra K] (a b : K) :
    (a + b)∗ = a∗ * (b * a∗)∗ := by
  apply le_antisymm
  · apply kstar_le_of_mul_le_right
    · calc (1 : K) = 1 * 1 := (mul_one 1).symm
        _ ≤ a∗ * (b * a∗)∗ := mul_le_mul' one_le_kstar one_le_kstar
    · rw [add_mul]
      apply add_le
      · rw [← mul_assoc]
        exact mul_le_mul_left mul_kstar_le_kstar _
      · calc b * (a∗ * (b * a∗)∗) = b * a∗ * (b * a∗)∗ := (mul_assoc _ _ _).symm
          _ ≤ (b * a∗)∗ := mul_kstar_le_kstar
          _ = 1 * (b * a∗)∗ := (one_mul _).symm
          _ ≤ a∗ * (b * a∗)∗ := mul_le_mul_left one_le_kstar _
  · have ha : a∗ ≤ (a + b)∗ := kstar_mono (le_add_of_nonneg_right zero_le)
    have hb : b * a∗ ≤ (a + b)∗ :=
      calc b * a∗ ≤ (a + b) * (a + b)∗ := mul_le_mul' (le_add_of_nonneg_left zero_le) ha
        _ ≤ (a + b)∗ := mul_kstar_le_kstar
    calc a∗ * (b * a∗)∗ ≤ (a + b)∗ * (a + b)∗∗ := mul_le_mul' ha (kstar_mono hb)
      _ = (a + b)∗ := by rw [kstar_idem, kstar_mul_kstar]

/-! ## Scanners -/

/-- Take characters while the test holds of the text that is left. -/
def scan (p : List α → Bool) : List α → List α × List α
  | [] => ([], [])
  | c :: w => if p (c :: w) then (c :: (scan p w).1, (scan p w).2) else ([], c :: w)

section Scan

variable {p : List α → Bool} {w x : List α} {c : α} {l : Language α}

theorem scan_cons_pos (h : p (c :: w) = true) :
    scan p (c :: w) = (c :: (scan p w).1, (scan p w).2) := by
  rw [scan, if_pos h]

theorem scan_neg (h : p w = false) : scan p w = ([], w) := by
  cases w with
  | nil => rfl
  | cons c w => rw [scan, if_neg (by simp [h])]

theorem scan_append (p : List α → Bool) (w : List α) : (scan p w).1 ++ (scan p w).2 = w := by
  induction w with
  | nil => rfl
  | cons c w ih =>
      rw [scan]
      split
      · simp [ih]
      · rfl

theorem scan_stops (hnil : p [] = false) (w : List α) : p (scan p w).2 = false := by
  induction w with
  | nil => exact hnil
  | cons c w ih =>
      rw [scan]
      split
      · exact ih
      · rename_i h
        simpa using h

/-- From a place inside a scan the scanner goes on to the same end. -/
theorem scan_suffix (front : List α) {x y : List α} (h : scan p (front ++ w) = (front ++ x, y)) :
    scan p w = (x, y) := by
  induction front with
  | nil => exact h
  | cons c front ih =>
      rw [List.cons_append, scan] at h
      split at h
      · obtain ⟨hfirst, hsecond⟩ := Prod.mk.inj h
        exact ih (Prod.ext (List.cons.inj hfirst).2 hsecond)
      · exact absurd (Prod.mk.inj h).1 (by simp)

/-- A scanner that takes each unit whole takes every repetition of units. -/
theorem scan_kstar (hunit : ∀ u ∈ l, ∀ w, scan p (u ++ w) = (u ++ (scan p w).1, (scan p w).2))
    (hx : x ∈ l∗) (w : List α) : scan p (x ++ w) = (x ++ (scan p w).1, (scan p w).2) := by
  refine kstar_induction
    (motive := fun x => scan p (x ++ w) = (x ++ (scan p w).1, (scan p w).2)) rfl ?_ hx
  intro u hu y _ ih
  rw [List.append_assoc, hunit u hu, ih, List.append_assoc]

/-- In front of a place where the test fails, exactly the repetition is taken. -/
theorem scan_kstar_of_stop
    (hunit : ∀ u ∈ l, ∀ w, scan p (u ++ w) = (u ++ (scan p w).1, (scan p w).2))
    (hx : x ∈ l∗) (hstop : p w = false) : scan p (x ++ w) = (x, w) := by
  rw [scan_kstar hunit hx w, scan_neg hstop, List.append_nil]

/-- A scanner whose test marks the units takes a repetition of units. -/
theorem scan_mem_kstar (hunit : ∀ u ∈ l, ∀ w, scan p (u ++ w) = (u ++ (scan p w).1, (scan p w).2))
    (hmark : ∀ w, p w = true → ∃ u ∈ l, u ≠ [] ∧ ∃ r, w = u ++ r) (w : List α) :
    (scan p w).1 ∈ l∗ := by
  induction hlen : w.length using Nat.strong_induction_on generalizing w with
  | _ n ih =>
      cases hp : p w with
      | false =>
          rw [scan_neg hp]
          exact Language.nil_mem_kstar l
      | true =>
          obtain ⟨u, hu, hne, r, rfl⟩ := hmark w hp
          have hpos := List.length_pos_of_ne_nil hne
          rw [List.length_append] at hlen
          rw [hunit u hu]
          exact append_mem_kstar hu (ih r.length (by omega) r rfl)

end Scan

/-! ## Loops -/

/-- One pass of `while (test(pos)) pos++;`. -/
def whilePass (test : ℕ → Exec Bool) (pos : ℕ) : Exec (Pass ℕ ℕ) := do
  if ← test pos then .ok (.next (pos + 1)) else .ok (.done pos)

/-- `while (test(pos)) pos++;`. -/
def whileLoop (test : ℕ → Exec Bool) (budget pos : ℕ) : Exec ℕ :=
  loop (whilePass test) budget pos

/-- Where the test does not hold, the loop is left, or the test fails. -/
theorem whileLoop_stop {test : ℕ → Exec Bool} {pos : ℕ} (hstop : test pos ≠ .ok true)
    (budget : ℕ) : whileLoop test (budget + 1) pos = (fun _ => pos) <$> test pos := by
  cases htest : test pos with
  | error e => exact loop_error (by simp [whilePass, htest]) budget
  | ok b =>
      cases b with
      | true => exact absurd htest hstop
      | false => exact loop_done (by simp [whilePass, htest]) budget

/-- The loop scans the text, if its test holds where the scan goes on: then it does what the
test does where the scan stops. -/
theorem whileLoop_scan {test : ℕ → Exec Bool} {p : List α → Bool} {w : List α} {pos budget : ℕ}
    (hbudget : w.length < budget)
    (htest : ∀ front back, w = front ++ back → p back = true →
      test (pos + front.length) = .ok true)
    (hstop : test (pos + (scan p w).1.length) ≠ .ok true) :
    whileLoop test budget pos =
      (fun _ => pos + (scan p w).1.length) <$> test (pos + (scan p w).1.length) := by
  obtain ⟨budget, rfl⟩ : ∃ k, budget = k + 1 := ⟨budget - 1, by omega⟩
  induction w generalizing pos budget with
  | nil => exact whileLoop_stop hstop budget
  | cons c w ih =>
      cases hp : p (c :: w) with
      | false =>
          rw [scan_neg hp] at hstop ⊢
          exact whileLoop_stop hstop budget
      | true =>
          have hhere : test pos = .ok true := htest [] (c :: w) rfl hp
          have hpass : whilePass test pos = .ok (.next (pos + 1)) := by
            simp [whilePass, hhere]
          rw [List.length_cons] at hbudget
          obtain ⟨budget, rfl⟩ : ∃ k, budget = k + 1 := ⟨budget - 1, by omega⟩
          have htail : ∀ front back, w = front ++ back → p back = true →
              test (pos + 1 + front.length) = .ok true := by
            intro front back hw hback
            have := htest (c :: front) back (by rw [hw]; rfl) hback
            rwa [List.length_cons, Nat.add_comm front.length, ← Nat.add_assoc] at this
          rw [scan_cons_pos hp, List.length_cons, Nat.add_comm (scan p w).1.length,
            ← Nat.add_assoc] at hstop ⊢
          rw [whileLoop, loop_next hpass]
          exact ih htail hstop budget (by omega)

/-- The test holds of every place the loop has passed. -/
theorem whileLoop_eq_ok {test : ℕ → Exec Bool} {budget pos last : ℕ}
    (h : whileLoop test budget pos = .ok last) :
    pos ≤ last ∧ ∀ i, pos ≤ i → i < last → test i = .ok true := by
  refine loop_partial (I := fun q => pos ≤ q ∧ ∀ i, pos ≤ i → i < q → test i = .ok true)
    (Q := fun q => pos ≤ q ∧ ∀ i, pos ≤ i → i < q → test i = .ok true) ?_ ?_ budget pos last
    ⟨le_rfl, fun i hle hlt => absurd hlt (Nat.not_lt.mpr hle)⟩ h
  · rintro q q' ⟨hle, hpassed⟩ hpass
    obtain ⟨more, htest, hpass⟩ := Exec.bind_eq_ok.mp hpass
    cases more with
    | true =>
        obtain rfl := Pass.next.inj (Except.ok.inj hpass)
        refine ⟨by omega, fun i hi hlt => ?_⟩
        by_cases hlast : i = q
        · rw [hlast, htest]
        · exact hpassed i hi (by omega)
    | false => cases Except.ok.inj hpass
  · rintro q q' hq hpass
    obtain ⟨more, -, hpass⟩ := Exec.bind_eq_ok.mp hpass
    cases more with
    | true => cases Except.ok.inj hpass
    | false =>
        obtain rfl := Pass.done.inj (Except.ok.inj hpass)
        exact hq

/-- The loop scans the text, if its test looks at the text from its position on. -/
theorem whileLoop_eq_scan {test : ℕ → Exec Bool} {p : List α → Bool} {w : List α}
    {pos budget : ℕ} (hnil : p [] = false) (hbudget : w.length < budget)
    (htest : ∀ front back, w = front ++ back → test (pos + front.length) = .ok (p back)) :
    whileLoop test budget pos = .ok (pos + (scan p w).1.length) := by
  have hstop : test (pos + (scan p w).1.length) = .ok false := by
    rw [htest _ _ (scan_append p w).symm, scan_stops hnil]
  have hgoes : ∀ front back, w = front ++ back → p back = true →
      test (pos + front.length) = .ok true := by
    intro front back hw hp
    rw [htest front back hw, hp]
  rw [whileLoop_scan hbudget hgoes (by rw [hstop]; simp), hstop]
  rfl

end Hlibc.Grammar
