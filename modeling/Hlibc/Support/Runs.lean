import Mathlib.Data.List.Count
import Mathlib.Logic.Basic
import Mathlib.Tactic.Common

/-!
# Runs of a labelled transition system

A run records, for every step, the state it left and the label it carried, so
that a condition on steps is a condition on the members of the trace.  The
rules below carry an invariant along a run whose steps all meet a condition, and
a potential along any run.
-/

set_option autoImplicit false

namespace Hlibc

/-- A run of `step` from one state to another, with the steps it took. -/
inductive Run {σ ℓ : Type*} (step : σ → ℓ → Option σ) :
    σ → List (σ × ℓ) → σ → Prop where
  | nil (s : σ) : Run step s [] s
  | cons {s s' t : σ} {l : ℓ} {tr : List (σ × ℓ)} :
      step s l = some s' → Run step s' tr t → Run step s ((s, l) :: tr) t

namespace Run

variable {σ ℓ : Type*} {step : σ → ℓ → Option σ}

/-- An invariant kept by every step that meets `C` holds at the end of a run
whose steps all meet `C`, and in every state such a run leaves. -/
theorem invariant {I : σ → Prop} {C : σ → ℓ → Prop}
    (hstep : ∀ s l s', I s → C s l → step s l = some s' → I s')
    {s t : σ} {tr : List (σ × ℓ)} (hrun : Run step s tr t)
    (hI : I s) (hC : ∀ p ∈ tr, C p.1 p.2) :
    I t ∧ ∀ p ∈ tr, I p.1 := by
  induction hrun with
  | nil s => exact ⟨hI, by simp⟩
  | @cons s s' t l tr hs _ ih =>
      have hs' : I s' := hstep s l s' hI (hC (s, l) (by simp)) hs
      obtain ⟨hend, hmid⟩ := ih hs' (fun p hp => hC p (by simp [hp]))
      refine ⟨hend, ?_⟩
      intro p hp
      rcases List.mem_cons.mp hp with rfl | hp
      · exact hI
      · exact hmid p hp

/-- The same rule read backwards: when the states of a run are known to satisfy
`P`, and under an invariant `P` of the two ends of a step forces the condition
`C`, every step of the run met `C`. -/
theorem steps_of_states {I P : σ → Prop} {C : σ → ℓ → Prop}
    {tr : List (σ × ℓ)} {s t : σ} (hrun : Run step s tr t)
    (hforce : ∀ s l s', (s, l) ∈ tr → I s → P s → P s' →
      step s l = some s' → C s l)
    (hstep : ∀ s l s', I s → C s l → step s l = some s' → I s')
    (hI : I s) (hend : P t) (hP : ∀ p ∈ tr, P p.1) :
    ∀ p ∈ tr, C p.1 p.2 := by
  induction hrun with
  | nil s => simp
  | @cons s s' t l tr hs hrest ih =>
      have hnext : P s' := by
        cases hrest with
        | nil => exact hend
        | @cons _ _ _ l' _ _ _ => exact hP (s', l') (by simp)
      have hhere : C s l :=
        hforce s l s' (by simp) hI (hP (s, l) (by simp)) hnext hs
      have hlater := ih
        (fun a b c hmem => hforce a b c (List.mem_cons_of_mem _ hmem))
        (hstep s l s' hI hhere hs) hend
        (fun p hp => hP p (List.mem_cons_of_mem _ hp))
      intro p hp
      rcases List.mem_cons.mp hp with rfl | hp
      · exact hhere
      · exact hlater p hp

theorem countP_cons_toNat {α : Type*} (p : α → Bool) (a : α) (as : List α) :
    (a :: as).countP p = as.countP p + (p a).toNat := by
  cases hp : p a <;> simp [hp]

/-- Amortised accounting: where each step's charge and what it leaves are covered
by what was there and the step's credit, the charges of a whole run are covered
by its credits. -/
theorem count_le (Φ : σ → ℕ) (charged credited : σ × ℓ → Bool) (c d : ℕ)
    {s t : σ} {tr : List (σ × ℓ)} (hrun : Run step s tr t)
    (hstep : ∀ s l s', step s l = some s' →
      Φ s' + c * (charged (s, l)).toNat ≤ Φ s + d * (credited (s, l)).toNat) :
    Φ t + c * tr.countP charged ≤ Φ s + d * tr.countP credited := by
  induction hrun with
  | nil s => simp
  | @cons s s' t l tr hs _ ih =>
      have hhere := hstep s l s' hs
      rw [countP_cons_toNat, countP_cons_toNat, Nat.mul_add, Nat.mul_add]
      omega

end Run

end Hlibc
