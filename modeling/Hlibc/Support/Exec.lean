import Mathlib.Algebra.Group.Nat.Defs
import Mathlib.Data.Nat.Notation
import Mathlib.Tactic.Common

/-!
# Executions of C code

A C function that can leave the defined part of the language returns in
`Exec`: either its result, or the fault that ended the execution.  Loops are
run by `loop`, which is structurally recursive in a step budget.  The rules at
the end trade the budget for a measure, so that no statement about a loop
needs to mention how much of it was spent.
-/

set_option autoImplicit false

namespace Hlibc

universe u

/-- The ways in which an execution leaves the defined part of the language. -/
inductive Fault where
  /-- A read outside the bytes an object holds. -/
  | read
  /-- A write outside the bytes an object holds. -/
  | write
  /-- A null pointer was dereferenced. -/
  | null
  /-- A signed counter left the range of its type. -/
  | overflow
  /-- The step budget of a loop ran out. -/
  | budget
  deriving DecidableEq, Repr

/-- An execution ends with a result or with a fault. -/
abbrev Exec := Except Fault

instance Exec.decidableEq {α : Type*} [DecidableEq α] : DecidableEq (Exec α)
  | .ok a, .ok b => decidable_of_iff (a = b) (by simp)
  | .error e, .error f => decidable_of_iff (e = f) (by simp)
  | .ok _, .error _ => isFalse (by simp)
  | .error _, .ok _ => isFalse (by simp)

namespace Exec

variable {α β : Type u}

@[simp] theorem ok_bind (a : α) (f : α → Exec β) :
    ((Except.ok a : Exec α) >>= f) = f a := rfl

@[simp] theorem error_bind (e : Fault) (f : α → Exec β) :
    ((Except.error e : Exec α) >>= f) = Except.error e := rfl

@[simp] theorem pure_eq_ok (a : α) : (pure a : Exec α) = Except.ok a := rfl

/-- A sequence of two computations succeeds exactly when both do. -/
theorem bind_eq_ok {x : Exec α} {f : α → Exec β} {b : β} :
    (x >>= f) = Except.ok b ↔ ∃ a, x = Except.ok a ∧ f a = Except.ok b := by
  cases x with
  | error e => simp
  | ok a => simp

@[simp] theorem map_ok (f : α → β) (a : α) :
    (f <$> (Except.ok a : Exec α)) = Except.ok (f a) := rfl

/-! ### Computations that return -/

/-- The computation ends with a result. -/
def Returns (x : Exec α) : Prop := ∃ a, x = Except.ok a

@[simp] theorem returns_ok (a : α) : Returns (Except.ok a : Exec α) := ⟨a, rfl⟩

@[simp] theorem not_returns_error (e : Fault) : ¬ Returns (Except.error e : Exec α) := by
  rintro ⟨a, h⟩
  cases h

theorem returns_bind {x : Exec α} {f : α → Exec β} :
    Returns (x >>= f) ↔ ∃ a, x = Except.ok a ∧ Returns (f a) := by
  constructor
  · rintro ⟨b, hb⟩
    obtain ⟨a, hx, hf⟩ := bind_eq_ok.mp hb
    exact ⟨a, hx, b, hf⟩
  · rintro ⟨a, rfl, hf⟩
    exact hf

theorem returns_bind_iff {x : Exec α} {f : α → Exec β} (hf : ∀ a, Returns (f a)) :
    Returns (x >>= f) ↔ Returns x := by
  rw [returns_bind]
  exact exists_congr fun a => and_iff_left (hf a)

@[simp] theorem returns_check_bind {c : Prop} [Decidable c] {a : α} {e : Fault}
    {f : α → Exec β} :
    Returns ((if c then Except.ok a else Except.error e : Exec α) >>= f) ↔
      c ∧ Returns (f a) := by
  by_cases hc : c
  · rw [if_pos hc, ok_bind, and_iff_right hc]
  · rw [if_neg hc, error_bind]
    exact iff_of_false (not_returns_error e) fun h => hc h.1

/-- Where `x` returns, `y` returns the same. -/
def Extends (x y : Exec α) : Prop := ∀ a, x = Except.ok a → y = Except.ok a

theorem Extends.refl (x : Exec α) : Extends x x := fun _ h => h

theorem Extends.bind {x y : Exec α} {f g : α → Exec β} (hxy : Extends x y)
    (hfg : ∀ a, Extends (f a) (g a)) : Extends (x >>= f) (y >>= g) := by
  intro b hb
  obtain ⟨a, hx, hf⟩ := bind_eq_ok.mp hb
  rw [hxy a hx]
  exact hfg a b hf

end Exec

/-- `x || y`, where `y` is evaluated only if `x` is false. -/
def orElse (x y : Exec Bool) : Exec Bool := do
  if ← x then .ok true else y

/-- `x && y`, where `y` is evaluated only if `x` is true. -/
def andThen (x y : Exec Bool) : Exec Bool := do
  if ← x then y else .ok false

/-- `i++` on a counter of type `int`. -/
def incInt (i : ℕ) : Exec ℕ :=
  if i < 2 ^ 31 - 1 then .ok (i + 1) else .error .overflow

theorem incInt_of_lt {i : ℕ} (h : i < 2 ^ 31 - 1) : incInt i = .ok (i + 1) :=
  if_pos h

/-! ## Loops -/

/-- One pass through a loop body goes round again or leaves the loop. -/
inductive Pass (σ ρ : Type*) where
  | next (s : σ)
  | done (r : ρ)

/-- Run a loop body until it leaves the loop, at most `budget` times. -/
def loop {σ ρ : Type*} (body : σ → Exec (Pass σ ρ)) : ℕ → σ → Exec ρ
  | 0, _ => .error .budget
  | budget + 1, s =>
      match body s with
      | .error e => .error e
      | .ok (.done r) => .ok r
      | .ok (.next s') => loop body budget s'

section LoopRules

variable {σ ρ : Type*} {body : σ → Exec (Pass σ ρ)}

theorem loop_next {s s' : σ} (h : body s = .ok (.next s')) (budget : ℕ) :
    loop body (budget + 1) s = loop body budget s' := by
  simp [loop, h]

theorem loop_done {s : σ} {r : ρ} (h : body s = .ok (.done r)) (budget : ℕ) :
    loop body (budget + 1) s = .ok r := by
  simp [loop, h]

theorem loop_error {s : σ} {e : Fault} (h : body s = .error e) (budget : ℕ) :
    loop body (budget + 1) s = .error e := by
  simp [loop, h]

/-- Total correctness: when every pass from the invariant either leaves the
loop with `Q`, or keeps the invariant and decreases the measure, a budget above
the measure suffices. -/
theorem loop_total {I : σ → Prop} {Q : ρ → Prop} (μ : σ → ℕ)
    (hpass : ∀ s, I s →
      (∃ r, body s = .ok (.done r) ∧ Q r) ∨
        ∃ s', body s = .ok (.next s') ∧ I s' ∧ μ s' < μ s) :
    ∀ budget s, I s → μ s < budget → ∃ r, loop body budget s = .ok r ∧ Q r := by
  intro budget
  induction budget with
  | zero =>
      intro s _ hμ
      exact absurd hμ (Nat.not_lt_zero _)
  | succ budget ih =>
      intro s hs hμ
      rcases hpass s hs with ⟨r, hbody, hr⟩ | ⟨s', hbody, hs', hlt⟩
      · exact ⟨r, loop_done hbody budget, hr⟩
      · rw [loop_next hbody]
        exact ih s' hs' (by omega)

/-- Every pass from the invariant ends the loop, with a result or a fault, so that `Q`
holds, or keeps the invariant and decreases the measure. -/
theorem loop_ends {I : σ → Prop} {Q : Exec ρ → Prop} (μ : σ → ℕ)
    (hpass : ∀ s, I s →
      (∃ r, body s = .ok (.done r) ∧ Q (.ok r)) ∨ (∃ e, body s = .error e ∧ Q (.error e)) ∨
        ∃ s', body s = .ok (.next s') ∧ I s' ∧ μ s' < μ s) :
    ∀ budget s, I s → μ s < budget → Q (loop body budget s) := by
  intro budget
  induction budget with
  | zero =>
      intro s _ hμ
      exact absurd hμ (Nat.not_lt_zero _)
  | succ budget ih =>
      intro s hs hμ
      rcases hpass s hs with ⟨r, hbody, hr⟩ | ⟨e, hbody, he⟩ | ⟨s', hbody, hs', hlt⟩
      · rw [loop_done hbody]
        exact hr
      · rw [loop_error hbody]
        exact he
      · rw [loop_next hbody]
        exact ih s' hs' (by omega)

/-- Where every pass that goes round again decreases a measure, a budget above the measure
decides nothing. -/
theorem loop_budget (μ : σ → ℕ) (hpass : ∀ s s', body s = .ok (.next s') → μ s' < μ s)
    {budget budget' : ℕ} {s : σ} (hbudget : μ s < budget) (hbudget' : μ s < budget') :
    loop body budget s = loop body budget' s := by
  induction budget generalizing budget' s with
  | zero => exact absurd hbudget (Nat.not_lt_zero _)
  | succ budget ih =>
      obtain ⟨budget', rfl⟩ : ∃ k, budget' = k + 1 := ⟨budget' - 1, by omega⟩
      cases hbody : body s with
      | error e => rw [loop_error hbody, loop_error hbody]
      | ok pass =>
          cases pass with
          | done r => rw [loop_done hbody, loop_done hbody]
          | next s' =>
              have hlt := hpass s s' hbody
              rw [loop_next hbody, loop_next hbody]
              exact ih (by omega) (by omega)

/-- A loop does what another does, as far as its passes do. -/
theorem loop_extends {body' : σ → Exec (Pass σ ρ)} (hbody : ∀ s, Exec.Extends (body s) (body' s))
    (budget : ℕ) (s : σ) : Exec.Extends (loop body budget s) (loop body' budget s) := by
  induction budget generalizing s with
  | zero => exact Exec.Extends.refl _
  | succ budget ih =>
      intro r hr
      cases hpass : body s with
      | error e =>
          rw [loop_error hpass] at hr
          cases hr
      | ok pass =>
          have hpass' := hbody s pass hpass
          cases pass with
          | done r' =>
              rw [loop_done hpass] at hr
              rw [loop_done hpass', hr]
          | next s' =>
              rw [loop_next hpass] at hr
              rw [loop_next hpass']
              exact ih s' r hr

/-- Partial correctness: an invariant that every pass keeps, and that yields
`Q` at the exit, yields `Q` of every result. -/
theorem loop_partial {I : σ → Prop} {Q : ρ → Prop}
    (hnext : ∀ s s', I s → body s = .ok (.next s') → I s')
    (hdone : ∀ s r, I s → body s = .ok (.done r) → Q r) :
    ∀ budget s r, I s → loop body budget s = .ok r → Q r := by
  intro budget
  induction budget with
  | zero =>
      intro s r _ h
      simp [loop] at h
  | succ budget ih =>
      intro s r hs h
      cases hbody : body s with
      | error e => simp [loop, hbody] at h
      | ok pass =>
          cases pass with
          | done r' =>
              rw [loop_done hbody] at h
              obtain rfl := Except.ok.inj h
              exact hdone s r' hs hbody
          | next s' =>
              rw [loop_next hbody] at h
              exact ih s' r (hnext s s' hs hbody) h

end LoopRules

/-- A pass that leaves the loop with what a computation gives, or with its fault. -/
theorem loop_exit {σ ρ : Type u} {body : σ → Exec (Pass σ ρ)} {s : σ} {exit : Exec ρ}
    (h : body s = Pass.done <$> exit) (budget : ℕ) : loop body (budget + 1) s = exit := by
  cases exit with
  | error e => exact loop_error h budget
  | ok r => exact loop_done h budget

end Hlibc
