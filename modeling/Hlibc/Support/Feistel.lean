import Mathlib.Tactic.Common

/-!
# Feistel networks

A network of half rounds over any type with an operation that undoes itself.
A half round mixes the right half, under a round key, into the left half and
exchanges the two names, so that an unrolled sequence that alternates between
its halves is an even number of half rounds.
-/

set_option autoImplicit false

namespace Hlibc

variable {α κ : Type*}

/-- The half rounds of a list of round keys. -/
def feistel (mix : α → α → α) (f : α → κ → α) : List κ → α × α → α × α
  | [], p => p
  | k :: ks, p => feistel mix f ks (p.2, mix p.1 (f p.2 k))

variable {mix : α → α → α} {f : α → κ → α}

theorem feistel_append (ks ks' : List κ) (p : α × α) :
    feistel mix f (ks ++ ks') p = feistel mix f ks' (feistel mix f ks p) := by
  induction ks generalizing p with
  | nil => rfl
  | cons k ks ih => exact ih (p.2, mix p.1 (f p.2 k))

/-- Running the keys backwards on the exchanged halves undoes a network. -/
theorem feistel_reverse_swap (hmix : ∀ a b, mix (mix a b) b = a)
    (ks : List κ) (p : α × α) :
    feistel mix f ks.reverse (feistel mix f ks p).swap = p.swap := by
  induction ks generalizing p with
  | nil => rfl
  | cons k ks ih =>
      calc
        feistel mix f (k :: ks).reverse (feistel mix f (k :: ks) p).swap =
            feistel mix f [k] (feistel mix f ks.reverse
              (feistel mix f ks (p.2, mix p.1 (f p.2 k))).swap) := by
          rw [List.reverse_cons, feistel_append]
          rfl
        _ = feistel mix f [k] (mix p.1 (f p.2 k), p.2) := by
          rw [ih]
          rfl
        _ = p.swap := by
          simp only [feistel, hmix]
          rfl

/-- A change of the halves and of the round keys that the round function does not see, and
that mixing passes on from the left, is passed on by a network. -/
theorem feistel_twist {φ : α → α} {ψ : κ → κ} (hmix : ∀ a b, φ (mix a b) = mix (φ a) b)
    (hf : ∀ a k, f (φ a) (ψ k) = f a k) (ks : List κ) (p : α × α) :
    feistel mix f (ks.map ψ) (p.map φ φ) = (feistel mix f ks p).map φ φ := by
  induction ks generalizing p with
  | nil => rfl
  | cons k ks ih =>
      have hround : (φ p.2, mix (φ p.1) (f (φ p.2) (ψ k))) =
          (p.2, mix p.1 (f p.2 k)).map φ φ := by
        rw [hf, ← hmix]
        rfl
      exact (congrArg (feistel mix f (ks.map ψ)) hround).trans (ih _)

/-- A property of halves that the mixing keeps, whatever the round function
answers within `Q`, holds of both halves after any network. -/
theorem feistel_halves {P Q : α → Prop} (hf : ∀ a k, Q (f a k))
    (hmix : ∀ a b, P a → Q b → P (mix a b)) (ks : List κ) (p : α × α)
    (hl : P p.1) (hr : P p.2) :
    P (feistel mix f ks p).1 ∧ P (feistel mix f ks p).2 := by
  induction ks generalizing p with
  | nil => exact ⟨hl, hr⟩
  | cons k ks ih => exact ih _ hr (hmix _ _ hl (hf _ _))

/-- Maps of halves and of round keys that respect mixing and round function take a
network to a network. -/
theorem feistel_map {β κ' : Type*} {mix' : β → β → β} {f' : β → κ' → β} {φ : α → β}
    {ψ : κ → κ'} (hmix : ∀ a b, φ (mix a b) = mix' (φ a) (φ b))
    (hf : ∀ a k, φ (f a k) = f' (φ a) (ψ k)) (ks : List κ) (p : α × α) :
    (feistel mix f ks p).map φ φ = feistel mix' f' (ks.map ψ) (p.map φ φ) := by
  induction ks generalizing p with
  | nil => rfl
  | cons k ks ih =>
      have hround : (p.2, mix p.1 (f p.2 k)).map φ φ =
          (φ p.2, mix' (φ p.1) (f' (φ p.2) (ψ k))) := by
        rw [Prod.map_apply, hmix, hf]
      rw [feistel, ih, hround]
      rfl

end Hlibc
