import Mathlib.Data.Nat.Notation
import Mathlib.Tactic.Common

/-!
# Arrays rewritten from the front

A loop over an array that replaces each element by a value made of its index,
its old value and the new value of the element before.
-/

set_option autoImplicit false

namespace Hlibc

variable {α : Type*}

/-- The new values from index `k` on, and the last of them. -/
def accumulate (f : ℕ → α → α → α) (k : ℕ) (t : α) : List α → List α × α
  | [] => ([], t)
  | x :: xs => ((f k x t) :: (accumulate f (k + 1) (f k x t) xs).1,
      (accumulate f (k + 1) (f k x t) xs).2)

variable {f : ℕ → α → α → α} {t : α}

@[simp] theorem length_accumulate (k : ℕ) (xs : List α) :
    (accumulate f k t xs).1.length = xs.length := by
  induction xs generalizing k t with
  | nil => rfl
  | cons x xs ih => simp [accumulate, ih]

theorem accumulate_append (k : ℕ) (xs ys : List α) :
    accumulate f k t (xs ++ ys) =
      ((accumulate f k t xs).1 ++
          (accumulate f (k + xs.length) (accumulate f k t xs).2 ys).1,
        (accumulate f (k + xs.length) (accumulate f k t xs).2 ys).2) := by
  induction xs generalizing k t with
  | nil => rfl
  | cons x xs ih =>
      have hlen : k + (x :: xs).length = k + 1 + xs.length := by
        rw [List.length_cons]
        omega
      rw [List.cons_append, accumulate, ih, hlen]
      rfl

theorem accumulate_snd (k : ℕ) (xs : List α) (d : α) (hne : xs ≠ []) :
    (accumulate f k t xs).2 = (accumulate f k t xs).1.getLastD d := by
  induction xs generalizing k t with
  | nil => exact absurd rfl hne
  | cons x xs ih =>
      cases xs with
      | nil => rfl
      | cons y xs =>
          rw [accumulate, ih (k + 1) (List.cons_ne_nil y xs)]
          rfl

/-- One pass of the loop. -/
def setNext {n : ℕ} (f : ℕ → α → α → α) (st : Vector α n × α) (i : Fin n) : Vector α n × α :=
  (st.1.set i (f i (st.1.get i) st.2) i.isLt, f i (st.1.get i) st.2)

/-- The loop from index `k` on leaves the elements before alone. -/
theorem foldl_setNext_drop {n : ℕ} (d : ℕ) {k : ℕ} (hk : k + d = n) (v : Vector α n) (t : α) :
    (((List.finRange n).drop k).foldl (setNext f) (v, t)).1.toList =
        v.toList.take k ++ (accumulate f k t (v.toList.drop k)).1 ∧
      (((List.finRange n).drop k).foldl (setNext f) (v, t)).2 =
        (accumulate f k t (v.toList.drop k)).2 := by
  induction d generalizing k v t with
  | zero =>
      have hlen : v.toList.length = k := by
        rw [Vector.length_toList]
        omega
      rw [List.drop_of_length_le (by rw [List.length_finRange]; omega),
        List.drop_of_length_le (Nat.le_of_eq hlen), List.take_of_length_le (Nat.le_of_eq hlen)]
      exact ⟨(List.append_nil _).symm, rfl⟩
  | succ d ih =>
      have hlt : k < n := by omega
      have hlen : k < v.toList.length := by rwa [Vector.length_toList]
      have hindex : (List.finRange n).drop k = ⟨k, hlt⟩ :: (List.finRange n).drop (k + 1) := by
        rw [List.drop_eq_getElem_cons (by rwa [List.length_finRange]), List.getElem_finRange]
        rfl
      have hvalue : v.toList.drop k = v.get ⟨k, hlt⟩ :: v.toList.drop (k + 1) := by
        rw [List.drop_eq_getElem_cons hlen, Vector.getElem_toList]
        rfl
      obtain ⟨hlist, hlast⟩ := ih (k := k + 1) (by omega)
        (v.set k (f k (v.get ⟨k, hlt⟩) t)) (f k (v.get ⟨k, hlt⟩) t)
      have hset : (v.set k (f k (v.get ⟨k, hlt⟩) t)).toList =
          v.toList.set k (f k (v.get ⟨k, hlt⟩) t) := Vector.toList_set hlt
      rw [hset, List.drop_set_of_lt (Nat.lt_succ_self k)] at hlist hlast
      rw [hindex, List.foldl_cons, hvalue, accumulate]
      refine ⟨?_, hlast⟩
      refine hlist.trans ?_
      rw [List.take_succ_eq_append_getElem (by rwa [List.length_set]), List.getElem_set_self,
        List.take_set_of_le (Nat.le_refl k), List.append_assoc]
      rfl

theorem foldl_setNext {n : ℕ} (v : Vector α n) (t : α) :
    ((List.finRange n).foldl (setNext f) (v, t)).1.toList = (accumulate f 0 t v.toList).1 ∧
      ((List.finRange n).foldl (setNext f) (v, t)).2 = (accumulate f 0 t v.toList).2 := by
  obtain ⟨hlist, hlast⟩ := foldl_setNext_drop (f := f) n (Nat.zero_add n) v t
  rw [List.drop_zero, List.drop_zero] at hlist hlast
  exact ⟨hlist, hlast⟩

end Hlibc
