import Mathlib.Data.Nat.Notation
import Mathlib.Tactic.Common

/-!
# Binary trees in linked memory

A binary tree whose nodes are linked by child and parent pointers, as the shape
that the pointers describe.  The shape is unique, survives changes elsewhere,
and its nodes are closed under following pointers.
-/

set_option autoImplicit false

namespace Hlibc

/-- The shape of a binary tree over node addresses. -/
inductive Shape (α : Type*) where
  | nil
  | node (l : Shape α) (a : α) (r : Shape α)

namespace Shape

variable {α : Type*}

/-- The nodes from left to right. -/
def inorder : Shape α → List α
  | nil => []
  | node l a r => l.inorder ++ a :: r.inorder

@[simp] theorem inorder_nil : (nil : Shape α).inorder = [] := rfl

@[simp] theorem inorder_node (l : Shape α) (a : α) (r : Shape α) :
    (node l a r).inorder = l.inorder ++ a :: r.inorder := rfl

theorem mem_node {l r : Shape α} {a b : α} :
    b ∈ (node l a r).inorder ↔ b ∈ l.inorder ∨ b = a ∨ b ∈ r.inorder := by
  simp

end Shape

/-- The pointer fields of all nodes. -/
structure Fields (α : Type*) where
  left : α → Option α
  right : α → Option α
  parent : α → Option α

/-- The pointer `ptr` leads to a tree of this shape, whose root has the parent
`par`. -/
def Links {α : Type*} (f : Fields α) : Option α → Option α → Shape α → Prop
  | _, ptr, .nil => ptr = none
  | par, ptr, .node l a r =>
      ptr = some a ∧ f.parent a = par ∧ Links f (some a) (f.left a) l ∧
        Links f (some a) (f.right a) r

namespace Links

variable {α : Type*} {f f' : Fields α} {par ptr : Option α} {t t' : Shape α} {a b : α}

theorem unique (h : Links f par ptr t) (h' : Links f par ptr t') : t = t' := by
  induction t generalizing par ptr t' with
  | nil =>
      obtain rfl : ptr = none := h
      cases t' with
      | nil => rfl
      | node l a r => exact absurd h'.1 (by simp)
  | node l a r ihl ihr =>
      obtain ⟨rfl, -, hl, hr⟩ := h
      cases t' with
      | nil => exact absurd h' (by simp [Links])
      | node l' a' r' =>
          obtain ⟨heq, -, hl', hr'⟩ := h'
          obtain rfl := Option.some.inj heq
          rw [ihl hl hl', ihr hr hr']

theorem eq_nil_iff (h : Links f par ptr t) : t = .nil ↔ ptr = none := by
  constructor
  · rintro rfl
    exact h
  · rintro rfl
    exact h.unique rfl

/-- Only the fields of the nodes of the tree matter. -/
theorem congr (h : Links f par ptr t)
    (hsame : ∀ a ∈ t.inorder, f'.left a = f.left a ∧ f'.right a = f.right a ∧
      f'.parent a = f.parent a) : Links f' par ptr t := by
  induction t generalizing par ptr with
  | nil => exact h
  | node l a r ihl ihr =>
      obtain ⟨hptr, hpar, hl, hr⟩ := h
      obtain ⟨hleft, hright, hparent⟩ := hsame a (Shape.mem_node.mpr (Or.inr (Or.inl rfl)))
      refine ⟨hptr, hparent.trans hpar, ?_, ?_⟩
      · rw [hleft]
        exact ihl hl fun b hb => hsame b (Shape.mem_node.mpr (Or.inl hb))
      · rw [hright]
        exact ihr hr fun b hb => hsame b (Shape.mem_node.mpr (Or.inr (Or.inr hb)))

/-- A node is the root, or a child of its parent. -/
theorem parent_cases (h : Links f par ptr t) (ha : a ∈ t.inorder) :
    (f.parent a = par ∧ ptr = some a) ∨
      ∃ g ∈ t.inorder, f.parent a = some g ∧ (f.left g = some a ∨ f.right g = some a) := by
  induction t generalizing par ptr with
  | nil => exact absurd ha List.not_mem_nil
  | node l c r ihl ihr =>
      obtain ⟨hptr, hpar, hl, hr⟩ := h
      rcases Shape.mem_node.mp ha with hal | rfl | har
      · right
        rcases ihl hl hal with ⟨hparent, hleft⟩ | ⟨g, hg, hrest⟩
        · exact ⟨c, Shape.mem_node.mpr (Or.inr (Or.inl rfl)), hparent, Or.inl hleft⟩
        · exact ⟨g, Shape.mem_node.mpr (Or.inl hg), hrest⟩
      · exact Or.inl ⟨hpar, hptr⟩
      · right
        rcases ihr hr har with ⟨hparent, hright⟩ | ⟨g, hg, hrest⟩
        · exact ⟨c, Shape.mem_node.mpr (Or.inr (Or.inl rfl)), hparent, Or.inr hright⟩
        · exact ⟨g, Shape.mem_node.mpr (Or.inr (Or.inr hg)), hrest⟩

/-- No node reached in a tree is its own left child. -/
theorem left_ne (h : Links f par (some a) t) : f.left a ≠ some a := by
  induction t generalizing par with
  | nil => exact absurd h (by simp [Links])
  | node l b r ihl _ =>
      obtain ⟨heq, -, hl, -⟩ := h
      obtain rfl := Option.some.inj heq
      intro hself
      rw [hself] at hl
      exact ihl hl hself

/-- No node reached in a tree is its own right child. -/
theorem right_ne (h : Links f par (some a) t) : f.right a ≠ some a := by
  induction t generalizing par with
  | nil => exact absurd h (by simp [Links])
  | node l b r _ ihr =>
      obtain ⟨heq, -, -, hr⟩ := h
      obtain rfl := Option.some.inj heq
      intro hself
      rw [hself] at hr
      exact ihr hr hself

/-- Every node of a tree is reached by a pointer. -/
theorem subtree (h : Links f par ptr t) (ha : a ∈ t.inorder) :
    ∃ par' s, Links f par' (some a) s := by
  induction t generalizing par ptr with
  | nil => exact absurd ha List.not_mem_nil
  | node l c r ihl ihr =>
      obtain ⟨hptr, hpar, hl, hr⟩ := h
      rcases Shape.mem_node.mp ha with hal | rfl | har
      · exact ihl hl hal
      · exact ⟨par, .node l a r, rfl, hpar, hl, hr⟩
      · exact ihr hr har

end Links

end Hlibc
