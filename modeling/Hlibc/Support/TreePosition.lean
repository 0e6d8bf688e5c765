import Hlibc.Support.PointerTree

/-!
# Positions in binary trees

A position of a tree is a subtree together with the frames that lie between it and the root.
The frames say which nodes stand before and after the subtree.  A tree is also read from the
other side, as its mirror image.
-/

set_option autoImplicit false

namespace Hlibc

variable {α : Type*}

/-- A step from a subtree to the node above, with the other subtree of that node. -/
inductive Frame (α : Type*) where
  | left (a : α) (r : Shape α)
  | right (l : Shape α) (a : α)

namespace Frame

/-- The tree that a subtree and a frame make. -/
def attach (t : Shape α) : Frame α → Shape α
  | left a r => .node t a r
  | right l a => .node l a t

/-- What stands before the subtree. -/
def before : Frame α → List α
  | left _ _ => []
  | right l a => l.inorder ++ [a]

/-- What stands after the subtree. -/
def after : Frame α → List α
  | left a r => a :: r.inorder
  | right _ _ => []

theorem inorder_attach (t : Shape α) (fr : Frame α) :
    (fr.attach t).inorder = fr.before ++ (t.inorder ++ fr.after) := by
  cases fr <;> simp [attach, before, after]

end Frame

namespace Shape

variable {t : Shape α} {a : α} {c c' : List (Frame α)}

/-- The tree that a subtree and the frames above it make. -/
def plug (t : Shape α) (c : List (Frame α)) : Shape α :=
  c.foldl Frame.attach t

/-- What stands before a position. -/
def before : List (Frame α) → List α
  | [] => []
  | fr :: c => before c ++ fr.before

/-- What stands after a position. -/
def after : List (Frame α) → List α
  | [] => []
  | fr :: c => fr.after ++ after c

theorem inorder_plug : (plug t c).inorder = before c ++ (t.inorder ++ after c) := by
  induction c generalizing t with
  | nil => simp [plug, before, after]
  | cons fr c ih =>
      change (plug (fr.attach t) c).inorder = _
      rw [ih, Frame.inorder_attach]
      simp [before, after]

theorem length_add_le : c.length + t.inorder.length ≤ (plug t c).inorder.length := by
  induction c generalizing t with
  | nil => simp [plug]
  | cons fr c ih =>
      have hle : c.length + (fr.attach t).inorder.length ≤ (plug t (fr :: c)).inorder.length := ih
      have hone : t.inorder.length + 1 ≤ (fr.attach t).inorder.length := by
        cases fr <;> simp [Frame.attach]
      rw [List.length_cons]
      omega

theorem plug_append_singleton (fr : Frame α) : plug t (c ++ [fr]) = fr.attach (plug t c) := by
  rw [plug, List.foldl_append]
  rfl

theorem exists_plug (ha : a ∈ t.inorder) : ∃ c l r, t = plug (.node l a r) c := by
  induction t with
  | nil => exact absurd ha List.not_mem_nil
  | node l b r ihl ihr =>
      rcases Shape.mem_node.mp ha with hal | rfl | har
      · obtain ⟨c, l', r', rfl⟩ := ihl hal
        refine ⟨c ++ [.left b r], l', r', ?_⟩
        rw [plug_append_singleton]
        rfl
      · exact ⟨[], l, r, rfl⟩
      · obtain ⟨c, l', r', rfl⟩ := ihr har
        refine ⟨c ++ [.right l b], l', r', ?_⟩
        rw [plug_append_singleton]
        rfl

/-- The tree with left and right exchanged. -/
def mirror : Shape α → Shape α
  | nil => nil
  | node l a r => node r.mirror a l.mirror

theorem inorder_mirror (t : Shape α) : t.mirror.inorder = t.inorder.reverse := by
  induction t with
  | nil => rfl
  | node l a r ihl ihr => simp [mirror, ihl, ihr]

end Shape

variable {f f' : Fields α} {par ptr : Option α} {t t' : Shape α} {a : α}
  {c : List (Frame α)}

/-! ## The pointers at a position -/

theorem Links.of_plug (h : Links f par ptr (t.plug c)) : ∃ par' ptr', Links f par' ptr' t := by
  induction c generalizing t with
  | nil => exact ⟨par, ptr, h⟩
  | cons fr c ih =>
      cases fr with
      | left a r =>
          obtain ⟨par', ptr', -, -, hl, -⟩ := ih h
          exact ⟨some a, f.left a, hl⟩
      | right l a =>
          obtain ⟨par', ptr', -, -, -, hr⟩ := ih h
          exact ⟨some a, f.right a, hr⟩

/-- A pointer into a tree leads to one of its nodes. -/
theorem Links.mem (h : Links f par (some a) t) : a ∈ t.inorder := by
  cases t with
  | nil => exact absurd h (by simp [Links])
  | node l b r =>
      obtain ⟨heq, -⟩ := h
      exact Shape.mem_node.mpr (Or.inr (Or.inl (Option.some.inj heq)))

/-- The node above a subtree is outside it, and leads to it. -/
theorem Links.parent_of_plug {l r : Shape α} (h : Links f none ptr ((Shape.node l a r).plug c))
    (hnodup : ((Shape.node l a r).plug c).inorder.Nodup) :
    f.parent a = none ∨ ∃ p, f.parent a = some p ∧ p ∉ (Shape.node l a r).inorder ∧
      (f.left p = some a ∨ f.right p = some a) := by
  cases c with
  | nil => exact Or.inl h.2.1
  | cons fr c =>
      right
      have habove : Links f none ptr ((fr.attach (.node l a r)).plug c) := h
      change ((fr.attach (.node l a r)).plug c).inorder.Nodup at hnodup
      rw [Shape.inorder_plug] at hnodup
      have hnode := (List.nodup_append.mp (List.nodup_append.mp hnodup).2.1).1
      obtain ⟨par', ptr', hfr⟩ := habove.of_plug
      cases fr with
      | left p r' =>
          obtain ⟨-, -, ⟨hleft, hparent, -⟩, -⟩ := hfr
          refine ⟨p, hparent, fun hmem => ?_, Or.inl hleft⟩
          obtain ⟨-, -, hdisj⟩ := List.nodup_append.mp hnode
          exact hdisj p hmem p List.mem_cons_self rfl
      | right l' p =>
          obtain ⟨-, -, -, hright, hparent, -⟩ := hfr
          refine ⟨p, hparent, fun hmem => ?_, Or.inr hright⟩
          obtain ⟨-, hcons, -⟩ := List.nodup_append.mp hnode
          exact (List.nodup_cons.mp hcons).1 hmem

/-! ## Child pointers alone -/

/-- The child pointers from `ptr` on make a tree of this shape. -/
def Children (f : Fields α) : Option α → Shape α → Prop
  | ptr, .nil => ptr = none
  | ptr, .node l a r => ptr = some a ∧ Children f (f.left a) l ∧ Children f (f.right a) r

theorem Links.children (h : Links f par ptr t) : Children f ptr t := by
  induction t generalizing par ptr with
  | nil => exact h
  | node l a r ihl ihr =>
      obtain ⟨hptr, -, hl, hr⟩ := h
      exact ⟨hptr, ihl hl, ihr hr⟩

namespace Children

theorem unique (h : Children f ptr t) (h' : Children f ptr t') : t = t' := by
  induction t generalizing ptr t' with
  | nil =>
      obtain rfl : ptr = none := h
      cases t' with
      | nil => rfl
      | node l a r => exact absurd h'.1 (by simp)
  | node l a r ihl ihr =>
      obtain ⟨rfl, hl, hr⟩ := h
      cases t' with
      | nil => exact absurd h' (by simp [Children])
      | node l' a' r' =>
          obtain ⟨heq, hl', hr'⟩ := h'
          obtain rfl := Option.some.inj heq
          rw [ihl hl hl', ihr hr hr']

/-- A child pointer into a tree leads to one of its nodes. -/
theorem mem (h : Children f (some a) t) : a ∈ t.inorder := by
  cases t with
  | nil => exact absurd h (by simp [Children])
  | node l b r => exact Shape.mem_node.mpr (Or.inr (Or.inl (Option.some.inj h.1)))

/-- Only the child pointers of the nodes of the tree matter. -/
theorem congr (h : Children f ptr t)
    (hsame : ∀ a ∈ t.inorder, f'.left a = f.left a ∧ f'.right a = f.right a) :
    Children f' ptr t := by
  induction t generalizing ptr with
  | nil => exact h
  | node l a r ihl ihr =>
      obtain ⟨hptr, hl, hr⟩ := h
      obtain ⟨hleft, hright⟩ := hsame a (Shape.mem_node.mpr (Or.inr (Or.inl rfl)))
      refine ⟨hptr, ?_, ?_⟩
      · rw [hleft]
        exact ihl hl fun b hb => hsame b (Shape.mem_node.mpr (Or.inl hb))
      · rw [hright]
        exact ihr hr fun b hb => hsame b (Shape.mem_node.mpr (Or.inr (Or.inr hb)))

/-- A subtree can be exchanged for one that the same pointer leads to. -/
theorem exchange (h : Children f ptr (t.plug c))
    (hsame : ∀ a, a ∈ Shape.before c ∨ a ∈ Shape.after c →
      f'.left a = f.left a ∧ f'.right a = f.right a)
    (hsub : ∀ p, Children f p t → Children f' p t') : Children f' ptr (t'.plug c) := by
  induction c generalizing t t' with
  | nil => exact hsub ptr h
  | cons fr c ih =>
      have habove : ∀ p, Children f p (fr.attach t) → Children f' p (fr.attach t') := by
        intro p hp
        have hframe : ∀ a, a ∈ fr.before ∨ a ∈ fr.after →
            f'.left a = f.left a ∧ f'.right a = f.right a := by
          intro a ha
          refine hsame a (ha.imp (fun hb => ?_) fun ha => ?_)
          · exact List.mem_append_right _ hb
          · exact List.mem_append_left _ ha
        cases fr with
        | left a r =>
            obtain ⟨hptr, hl, hr⟩ := hp
            obtain ⟨hleft, hright⟩ := hframe a (Or.inr List.mem_cons_self)
            refine ⟨hptr, ?_, ?_⟩
            · rw [hleft]
              exact hsub _ hl
            · rw [hright]
              exact hr.congr fun b hb => hframe b (Or.inr (List.mem_cons_of_mem a hb))
        | right l a =>
            obtain ⟨hptr, hl, hr⟩ := hp
            obtain ⟨hleft, hright⟩ := hframe a (Or.inl (List.mem_append_right _ (by simp)))
            refine ⟨hptr, ?_, ?_⟩
            · rw [hleft]
              exact hl.congr fun b hb => hframe b (Or.inl (List.mem_append_left _ hb))
            · rw [hright]
              exact hsub _ hr
      have hrest : ∀ a, a ∈ Shape.before c ∨ a ∈ Shape.after c →
          f'.left a = f.left a ∧ f'.right a = f.right a := by
        intro a ha
        refine hsame a (ha.imp (fun hb => ?_) fun ha => ?_)
        · exact List.mem_append_left _ hb
        · exact List.mem_append_right _ ha
      exact ih h hrest habove

end Children

/-- Every child of a node of the tree leads back to that node. -/
def Backlinked (f : Fields α) (t : Shape α) : Prop :=
  ∀ a ∈ t.inorder, ∀ b, f.left a = some b ∨ f.right a = some b → f.parent b = some a

/-- The pointer in front of a tree leads to its root, which leads to the node above. -/
theorem Links.parent_eq (h : Links f par (some a) t) : f.parent a = par := by
  cases t with
  | nil => exact absurd h (by simp [Links])
  | node l b r =>
      obtain ⟨heq, hparent, -, -⟩ := h
      rwa [Option.some.inj heq]

theorem Links.backlinked (h : Links f par ptr t) : Backlinked f t := by
  induction t generalizing par ptr with
  | nil => exact fun a ha => absurd ha List.not_mem_nil
  | node l c r ihl ihr =>
      obtain ⟨-, -, hl, hr⟩ := h
      intro a ha b hb
      rcases Shape.mem_node.mp ha with hal | rfl | har
      · exact ihl hl a hal b hb
      · rcases hb with hb | hb
        · exact (hb ▸ hl).parent_eq
        · exact (hb ▸ hr).parent_eq
      · exact ihr hr a har b hb

/-! ## The mirror image -/

/-- The pointers with left and right exchanged. -/
def Fields.mirror (f : Fields α) : Fields α where
  left := f.right
  right := f.left
  parent := f.parent

theorem Children.mirror (h : Children f ptr t) : Children f.mirror ptr t.mirror := by
  induction t generalizing ptr with
  | nil => exact h
  | node l a r ihl ihr =>
      obtain ⟨hptr, hl, hr⟩ := h
      exact ⟨hptr, ihr hr, ihl hl⟩

theorem backlinked_mirror : Backlinked f.mirror t.mirror ↔ Backlinked f t := by
  simp only [Backlinked, Shape.inorder_mirror, List.mem_reverse, Fields.mirror,
    or_comm (a := f.right _ = some _)]

theorem Links.mirror (h : Links f par ptr t) : Links f.mirror par ptr t.mirror := by
  induction t generalizing par ptr with
  | nil => exact h
  | node l a r ihl ihr =>
      obtain ⟨hptr, hpar, hl, hr⟩ := h
      exact ⟨hptr, hpar, ihr hr, ihl hl⟩

end Hlibc
