import Hlibc.Rbtree
import Hlibc.Support.TreePosition

/-!
# What `rb_rotate` updates

`rb_rotate` makes `root` a child of `pivot` and hands over the subtree between them.  It keeps
the order of the nodes.  It does not tell that subtree its new parent, nor the former parent of
`root` its new child, so it leaves a tree only where neither of them is there.
-/

set_option autoImplicit false

namespace Hlibc.Rb

variable {f f' : Fields ℕ} {m : Memory} {par : Option ℕ} {t s l i r : Shape ℕ} {root pivot : ℕ}

/-! ## The pointers -/

/-- What a rotation at the left child of `root` makes of the pointers. -/
structure Turns (f f' : Fields ℕ) (root pivot : ℕ) : Prop where
  leftRoot : f'.left root = f.right pivot
  rightRoot : f'.right root = f.right root
  parentRoot : f'.parent root = some pivot
  leftPivot : f'.left pivot = f.left pivot
  rightPivot : f'.right pivot = some root
  parentPivot : f'.parent pivot = f.parent root
  other : ∀ a, a ≠ root → a ≠ pivot →
    f'.left a = f.left a ∧ f'.right a = f.right a ∧ f'.parent a = f.parent a

theorem rbRotate_node_of_ne {a : ℕ} (hroot : a ≠ root) (hpivot : a ≠ pivot) :
    (rbRotate m root pivot).node a = m.node a := by
  rw [rbRotate]
  split <;>
    simp [Memory.setLeft, Memory.setRight, Memory.setParent, Memory.modify, hroot, hpivot]

theorem rbRotate_turns (hne : root ≠ pivot) (hleft : (m.node root).left = some pivot) :
    Turns m.fields (rbRotate m root pivot).fields root pivot := by
  constructor
  case other =>
    intro a hroot hpivot
    simp [Memory.fields, rbRotate_node_of_ne hroot hpivot]
  all_goals
    simp [rbRotate, Memory.fields, Memory.setLeft, Memory.setRight, Memory.setParent,
      Memory.modify, Function.update_apply, hleft, hne, hne.symm]

/-- At the right child, a rotation is the mirror image. -/
theorem rbRotate_turns_mirror (hne : root ≠ pivot) (hleft : (m.node root).left ≠ some pivot) :
    Turns m.fields.mirror (rbRotate m root pivot).fields.mirror root pivot := by
  constructor
  case other =>
    intro a hroot hpivot
    simp [Memory.fields, Fields.mirror, rbRotate_node_of_ne hroot hpivot]
  all_goals
    simp [rbRotate, Memory.fields, Fields.mirror, Memory.setLeft, Memory.setRight,
      Memory.setParent, Memory.modify, Function.update_apply, hleft, hne, hne.symm]

/-! ## The subtree -/

namespace Turns

/-- A subtree without `root` and `pivot` keeps its pointers. -/
theorem links {ptr : Option ℕ} (hturn : Turns f f' root pivot) (h : Links f par ptr t)
    (hroot : root ∉ t.inorder) (hpivot : pivot ∉ t.inorder) : Links f' par ptr t :=
  h.congr fun a ha =>
    hturn.other a (ne_of_mem_of_not_mem ha hroot) (ne_of_mem_of_not_mem ha hpivot)

/-- The rotated subtree keeps its order, and its nodes know their parents exactly if no subtree
was handed over. -/
theorem exists_children (hturn : Turns f f' root pivot) (h : Links f par (some root) s)
    (hnodup : s.inorder.Nodup) (hleft : f.left root = some pivot) :
    ∃ s', Children f' (some pivot) s' ∧ s'.inorder = s.inorder ∧
      (Backlinked f' s' ↔ f.right pivot = none) := by
  cases s with
  | nil => exact absurd h (by simp [Links])
  | node s₁ a r =>
      obtain ⟨heq, -, hl, hr⟩ := h
      obtain rfl := Option.some.inj heq
      rw [hleft] at hl
      cases s₁ with
      | nil => exact absurd hl (by simp [Links])
      | node l b i =>
          obtain ⟨heq, -, hl, hi⟩ := hl
          obtain rfl := Option.some.inj heq
          have hout : (root ∉ l.inorder ∧ pivot ∉ l.inorder) ∧
              (root ∉ i.inorder ∧ pivot ∉ i.inorder) ∧
              (root ∉ r.inorder ∧ pivot ∉ r.inorder) ∧ root ≠ pivot := by
            simp only [Shape.inorder_node, List.nodup_append, List.nodup_cons, List.mem_append,
              List.mem_cons] at hnodup
            grind
          obtain ⟨⟨hrl, hpl⟩, ⟨hri, hpi⟩, ⟨hrr, hpr⟩, hne⟩ := hout
          have hl' : Links f' (some pivot) (f'.left pivot) l := by
            rw [hturn.leftPivot]
            exact hturn.links hl hrl hpl
          have hi' : Links f' (some pivot) (f'.left root) i := by
            rw [hturn.leftRoot]
            exact hturn.links hi hri hpi
          have hr' : Links f' (some root) (f'.right root) r := by
            rw [hturn.rightRoot]
            exact hturn.links hr hrr hpr
          refine ⟨.node l pivot (.node i root r), ⟨rfl, hl'.children, hturn.rightPivot,
            hi'.children, hr'.children⟩, by simp, ?_⟩
          constructor
          · intro hback
            cases hinner : f.right pivot with
            | none => rfl
            | some b =>
                rw [hturn.leftRoot, hinner] at hi'
                have hmem : root ∈ (Shape.node l pivot (.node i root r)).inorder := by simp
                have hroot : f'.parent b = some root :=
                  hback root hmem b (Or.inl (hturn.leftRoot.trans hinner))
                rw [hi'.parent_eq] at hroot
                exact absurd (Option.some.inj hroot).symm hne
          · intro hinner
            have hnone : f'.left root = none := hturn.leftRoot.trans hinner
            obtain rfl := hi'.eq_nil_iff.mpr hnone
            have hlinks : Links f' (f'.parent pivot) (some pivot)
                (.node l pivot (.node .nil root r)) :=
              ⟨rfl, rfl, hl', hturn.rightPivot, hturn.parentRoot, hnone, hr'⟩
            exact hlinks.backlinked

end Turns

/-! ## The whole call -/

/-- The subtree that a rotation hands over from `pivot` to `root`. -/
def inner (m : Memory) (root pivot : ℕ) : Option ℕ :=
  if (m.node root).left = some pivot then (m.node pivot).right else (m.node pivot).left

/-- What a rotation is for: the subtree keeps its order, its nodes know their parents, and the
former parent of `root` has `pivot` in the place of `root`. -/
structure Rotated (m m' : Memory) (root pivot : ℕ) : Prop where
  subtree : ∃ s s', Children m.fields (some root) s ∧ Children m'.fields (some pivot) s' ∧
    s'.inorder = s.inorder ∧ Backlinked m'.fields s'
  above : ∀ parent, (m.node root).parent = some parent →
    ((m.node parent).left = some root → (m'.node parent).left = some pivot) ∧
      ((m.node parent).right = some root → (m'.node parent).right = some pivot)

/-- On either side a rotation keeps the order of the subtree. -/
theorem rbRotate_children (h : Links m.fields par (some root) s) (hnodup : s.inorder.Nodup)
    (hne : root ≠ pivot)
    (hpivot : (m.node root).left = some pivot ∨ (m.node root).right = some pivot) :
    ∃ s', Children (rbRotate m root pivot).fields (some pivot) s' ∧ s'.inorder = s.inorder ∧
      (Backlinked (rbRotate m root pivot).fields s' ↔ inner m root pivot = none) := by
  by_cases hleft : (m.node root).left = some pivot
  · rw [inner, if_pos hleft]
    exact (rbRotate_turns hne hleft).exists_children h hnodup hleft
  · rw [inner, if_neg hleft]
    have hnodup' : s.mirror.inorder.Nodup := by
      rw [Shape.inorder_mirror]
      exact List.nodup_reverse.mpr hnodup
    obtain ⟨s', hs', horder, hback⟩ := (rbRotate_turns_mirror hne hleft).exists_children
      h.mirror hnodup' (hpivot.resolve_left hleft)
    refine ⟨s'.mirror, hs'.mirror, ?_, ?_⟩
    · rw [Shape.inorder_mirror, horder, Shape.inorder_mirror, List.reverse_reverse]
    · rw [← backlinked_mirror] at hback
      exact hback

/-- `rb_rotate` does what it is for exactly if `root` has no parent and no subtree is handed
over. -/
theorem rbRotate_rotated_iff (m : Memory) (t : Shape ℕ) (root pivot : ℕ)
    (h : Links m.fields none m.root t) (hnodup : t.inorder.Nodup) (hroot : root ∈ t.inorder)
    (hpivot : (m.node root).left = some pivot ∨ (m.node root).right = some pivot) :
    Rotated m (rbRotate m root pivot) root pivot ↔
      (m.node root).parent = none ∧ inner m root pivot = none := by
  obtain ⟨c, l, r, rfl⟩ := Shape.exists_plug hroot
  have hsub : ((Shape.node l root r).inorder).Nodup := by
    rw [Shape.inorder_plug] at hnodup
    exact (List.nodup_append.mp (List.nodup_append.mp hnodup).2.1).1
  obtain ⟨par, ptr, hs⟩ := h.of_plug
  obtain ⟨rfl, -, hl, hr⟩ := id hs
  have hmem : pivot ∈ l.inorder ∨ pivot ∈ r.inorder := by
    rcases hpivot with hleft | hright
    · have hl' : Links m.fields (some root) (m.node root).left l := hl
      rw [hleft] at hl'
      exact Or.inl hl'.mem
    · have hr' : Links m.fields (some root) (m.node root).right r := hr
      rw [hright] at hr'
      exact Or.inr hr'.mem
  have hne : root ≠ pivot := by
    rintro rfl
    obtain ⟨-, hnotMem, hdisj⟩ := List.nodup_append.mp hsub
    rcases hmem with hmem | hmem
    · exact hdisj root hmem root List.mem_cons_self rfl
    · exact (List.nodup_cons.mp hnotMem).1 hmem
  have hpivotmem : pivot ∈ (Shape.node l root r).inorder := by
    rw [Shape.mem_node]
    tauto
  obtain ⟨s', hs', horder, hback⟩ := rbRotate_children hs hsub hne hpivot
  constructor
  · intro hrot
    constructor
    · rcases h.parent_of_plug hnodup with hnone | ⟨p, hparent, hp, hchild⟩
      · exact hnone
      · have hproot : p ≠ root := fun heq => hp (heq ▸ hs.mem)
        have hppivot : p ≠ pivot := fun heq => hp (heq ▸ hpivotmem)
        have hsame := rbRotate_node_of_ne (m := m) hproot hppivot
        obtain ⟨hleft, hright⟩ := hrot.above p hparent
        rw [hsame] at hleft hright
        rcases hchild with hchild | hchild
        · exact absurd (Option.some.inj (hchild.symm.trans (hleft hchild))) hne
        · exact absurd (Option.some.inj (hchild.symm.trans (hright hchild))) hne
    · obtain ⟨-, s'', -, hs'', -, hback''⟩ := hrot.subtree
      obtain rfl := hs'.unique hs''
      exact hback.mp hback''
  · rintro ⟨hnone, hinner⟩
    refine ⟨⟨_, s', hs.children, hs', horder, hback.mpr hinner⟩, fun p hparent => ?_⟩
    rw [hnone] at hparent
    cases hparent

/-- The node 0 on the left of the node 1, with the node 2 on the right of `pivot` if `handed`. -/
def leaning (handed : Bool) : Memory where
  root := some 1
  node a :=
    if a = 1 then { left := some 0, right := none, parent := none, color := .black }
    else if a = 0 then
      { left := none, right := if handed then some 2 else none, parent := some 1, color := .red }
    else { left := none, right := none, parent := some 0, color := .black }

theorem leaning_links (handed : Bool) :
    Links (leaning handed).fields none (leaning handed).root
      (.node (.node .nil 0 (if handed then .node .nil 2 .nil else .nil)) 1 .nil) := by
  cases handed <;> simp [Links, leaning, Memory.fields]

/-- The node 0 has no child. -/
theorem rbRotate_rotated_iff_leaning :
    Rotated (leaning false) (rbRotate (leaning false) 1 0) 1 0 ↔
      ((leaning false).node 1).parent = none ∧ inner (leaning false) 1 0 = none :=
  rbRotate_rotated_iff _ _ 1 0 (leaning_links false) (by decide) (by decide) (Or.inl rfl)

/-- The node 2 keeps the parent 0 below its new parent 1. -/
theorem rbRotate_strays :
    ¬∀ (m : Memory) (t : Shape ℕ) (root pivot : ℕ), Links m.fields none m.root t →
      t.inorder.Nodup → root ∈ t.inorder →
        (m.node root).left = some pivot ∨ (m.node root).right = some pivot →
          Rotated m (rbRotate m root pivot) root pivot := by
  intro hall
  obtain ⟨-, s', -, hs', -, hback⟩ := (hall (leaning true) _ 1 0 (leaning_links true) (by decide)
    (by decide) (Or.inl rfl)).subtree
  have hchildren : Children (rbRotate (leaning true) 1 0).fields (some 0)
      (.node .nil 0 (.node (.node .nil 2 .nil) 1 .nil)) := by
    simp [Children, Memory.fields, rbRotate, Memory.setLeft, Memory.setRight, Memory.setParent,
      Memory.modify, leaning]
  obtain rfl := hs'.unique hchildren
  have hparent : (rbRotate (leaning true) 1 0).fields.parent 2 = some 1 :=
    hback 1 (by decide) 2 (Or.inl rfl)
  exact absurd hparent (by decide)

end Hlibc.Rb
