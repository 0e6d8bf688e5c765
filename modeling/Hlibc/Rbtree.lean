import Hlibc.Support.Exec
import Hlibc.Support.MinHeap
import Hlibc.Support.PointerTree
import Mathlib.Logic.Function.Basic

/-!
# `rbtree.c`

Red-black trees of linked nodes.  A node is an address, `NULL` is `none`, and
memory gives the fields of every node.
-/

set_option autoImplicit false

namespace Hlibc.Rb

/-- `RB_RED` and `RB_BLACK`. -/
inductive Color where
  | red
  | black
  deriving DecidableEq

/-- `struct rb_node`. -/
structure Node where
  left : Option ℕ
  right : Option ℕ
  parent : Option ℕ
  color : Color

/-- The root pointer of a tree, and the nodes of memory. -/
structure Memory where
  root : Option ℕ
  node : ℕ → Node

namespace Memory

/-- Change one node. -/
def modify (m : Memory) (a : ℕ) (change : Node → Node) : Memory :=
  { m with node := Function.update m.node a (change (m.node a)) }

def setLeft (m : Memory) (a : ℕ) (ptr : Option ℕ) : Memory :=
  m.modify a fun nd => { nd with left := ptr }

def setRight (m : Memory) (a : ℕ) (ptr : Option ℕ) : Memory :=
  m.modify a fun nd => { nd with right := ptr }

def setParent (m : Memory) (a : ℕ) (ptr : Option ℕ) : Memory :=
  m.modify a fun nd => { nd with parent := ptr }

def setColor (m : Memory) (a : ℕ) (color : Color) : Memory :=
  m.modify a fun nd => { nd with color := color }

end Memory

/-! ## The functions of the source -/

/-- The node a pointer leads to. -/
def deref (ptr : Option ℕ) : Exec ℕ :=
  match ptr with
  | some a => .ok a
  | none => .error .null

/-- One pass of `while (node->left) node = node->left`, or of the same with the other child. -/
def spinePass (child : Node → Option ℕ) (m : Memory) (node : ℕ) : Exec (Pass ℕ ℕ) :=
  match child (m.node node) with
  | some next => .ok (.next next)
  | none => .ok (.done node)

/-- One pass of `while (node->parent && node->parent->right == node) node = node->parent`, or of
the same with the other child. -/
def climbPass (child : Node → Option ℕ) (m : Memory) (node : ℕ) : Exec (Pass ℕ ℕ) :=
  match (m.node node).parent with
  | some parent =>
      if child (m.node parent) = some node then .ok (.next parent) else .ok (.done node)
  | none => .ok (.done node)

/-- The node at one end of the tree; the loop runs at most `budget` times. -/
def rbEnd (child : Node → Option ℕ) (budget : ℕ) (m : Memory) : Exec (Option ℕ) :=
  match m.root with
  | none => .ok none
  | some node => do
      let node ← loop (spinePass child m) budget node
      .ok (some node)

/-- `rb_first`. -/
def rbFirst : ℕ → Memory → Exec (Option ℕ) := rbEnd Node.left

/-- `rb_last`. -/
def rbLast : ℕ → Memory → Exec (Option ℕ) := rbEnd Node.right

/-- The neighbour of a node on the side of its child `near`; the loops run at most `budget`
times. -/
def rbStep (near far : Node → Option ℕ) (budget : ℕ) (m : Memory) (node : Option ℕ) :
    Exec (Option ℕ) :=
  match node with
  | none => .ok none
  | some node =>
      match near (m.node node) with
      | some node => do
          let node ← loop (spinePass far m) budget node
          .ok (some node)
      | none => do
          let node ← loop (climbPass near m) budget node
          .ok (m.node node).parent

/-- `rb_next`. -/
def rbNext : ℕ → Memory → Option ℕ → Exec (Option ℕ) := rbStep Node.right Node.left

/-- `rb_prev`. -/
def rbPrev : ℕ → Memory → Option ℕ → Exec (Option ℕ) := rbStep Node.left Node.right

/-- `rb_sibling`. -/
def rbSibling (m : Memory) (node : ℕ) : Exec (Option ℕ) := do
  let parent ← deref (m.node node).parent
  if (m.node parent).left = some node then .ok (m.node parent).left
  else .ok (m.node parent).right

/-- `rb_rotate`. -/
def rbRotate (m : Memory) (root pivot : ℕ) : Memory :=
  let m := m.setParent pivot (m.node root).parent
  let m := m.setParent root (some pivot)
  if (m.node root).left = some pivot then
    let m := m.setLeft root (m.node pivot).right
    m.setRight pivot (some root)
  else
    let m := m.setRight root (m.node pivot).left
    m.setLeft pivot (some root)

/-- One pass of the descent of `rb_insert`, on `it` and `parent`. -/
def descendPass (less : ℕ → ℕ → Bool) (m : Memory) (node : ℕ)
    (st : Option ℕ × Option ℕ) : Exec (Pass (Option ℕ × Option ℕ) (Option ℕ)) :=
  let (it, parent) := st
  match it with
  | none => .ok (.done parent)
  | some a =>
      let next := if less node a then (m.node a).left else (m.node a).right
      .ok (.next (next, some a))

/-- The variables of the second loop of `rb_insert`. -/
structure FixState where
  node : ℕ
  parent : Option ℕ
  mem : Memory

/-- The last branch of the second loop of `rb_insert`: one or two rotations. -/
def rotateInsert (node parent grandparent : ℕ) (m : Memory) : Exec Memory := do
  let inner : Bool :=
    if (m.node grandparent).left = some parent then (m.node parent).right = some node
    else (m.node parent).left = some node
  let (parent, m) ←
    (if inner then do
      let m := rbRotate m parent node
      let node := parent
      let parent ← deref (m.node node).parent
      .ok (parent, m)
    else .ok (parent, m) : Exec (ℕ × Memory))
  let m := rbRotate m grandparent parent
  let m := m.setColor grandparent .red
  .ok (m.setColor parent .black)

/-- One pass of the second loop of `rb_insert`. -/
def fixPass (st : FixState) : Exec (Pass FixState Memory) :=
  match st.parent with
  | none => .ok (.done { st.mem with root := some st.node })
  | some parent =>
      if (st.mem.node parent).color = .black then .ok (.done st.mem)
      else
        match (st.mem.node parent).parent with
        | none => .ok (.done (st.mem.setColor parent .black))
        | some grandparent => do
            let uncle ← rbSibling st.mem parent
            let uncle ← deref uncle
            if (st.mem.node uncle).color = .red then
              let m := st.mem.setColor uncle .black
              let m := m.setColor parent .black
              let m := m.setColor grandparent .red
              .ok (.next { node := grandparent, parent := some parent, mem := m })
            else do
              let m ← rotateInsert st.node parent grandparent st.mem
              .ok (.done m)

/-- `rb_insert`; both loops run at most `budget` times. -/
def rbInsert (budget : ℕ) (less : ℕ → ℕ → Bool) (m : Memory) (node : ℕ) : Exec Memory := do
  let m := m.setParent node none
  let m := m.setLeft node none
  let m := m.setRight node none
  let m := m.setColor node .red
  if m.root = none then .ok { m with root := some node } else
  let parent ← loop (descendPass less m node) budget (m.root, none)
  loop fixPass budget { node := node, parent := parent, mem := m }

/-! ## Red-black trees -/

/-- The pointer fields of memory. -/
def Memory.fields (m : Memory) : Fields ℕ where
  left := fun a => (m.node a).left
  right := fun a => (m.node a).right
  parent := fun a => (m.node a).parent

/-- The colour of a node. -/
def Memory.color (m : Memory) (a : ℕ) : Color := (m.node a).color

/-- The root of a shape is black, if there is one. -/
def BlackRoot (color : ℕ → Color) : Shape ℕ → Prop
  | .nil => True
  | .node _ a _ => color a = .black

/-- No red node has a red child. -/
def NoRedRed (color : ℕ → Color) : Shape ℕ → Prop
  | .nil => True
  | .node l a r =>
      (color a = .red → BlackRoot color l ∧ BlackRoot color r) ∧ NoRedRed color l ∧
        NoRedRed color r

/-- Every path from the root to a null pointer has `h` black nodes. -/
def BlackHeight (color : ℕ → Color) : Shape ℕ → ℕ → Prop
  | .nil, h => h = 0
  | .node l a r, h =>
      ∃ k, BlackHeight color l k ∧ BlackHeight color r k ∧
        h = if color a = .black then k + 1 else k

/-- The memory reachable from the root is a red-black tree of this shape. -/
structure IsRbTree (less : ℕ → ℕ → Bool) (m : Memory) (t : Shape ℕ) : Prop where
  links : Links m.fields none m.root t
  nodup : t.inorder.Nodup
  sorted : t.inorder.Pairwise fun a b => ¬ less b a = true
  noRedRed : NoRedRed m.color t
  balanced : ∃ h, BlackHeight m.color t h

end Hlibc.Rb
