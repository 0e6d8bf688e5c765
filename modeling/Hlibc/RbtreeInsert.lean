import Hlibc.Rbtree

/-!
# What `rb_insert` inserts

`rb_insert` looks for the place of the new node, and never links the node to
its parent.  So it puts a node into an empty tree, and into no other: there it
recolours at most, and the new node stays unreachable.
-/

set_option autoImplicit false

namespace Hlibc.Rb

/-! ## Fields -/

/-- Memory with the fields of `node` set as `rb_insert` sets them. -/
def cleared (m : Memory) (node : ℕ) : Memory :=
  m.modify node fun _ => { left := none, right := none, parent := none, color := .red }

theorem cleared_eq (m : Memory) (node : ℕ) :
    ((((m.setParent node none).setLeft node none).setRight node none).setColor node .red) =
      cleared m node := by
  simp [Memory.setParent, Memory.setLeft, Memory.setRight, Memory.setColor, Memory.modify,
    cleared]

@[simp] theorem fields_setColor (m : Memory) (a : ℕ) (c : Color) :
    (m.setColor a c).fields = m.fields := by
  have hsame : ∀ b, ((m.setColor a c).node b).left = (m.node b).left ∧
      ((m.setColor a c).node b).right = (m.node b).right ∧
      ((m.setColor a c).node b).parent = (m.node b).parent := by
    intro b
    by_cases hb : b = a
    · subst hb
      simp [Memory.setColor, Memory.modify]
    · simp [Memory.setColor, Memory.modify, hb]
  rw [Memory.fields, Memory.fields, Fields.mk.injEq]
  exact ⟨funext fun b => (hsame b).1, funext fun b => (hsame b).2.1,
    funext fun b => (hsame b).2.2⟩

@[simp] theorem color_setColor_self (m : Memory) (a : ℕ) (c : Color) :
    ((m.setColor a c).node a).color = c := by
  simp [Memory.setColor, Memory.modify]

theorem color_setColor_of_ne (m : Memory) {a b : ℕ} (hne : b ≠ a) (c : Color) :
    ((m.setColor a c).node b).color = (m.node b).color := by
  simp [Memory.setColor, Memory.modify, hne]

/-- Setting the fields of a node outside a tree keeps the tree. -/
theorem links_cleared {m : Memory} {t : Shape ℕ} {node : ℕ}
    (ht : Links m.fields none m.root t) (hnode : node ∉ t.inorder) :
    Links (cleared m node).fields none (cleared m node).root t := by
  apply ht.congr
  intro a ha
  have hne : a ≠ node := fun h => hnode (h ▸ ha)
  simp [Memory.fields, cleared, Memory.modify, hne]

/-! ## The descent -/

/-- The descent ends at the last node it visited. -/
theorem descend_loop (less : ℕ → ℕ → Bool) (node : ℕ) (start : Option ℕ) {m : Memory}
    {par it : Option ℕ} {s : Shape ℕ} {budget : ℕ} (hs : Links m.fields par it s)
    (hbudget : s.inorder.length < budget) :
    ∃ last, loop (descendPass less m node) budget (it, start) = .ok last ∧
      (it = none → last = start) ∧ (it ≠ none → ∃ a ∈ s.inorder, last = some a) := by
  obtain ⟨budget, rfl⟩ : ∃ k, budget = k + 1 := ⟨budget - 1, by omega⟩
  induction s generalizing par it start budget with
  | nil =>
      obtain rfl : it = none := hs
      exact ⟨start, loop_done rfl budget, fun _ => rfl, fun h => absurd rfl h⟩
  | node l a r ihl ihr =>
      obtain ⟨rfl, -, hl, hr⟩ := hs
      rw [Shape.inorder_node, List.length_append, List.length_cons] at hbudget
      obtain ⟨budget, rfl⟩ : ∃ k, budget = k + 1 := ⟨budget - 1, by omega⟩
      by_cases hless : less node a = true
      · have hpass : descendPass less m node (some a, start) =
            .ok (.next ((m.node a).left, some a)) := by simp [descendPass, hless]
        obtain ⟨last, hrun, hnone, hsome⟩ := ihl (some a) hl budget (by omega)
        refine ⟨last, (loop_next hpass _).trans hrun, fun h => absurd h (by simp), fun _ => ?_⟩
        by_cases hend : m.fields.left a = none
        · exact ⟨a, Shape.mem_node.mpr (Or.inr (Or.inl rfl)), hnone hend⟩
        · obtain ⟨b, hb, rfl⟩ := hsome hend
          exact ⟨b, Shape.mem_node.mpr (Or.inl hb), rfl⟩
      · have hpass : descendPass less m node (some a, start) =
            .ok (.next ((m.node a).right, some a)) := by simp [descendPass, hless]
        obtain ⟨last, hrun, hnone, hsome⟩ := ihr (some a) hr budget (by omega)
        refine ⟨last, (loop_next hpass _).trans hrun, fun h => absurd h (by simp), fun _ => ?_⟩
        by_cases hend : m.fields.right a = none
        · exact ⟨a, Shape.mem_node.mpr (Or.inr (Or.inl rfl)), hnone hend⟩
        · obtain ⟨b, hb, rfl⟩ := hsome hend
          exact ⟨b, Shape.mem_node.mpr (Or.inr (Or.inr hb)), rfl⟩

/-! ## The second loop -/

/-- `rb_sibling` of a child of its parent is that child. -/
theorem rbSibling_self {m : Memory} {a g : ℕ} (hparent : (m.node a).parent = some g)
    (hchild : (m.node g).left = some a ∨ (m.node g).right = some a) :
    rbSibling m a = .ok (some a) := by
  rw [rbSibling, hparent, deref, Exec.ok_bind]
  by_cases hleft : (m.node g).left = some a
  · rw [if_pos hleft, hleft]
  · rw [if_neg hleft, hchild.resolve_left hleft]

/-- From a node of a tree, the second loop only recolours. -/
theorem fix_loop (node budget : ℕ) {m : Memory} {t : Shape ℕ} {a : ℕ}
    (ht : Links m.fields none m.root t) (ha : a ∈ t.inorder) :
    ∃ m', loop fixPass (budget + 2) { node := node, parent := some a, mem := m } = .ok m' ∧
      m'.root = m.root ∧ m'.fields = m.fields := by
  by_cases hblack : (m.node a).color = .black
  · have hpass : fixPass { node := node, parent := some a, mem := m } = .ok (.done m) := by
      simp [fixPass, hblack]
    exact ⟨m, loop_done hpass _, rfl, rfl⟩
  rcases ht.parent_cases ha with ⟨hroot, -⟩ | ⟨g, hg, hparent, hchild⟩
  · have hroot' : (m.node a).parent = none := hroot
    have hpass : fixPass { node := node, parent := some a, mem := m } =
        .ok (.done (m.setColor a .black)) := by
      simp [fixPass, hblack, hroot']
    exact ⟨m.setColor a .black, loop_done hpass _, rfl, fields_setColor m a _⟩
  · have hparent' : (m.node a).parent = some g := hparent
    have hne : a ≠ g := by
      obtain ⟨par, s, hs⟩ := ht.subtree hg
      rintro rfl
      rcases hchild with hleft | hright
      · exact hs.left_ne hleft
      · exact hs.right_ne hright
    have hred : (m.node a).color = .red := by
      cases hcolor : (m.node a).color with
      | red => rfl
      | black => exact absurd hcolor hblack
    let m₁ := ((m.setColor a .black).setColor a .black).setColor g .red
    have hpass : fixPass { node := node, parent := some a, mem := m } =
        .ok (.next { node := g, parent := some a, mem := m₁ }) := by
      simp [fixPass, hparent', rbSibling_self hparent' hchild, deref, hred, m₁]
    have hblack₁ : (m₁.node a).color = .black := by
      rw [color_setColor_of_ne _ hne, color_setColor_self]
    have hpass₁ : fixPass { node := g, parent := some a, mem := m₁ } = .ok (.done m₁) := by
      simp [fixPass, hblack₁]
    refine ⟨m₁, ?_, rfl, by simp [m₁]⟩
    rw [loop_next hpass, loop_done hpass₁]

/-! ## `rb_insert` -/

theorem rbInsert_eq (budget : ℕ) (less : ℕ → ℕ → Bool) (m : Memory) (node : ℕ) :
    rbInsert budget less m node =
      if m.root = none then .ok { cleared m node with root := some node }
      else loop (descendPass less (cleared m node) node) budget (m.root, none) >>= fun parent =>
        loop fixPass budget { node := node, parent := parent, mem := cleared m node } := by
  simp only [rbInsert, cleared_eq]
  rfl

theorem rbInsert_empty (budget : ℕ) (less : ℕ → ℕ → Bool) {m : Memory} {node : ℕ}
    (hroot : m.root = none) :
    ∃ m', rbInsert budget less m node = .ok m' ∧ m'.root = some node ∧
      m'.node node = { left := none, right := none, parent := none, color := .red } := by
  refine ⟨_, by rw [rbInsert_eq, if_pos hroot], rfl, ?_⟩
  simp [cleared, Memory.modify]

/-- A tree that is not empty keeps its shape: the new node is not linked. -/
theorem rbInsert_nonempty (less : ℕ → ℕ → Bool) {m : Memory} {t : Shape ℕ} {node budget : ℕ}
    (ht : Links m.fields none m.root t) (hroot : m.root ≠ none) (hnode : node ∉ t.inorder)
    (hbudget : t.inorder.length < budget) :
    ∃ m', rbInsert budget less m node = .ok m' ∧ m'.root = m.root ∧
      Links m'.fields none m'.root t := by
  have hcleared := links_cleared ht hnode
  obtain ⟨last, hdescend, -, hlast⟩ := descend_loop less node none hcleared hbudget
  obtain ⟨a, ha, rfl⟩ := hlast hroot
  have hpos : 0 < t.inorder.length := List.length_pos_of_mem ha
  obtain ⟨budget, rfl⟩ : ∃ k, budget = k + 2 := ⟨budget - 2, by omega⟩
  obtain ⟨m', hfix, hsame, hfields⟩ := fix_loop node budget hcleared ha
  refine ⟨m', ?_, hsame, ?_⟩
  · rw [rbInsert_eq, if_neg hroot]
    exact (congrArg (· >>= _) hdescend).trans hfix
  · rw [hfields, hsame]
    exact hcleared

/-- After `rb_insert` the tree is again a red-black tree, and its sequence is the
old one with the node inserted once. -/
def Inserts (budget : ℕ) (less : ℕ → ℕ → Bool) (m : Memory) (t : Shape ℕ) (node : ℕ) : Prop :=
  ∃ m' t', rbInsert budget less m node = .ok m' ∧ IsRbTree less m' t' ∧
    ∃ front back, t.inorder = front ++ back ∧ t'.inorder = front ++ node :: back

/-- A single node that points nowhere is a red-black tree. -/
theorem isRbTree_single (less : ℕ → ℕ → Bool) {m : Memory} {node : ℕ}
    (hroot : m.root = some node)
    (hnode : m.node node = { left := none, right := none, parent := none, color := .red }) :
    IsRbTree less m (.node .nil node .nil) := by
  refine ⟨⟨hroot, ?_, ?_, ?_⟩, List.nodup_singleton node, List.pairwise_singleton _ node,
    ⟨fun _ => ⟨trivial, trivial⟩, trivial, trivial⟩, 0, 0, rfl, rfl, ?_⟩
  · simp [Memory.fields, hnode]
  · simp [Memory.fields, hnode, Links]
  · simp [Memory.fields, hnode, Links]
  · simp [Memory.color, hnode]

/-- `rb_insert` inserts into the empty tree only. -/
theorem inserts_iff_nil {budget : ℕ} {less : ℕ → ℕ → Bool} {m : Memory} {t : Shape ℕ} {node : ℕ}
    (ht : IsRbTree less m t) (hnode : node ∉ t.inorder) (hbudget : t.inorder.length < budget) :
    Inserts budget less m t node ↔ t = .nil := by
  constructor
  · rintro ⟨m', t', hrun, ht', front, back, hold, hnew⟩
    by_contra hne
    have hroot : m.root ≠ none := by
      intro hnone
      have hlinks := ht.links
      rw [hnone] at hlinks
      exact hne (hlinks.unique rfl)
    obtain ⟨m'', hrun', -, hlinks'⟩ := rbInsert_nonempty less ht.links hroot hnode hbudget
    rw [hrun] at hrun'
    obtain rfl := Except.ok.inj hrun'
    obtain rfl := ht'.links.unique hlinks'
    have hlen := congrArg List.length hnew
    rw [hold] at hlen
    simp at hlen
  · rintro rfl
    have hroot : m.root = none := ht.links
    obtain ⟨m', hrun, hroot', hfields⟩ := rbInsert_empty budget less hroot
    exact ⟨m', .node .nil node .nil, hrun, isRbTree_single less hroot' hfields, [], [], rfl, rfl⟩

/-! ## Sequences of inserts -/

/-- A sequence of inserts. -/
def rbInserts (budget : ℕ) (less : ℕ → ℕ → Bool) (m : Memory) (nodes : List ℕ) : Exec Memory :=
  nodes.foldlM (rbInsert budget less) m

/-- The inserts leave a red-black tree of exactly the inserted nodes. -/
def KeepsAll (budget : ℕ) (less : ℕ → ℕ → Bool) (m : Memory) (nodes : List ℕ) : Prop :=
  ∃ m' t', rbInserts budget less m nodes = .ok m' ∧ IsRbTree less m' t' ∧
    t'.inorder.Perm nodes

/-- Inserts into a tree that is not empty keep its shape. -/
theorem rbInserts_nonempty (less : ℕ → ℕ → Bool) (nodes : List ℕ) {budget : ℕ} {m : Memory}
    {t : Shape ℕ} (ht : Links m.fields none m.root t) (hroot : m.root ≠ none)
    (hnodes : ∀ a ∈ nodes, a ∉ t.inorder) (hbudget : t.inorder.length < budget) :
    ∃ m', rbInserts budget less m nodes = .ok m' ∧ Links m'.fields none m'.root t := by
  induction nodes generalizing m with
  | nil => exact ⟨m, rfl, ht⟩
  | cons a nodes ih =>
      obtain ⟨m₁, hrun, hroot₁, ht₁⟩ := rbInsert_nonempty less ht hroot
        (hnodes a List.mem_cons_self) hbudget
      obtain ⟨m', hrest, ht'⟩ := ih ht₁ (by rwa [hroot₁]) fun b hb =>
        hnodes b (List.mem_cons_of_mem a hb)
      refine ⟨m', ?_, ht'⟩
      rw [rbInserts, List.foldlM_cons, hrun, Exec.ok_bind]
      exact hrest

/-- From the empty tree, only sequences of at most one insert keep every node. -/
theorem keepsAll_iff_length {budget : ℕ} {less : ℕ → ℕ → Bool} {m : Memory} {nodes : List ℕ}
    (hroot : m.root = none) (hnodup : nodes.Nodup) (hbudget : 2 ≤ budget) :
    KeepsAll budget less m nodes ↔ nodes.length ≤ 1 := by
  have hempty : IsRbTree less m .nil :=
    ⟨hroot, List.nodup_nil, List.Pairwise.nil, trivial, 0, rfl⟩
  match nodes with
  | [] => exact ⟨fun _ => Nat.zero_le 1, fun _ => ⟨m, .nil, rfl, hempty, List.Perm.refl _⟩⟩
  | [a] =>
      refine ⟨fun _ => Nat.le_refl 1, fun _ => ?_⟩
      obtain ⟨m', hrun, hroot', hfields⟩ := rbInsert_empty budget less hroot
      refine ⟨m', .node .nil a .nil, ?_, isRbTree_single less hroot' hfields, List.Perm.refl _⟩
      rw [rbInserts, List.foldlM_cons, hrun]
      rfl
  | a :: b :: rest =>
      refine ⟨?_, fun h => by simp at h⟩
      rintro ⟨m', t', hrun, ht', hperm⟩
      obtain ⟨m₁, hrun₁, hroot₁, hfields₁⟩ := rbInsert_empty budget less hroot
      have hlinks₁ := (isRbTree_single less hroot₁ hfields₁).links
      obtain ⟨m'', hrest, hlinks'⟩ := rbInserts_nonempty less (b :: rest) hlinks₁
        (by simp [hroot₁])
        (by
          intro c hc hmem
          obtain rfl : c = a := by simpa using hmem
          exact (List.nodup_cons.mp hnodup).1 hc)
        (by simpa using Nat.lt_of_lt_of_le Nat.one_lt_two hbudget)
      rw [rbInserts, List.foldlM_cons, hrun₁, Exec.ok_bind] at hrun
      rw [rbInserts, hrun] at hrest
      obtain rfl := Except.ok.inj hrest
      obtain rfl := ht'.links.unique hlinks'
      have hlen := hperm.length_eq
      simp at hlen

/-! ## When `rb_insert` inserts -/

/-- `rb_insert` inserts a node exactly when the tree is empty, so of the sequences
of inserts into the empty tree only those of at most one node keep every node. -/
theorem rbInsert_iff_empty (less : ℕ → ℕ → Bool) :
    (∀ {m : Memory} {t : Shape ℕ} {node budget : ℕ}, IsRbTree less m t → node ∉ t.inorder →
      t.inorder.length < budget → (Inserts budget less m t node ↔ m.root = none)) ∧
    ∀ {m : Memory} {nodes : List ℕ} {budget : ℕ}, m.root = none → nodes.Nodup → 2 ≤ budget →
      (KeepsAll budget less m nodes ↔ nodes.length ≤ 1) := by
  constructor
  · intro m t node budget ht hnode hbudget
    rw [inserts_iff_nil ht hnode hbudget, ht.links.eq_nil_iff]
  · intro m nodes budget hroot hnodup hbudget
    exact keepsAll_iff_length hroot hnodup hbudget

/-- The tree of one node, at address 0. -/
def singleton : Memory where
  root := some 0
  node := fun _ => { left := none, right := none, parent := none, color := .red }

theorem singleton_isRbTree (less : ℕ → ℕ → Bool) :
    IsRbTree less singleton (.node .nil 0 .nil) :=
  isRbTree_single less rfl rfl

/-- Into the tree of one node nothing is inserted, and two inserts into the empty
tree leave one node. -/
theorem rbInsert_iff_empty_singleton :
    (Inserts 2 (fun a b => decide (a < b)) singleton (.node .nil 0 .nil) 1 ↔
        singleton.root = none) ∧
      (KeepsAll 2 (fun a b => decide (a < b)) { singleton with root := none } [0, 1] ↔
        [0, 1].length ≤ 1) :=
  ⟨(rbInsert_iff_empty fun a b => decide (a < b)).1 (singleton_isRbTree _) (by decide)
      (by decide),
    (rbInsert_iff_empty fun a b => decide (a < b)).2 rfl (by decide) (by decide)⟩

/-- The smaller node 0 is in the tree, and node 1 does not get into it. -/
theorem rbInsert_drops_node :
    StrictWeak (fun a b : ℕ => decide (a < b) = true) ∧
      IsRbTree (fun a b => decide (a < b)) singleton (.node .nil 0 .nil) ∧
      1 ∉ (Shape.node .nil 0 .nil).inorder ∧
      ∀ budget, 1 < budget →
        ¬ Inserts budget (fun a b => decide (a < b)) singleton (.node .nil 0 .nil) 1 := by
  refine ⟨?_, singleton_isRbTree _, by decide, fun budget hbudget h => ?_⟩
  · simpa using StrictWeak.of_key (fun a : ℕ => a)
  · have hnil := (inserts_iff_nil (singleton_isRbTree _) (by decide) hbudget).mp h
    cases hnil

end Hlibc.Rb
