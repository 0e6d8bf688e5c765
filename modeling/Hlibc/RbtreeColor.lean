import Hlibc.RbtreeInsert

/-!
# What `rb_insert` recolours

In a tree that is not empty `rb_insert` links nothing, and still repairs the colours around the
place it found.  `rb_sibling` gives it the parent for the uncle, so a red parent is turned black
and the grandparent red, with no node below that would make up for it.
-/

set_option autoImplicit false

namespace Hlibc.Rb

variable {less : ℕ → ℕ → Bool} {m : Memory} {node budget a g h k : ℕ} {t s : Shape ℕ}
  {par it start : Option ℕ} {front : List ℕ}

/-! ## The nodes of the descent -/

/-- The nodes that `rb_insert` passes in search of the place of `node`. -/
def descent (less : ℕ → ℕ → Bool) (node : ℕ) : Shape ℕ → List ℕ
  | .nil => []
  | .node l a r => a :: if less node a then descent less node l else descent less node r

theorem descent_eq_nil : descent less node t = [] ↔ t = .nil := by
  cases t <;> simp [descent]

theorem mem_of_mem_descent (ha : a ∈ descent less node t) : a ∈ t.inorder := by
  induction t with
  | nil => exact ha
  | node l b r ihl ihr =>
      rw [descent] at ha
      rcases List.mem_cons.mp ha with rfl | ha
      · simp
      · by_cases hless : less node b = true
        · rw [if_pos hless] at ha
          exact Shape.mem_node.mpr (Or.inl (ihl ha))
        · rw [if_neg hless] at ha
          exact Shape.mem_node.mpr (Or.inr (Or.inr (ihr ha)))

theorem descend_loop_eq (hs : Links m.fields par it s) (hbudget : s.inorder.length < budget) :
    loop (descendPass less m node) budget (it, start) =
      .ok ((descent less node s).getLast?.or start) := by
  obtain ⟨budget, rfl⟩ : ∃ k, budget = k + 1 := ⟨budget - 1, by omega⟩
  induction s generalizing par it start budget with
  | nil =>
      obtain rfl : it = none := hs
      exact loop_done rfl budget
  | node l a r ihl ihr =>
      obtain ⟨rfl, -, hl, hr⟩ := hs
      rw [Shape.inorder_node, List.length_append, List.length_cons] at hbudget
      obtain ⟨budget, rfl⟩ : ∃ k, budget = k + 1 := ⟨budget - 1, by omega⟩
      by_cases hless : less node a = true
      · have hpass : descendPass less m node (some a, start) =
            .ok (.next ((m.node a).left, some a)) := by simp [descendPass, hless]
        rw [loop_next hpass]
        refine (ihl hl budget (by omega)).trans ?_
        cases hlast : (descent less node l).getLast? <;>
          simp [descent, hless, List.getLast?_cons, hlast]
      · have hpass : descendPass less m node (some a, start) =
            .ok (.next ((m.node a).right, some a)) := by simp [descendPass, hless]
        rw [loop_next hpass]
        refine (ihr hr budget (by omega)).trans ?_
        cases hlast : (descent less node r).getLast? <;>
          simp [descent, hless, List.getLast?_cons, hlast]

theorem root_of_descent (ht : Links m.fields par it t) (hpath : descent less node t = [a]) :
    it = some a ∧ m.fields.parent a = par := by
  cases t with
  | nil => cases hpath
  | node l b r =>
      obtain ⟨hptr, hparent, -, -⟩ := ht
      obtain ⟨rfl, -⟩ := List.cons.inj hpath
      exact ⟨hptr, hparent⟩

/-- Each further node is a child of the one in front of it. -/
theorem parent_of_descent (ht : Links m.fields par it t)
    (hpath : descent less node t = front ++ [g, a]) :
    m.fields.parent a = some g ∧ (m.fields.left g = some a ∨ m.fields.right g = some a) := by
  induction t generalizing par it front with
  | nil => simp [descent] at hpath
  | node l b r ihl ihr =>
      obtain ⟨-, -, hl, hr⟩ := ht
      rw [descent] at hpath
      cases front with
      | nil =>
          obtain ⟨rfl, hrest⟩ := List.cons.inj hpath
          by_cases hless : less node b = true
          · rw [if_pos hless] at hrest
            obtain ⟨hptr, hparent⟩ := root_of_descent hl hrest
            exact ⟨hparent, Or.inl hptr⟩
          · rw [if_neg hless] at hrest
            obtain ⟨hptr, hparent⟩ := root_of_descent hr hrest
            exact ⟨hparent, Or.inr hptr⟩
      | cons c front =>
          obtain ⟨-, hrest⟩ := List.cons.inj hpath
          by_cases hless : less node b = true
          · rw [if_pos hless] at hrest
            exact ihl hl hrest
          · rw [if_neg hless] at hrest
            exact ihr hr hrest

/-! ## Colours of a shape -/

section Colors

variable {color color' : ℕ → Color}

theorem blackHeight_congr (hsame : ∀ x ∈ t.inorder, color' x = color x) :
    BlackHeight color' t h ↔ BlackHeight color t h := by
  induction t generalizing h with
  | nil => rfl
  | node l a r ihl ihr =>
      have hl : ∀ k, BlackHeight color' l k ↔ BlackHeight color l k := fun k =>
        ihl fun x hx => hsame x (Shape.mem_node.mpr (Or.inl hx))
      have hr : ∀ k, BlackHeight color' r k ↔ BlackHeight color r k := fun k =>
        ihr fun x hx => hsame x (Shape.mem_node.mpr (Or.inr (Or.inr hx)))
      simp only [BlackHeight, hl, hr, hsame a (Shape.mem_node.mpr (Or.inr (Or.inl rfl)))]

theorem noRedRed_congr (hsame : ∀ x ∈ t.inorder, color' x = color x) :
    NoRedRed color' t ↔ NoRedRed color t := by
  have hroot : ∀ s : Shape ℕ, (∀ x ∈ s.inorder, color' x = color x) →
      (BlackRoot color' s ↔ BlackRoot color s) := by
    intro s hs
    cases s with
    | nil => rfl
    | node l a r => simp only [BlackRoot, hs a (Shape.mem_node.mpr (Or.inr (Or.inl rfl)))]
  induction t with
  | nil => rfl
  | node l a r ihl ihr =>
      have hl : ∀ x ∈ l.inorder, color' x = color x := fun x hx =>
        hsame x (Shape.mem_node.mpr (Or.inl hx))
      have hr : ∀ x ∈ r.inorder, color' x = color x := fun x hx =>
        hsame x (Shape.mem_node.mpr (Or.inr (Or.inr hx)))
      simp only [NoRedRed, hroot l hl, hroot r hr, ihl hl, ihr hr,
        hsame a (Shape.mem_node.mpr (Or.inr (Or.inl rfl)))]

theorem BlackHeight.unique (hh : BlackHeight color t h) (hk : BlackHeight color t k) : h = k := by
  induction t generalizing h k with
  | nil => exact Eq.trans hh (Eq.symm hk)
  | node l a r ihl _ =>
      obtain ⟨h', hl, -, rfl⟩ := hh
      obtain ⟨k', hl', -, rfl⟩ := hk
      rw [ihl hl hl']

/-- A subtree in which the descent ends at once has no black node below its root. -/
theorem blackHeight_of_descent (hpath : descent less node t = [a]) (hh : BlackHeight color t h) :
    h = if color a = .black then 1 else 0 := by
  cases t with
  | nil => cases hpath
  | node l b r =>
      obtain ⟨k, hl, hr, rfl⟩ := hh
      rw [descent] at hpath
      obtain ⟨rfl, hrest⟩ := List.cons.inj hpath
      have hk : k = 0 := by
        by_cases hless : less node b = true
        · rw [if_pos hless, descent_eq_nil] at hrest
          rw [hrest] at hl
          exact hl
        · rw [if_neg hless, descent_eq_nil] at hrest
          rw [hrest] at hr
          exact hr
      rw [hk]

/-- With a red node at the end of the descent turned black, and the node above it recoloured,
the paths on its side of that node have a black node too many. -/
theorem not_blackHeight_of_descent (hnodup : t.inorder.Nodup)
    (hpath : descent less node t = front ++ [g, a]) (hh : BlackHeight color t h)
    (hred : color a = .red) (hblack : color' a = .black)
    (hsame : ∀ x, x ≠ a → x ≠ g → color' x = color x) : ¬ BlackHeight color' t k := by
  have hsides : ∀ {l r : Shape ℕ} {i j : ℕ}, descent less node l = [a] → a ∉ r.inorder →
      g ∉ r.inorder → BlackHeight color l i → BlackHeight color r i → BlackHeight color' l j →
      ¬ BlackHeight color' r j := by
    intro l r i j hl har hgr hli hri hlj hrj
    have hi := blackHeight_of_descent hl hli
    have hj := blackHeight_of_descent hl hlj
    rw [hred, if_neg (by simp)] at hi
    rw [hblack, if_pos rfl] at hj
    have hother : ∀ x ∈ r.inorder, color' x = color x := fun x hx =>
      hsame x (fun heq => har (heq ▸ hx)) fun heq => hgr (heq ▸ hx)
    have heq := hri.unique ((blackHeight_congr hother).mp hrj)
    omega
  intro hk
  induction t generalizing front h k with
  | nil => simp [descent] at hpath
  | node l b r ihl ihr =>
      obtain ⟨i, hli, hri, -⟩ := hh
      obtain ⟨j, hlj, hrj, -⟩ := hk
      rw [Shape.inorder_node] at hnodup
      obtain ⟨hndl, hbr, hlr⟩ := List.nodup_append.mp hnodup
      obtain ⟨hbr, hndr⟩ := List.nodup_cons.mp hbr
      rw [descent] at hpath
      by_cases hless : less node b = true
      · rw [if_pos hless] at hpath
        cases front with
        | nil =>
            obtain ⟨rfl, hrest⟩ := List.cons.inj hpath
            have hal : a ∈ l.inorder := mem_of_mem_descent (by rw [hrest]; simp)
            have har : a ∉ r.inorder := fun har =>
              hlr a hal a (List.mem_cons_of_mem b har) rfl
            exact hsides hrest har hbr hli hri hlj hrj
        | cons c front => exact ihl hndl (List.cons.inj hpath).2 hli hlj
      · rw [if_neg hless] at hpath
        cases front with
        | nil =>
            obtain ⟨rfl, hrest⟩ := List.cons.inj hpath
            have har : a ∈ r.inorder := mem_of_mem_descent (by rw [hrest]; simp)
            have hal : a ∉ l.inorder := fun hal =>
              hlr a hal a (List.mem_cons_of_mem b har) rfl
            have hbl : b ∉ l.inorder := fun hbl => hlr b hbl b List.mem_cons_self rfl
            exact hsides hrest hal hbl hri hli hrj hlj
        | cons c front => exact ihr hndr (List.cons.inj hpath).2 hri hrj

/-- A tree stays one when its root is turned black. -/
theorem blackHeight_root (hpath : descent less node t = [a]) (hnodup : t.inorder.Nodup)
    (hh : BlackHeight color t h) (hnored : NoRedRed color t) (hblack : color' a = .black)
    (hsame : ∀ x, x ≠ a → color' x = color x) :
    NoRedRed color' t ∧ ∃ k, BlackHeight color' t k := by
  cases t with
  | nil => cases hpath
  | node l b r =>
      obtain ⟨rfl, -⟩ := List.cons.inj hpath
      obtain ⟨i, hl, hr, -⟩ := hh
      rw [Shape.inorder_node] at hnodup
      obtain ⟨-, hbr, hlr⟩ := List.nodup_append.mp hnodup
      have hsamel : ∀ x ∈ l.inorder, color' x = color x := fun x hx =>
        hsame x (hlr x hx b List.mem_cons_self)
      have hsamer : ∀ x ∈ r.inorder, color' x = color x := fun x hx =>
        hsame x fun heq => (List.nodup_cons.mp hbr).1 (heq ▸ hx)
      refine ⟨⟨fun hred => ?_, (noRedRed_congr hsamel).mpr hnored.2.1,
        (noRedRed_congr hsamer).mpr hnored.2.2⟩, i + 1, i, ?_, ?_, ?_⟩
      · rw [hblack] at hred
        cases hred
      · exact (blackHeight_congr hsamel).mpr hl
      · exact (blackHeight_congr hsamer).mpr hr
      · rw [if_pos hblack]

end Colors

/-! ## What is recoloured -/

/-- The memory that `rb_insert` leaves: the node is cleared, and the node the descent ended at,
if it was red, is turned black and the node above it red. -/
def recolored (m : Memory) (node a : ℕ) : Memory :=
  if (m.node a).color = .black then cleared m node
  else
    match (m.node a).parent with
    | none => (cleared m node).setColor a .black
    | some g => (((cleared m node).setColor a .black).setColor a .black).setColor g .red

theorem recolored_black (hblack : m.color a = .black) : recolored m node a = cleared m node :=
  if_pos hblack

theorem recolored_root (hblack : m.color a ≠ .black) (hparent : m.fields.parent a = none) :
    recolored m node a = (cleared m node).setColor a .black := by
  have hnone : (m.node a).parent = none := hparent
  refine (if_neg hblack).trans ?_
  rw [hnone]

theorem recolored_red (hblack : m.color a ≠ .black) (hparent : m.fields.parent a = some g) :
    recolored m node a =
      (((cleared m node).setColor a .black).setColor a .black).setColor g .red := by
  have hsome : (m.node a).parent = some g := hparent
  refine (if_neg hblack).trans ?_
  rw [hsome]

theorem cleared_node_of_ne (hne : a ≠ node) : (cleared m node).node a = m.node a := by
  simp [cleared, Memory.modify, hne]

/-- `rb_insert` recolours at the end of the descent. -/
theorem rbInsert_recolored (less : ℕ → ℕ → Bool) (ht : Links m.fields none m.root t)
    (hroot : m.root ≠ none) (hnode : node ∉ t.inorder)
    (hbudget : t.inorder.length < budget) :
    ∃ a, (descent less node t).getLast? = some a ∧
      rbInsert budget less m node = .ok (recolored m node a) := by
  have hne : descent less node t ≠ [] := fun hnil =>
    hroot (ht.eq_nil_iff.mp (descent_eq_nil.mp hnil))
  obtain ⟨a, hlast⟩ : ∃ a, (descent less node t).getLast? = some a :=
    ⟨_, List.getLast?_eq_some_getLast hne⟩
  refine ⟨a, hlast, ?_⟩
  have ha : a ∈ t.inorder := mem_of_mem_descent (List.mem_of_getLast? hlast)
  have hcleared := links_cleared ht hnode
  have hfield : (cleared m node).node a = m.node a := cleared_node_of_ne fun heq => hnode (heq ▸ ha)
  have hdescend : loop (descendPass less (cleared m node) node) budget (m.root, none) =
      .ok (some a) := by
    refine (descend_loop_eq hcleared hbudget).trans ?_
    rw [hlast]
    rfl
  obtain ⟨budget, rfl⟩ : ∃ k, budget = k + 2 := by
    have hpos := List.length_pos_of_mem ha
    exact ⟨budget - 2, by omega⟩
  rw [rbInsert_eq, if_neg hroot]
  refine (congrArg (· >>= _) hdescend).trans ?_
  show loop fixPass (budget + 2) { node := node, parent := some a, mem := cleared m node } = _
  rw [recolored]
  by_cases hblack : (m.node a).color = .black
  · have hpass : fixPass { node := node, parent := some a, mem := cleared m node } =
        .ok (.done (cleared m node)) := by
      simp [fixPass, hfield, hblack]
    rw [loop_done hpass, if_pos hblack]
  · have hred : (m.node a).color = .red := by
      cases hcolor : (m.node a).color with
      | red => rfl
      | black => exact absurd hcolor hblack
    rw [if_neg hblack]
    rcases hcleared.parent_cases ha with ⟨hnone, -⟩ | ⟨g, -, hparent, hchild⟩
    · have hparent : (m.node a).parent = none := hfield ▸ hnone
      have hpass : fixPass { node := node, parent := some a, mem := cleared m node } =
          .ok (.done ((cleared m node).setColor a .black)) := by
        simp [fixPass, hfield, hred, hparent]
      rw [loop_done hpass, hparent]
    · have hparent' : (m.node a).parent = some g := hfield ▸ hparent
      have hag : a ≠ g := by
        obtain ⟨par, s, hs⟩ := hcleared.subtree ha
        rintro rfl
        exact hchild.elim hs.left_ne hs.right_ne
      have hpass : fixPass { node := node, parent := some a, mem := cleared m node } =
          .ok (.next { node := g, parent := some a, mem :=
            (((cleared m node).setColor a .black).setColor a .black).setColor g .red }) := by
        simp [fixPass, hfield, hred, hparent', rbSibling_self hparent hchild, deref]
      have hpass' : ∀ m', (m'.node a).color = .black →
          fixPass { node := g, parent := some a, mem := m' } = .ok (.done m') := by
        intro m' hblack'
        simp [fixPass, hblack']
      rw [loop_next hpass, loop_done (hpass' _ ?_), hparent']
      rw [color_setColor_of_ne _ hag, color_setColor_self]

theorem fields_recolored : (recolored m node a).fields = (cleared m node).fields := by
  rw [recolored]
  split
  · rfl
  · split <;> simp

theorem root_recolored : (recolored m node a).root = m.root := by
  rw [recolored]
  split
  · rfl
  · split <;> rfl

theorem color_cleared (hnode : node ∉ t.inorder) : ∀ x ∈ t.inorder,
    (cleared m node).color x = m.color x := fun _ hx =>
  congrArg Node.color (cleared_node_of_ne fun heq => hnode (heq ▸ hx))

/-- The tree is recoloured to a red-black tree exactly if the descent ended at a black node or at
the root. -/
theorem isRbTree_recolored_iff (h : IsRbTree less m t) (hnode : node ∉ t.inorder)
    (hlast : (descent less node t).getLast? = some a) :
    IsRbTree less (recolored m node a) t ↔ m.color a = .black ∨ m.root = some a := by
  have hlinks : Links (recolored m node a).fields none (recolored m node a).root t := by
    rw [fields_recolored, root_recolored]
    exact links_cleared h.links hnode
  have hkeeps : (NoRedRed (recolored m node a).color t ∧
      ∃ k, BlackHeight (recolored m node a).color t k) → IsRbTree less (recolored m node a) t :=
    fun hcolors => ⟨hlinks, h.nodup, h.sorted, hcolors.1, hcolors.2⟩
  have ha : a ∈ t.inorder := mem_of_mem_descent (List.mem_of_getLast? hlast)
  have hcleared := color_cleared (m := m) hnode
  by_cases hblack : m.color a = .black
  · refine iff_of_true (hkeeps ?_) (Or.inl hblack)
    rw [recolored_black hblack]
    obtain ⟨k, hk⟩ := h.balanced
    exact ⟨(noRedRed_congr hcleared).mpr h.noRedRed, k, (blackHeight_congr hcleared).mpr hk⟩
  have hred : (cleared m node).color a = .red := by
    rw [hcleared a ha]
    cases hcolor : m.color a with
    | red => rfl
    | black => exact absurd hcolor hblack
  have hheight : ∃ k, BlackHeight (cleared m node).color t k := by
    obtain ⟨k, hk⟩ := h.balanced
    exact ⟨k, (blackHeight_congr hcleared).mpr hk⟩
  obtain ⟨k, hk⟩ := hheight
  rcases List.eq_nil_or_concat (descent less node t) with hnil | ⟨above, b, hpath⟩
  · rw [hnil] at hlast
    cases hlast
  rw [List.concat_eq_append] at hpath
  rw [hpath, List.getLast?_concat] at hlast
  obtain rfl := Option.some.inj hlast
  rcases List.eq_nil_or_concat above with rfl | ⟨front, g, rfl⟩
  · obtain ⟨hroot, hparent⟩ := root_of_descent h.links hpath
    refine iff_of_true (hkeeps ?_) (Or.inr hroot)
    rw [recolored_root hblack hparent]
    exact blackHeight_root hpath h.nodup hk ((noRedRed_congr hcleared).mpr h.noRedRed)
      (color_setColor_self _ b _) fun x hx => color_setColor_of_ne _ hx _
  · rw [List.concat_eq_append, List.append_assoc, List.singleton_append] at hpath
    obtain ⟨hparent, hchild⟩ := parent_of_descent h.links hpath
    have hbg : b ≠ g := by
      obtain ⟨par, s, hs⟩ := h.links.subtree ha
      rintro rfl
      exact hchild.elim hs.left_ne hs.right_ne
    refine iff_of_false (fun htree => ?_) ?_
    · obtain ⟨k', hk'⟩ := htree.balanced
      rw [recolored_red hblack hparent] at hk'
      refine not_blackHeight_of_descent h.nodup hpath hk hred ?_ (fun x hxb hxg => ?_) hk'
      · exact (color_setColor_of_ne _ hbg _).trans (color_setColor_self _ b _)
      · exact (color_setColor_of_ne _ hxg _).trans
          ((color_setColor_of_ne _ hxb _).trans (color_setColor_of_ne _ hxb _))
    · rintro (hb | hroot)
      · exact hblack hb
      · have hnone : m.fields.parent b = none := by
          have htop := h.links
          rw [hroot] at htop
          cases t with
          | nil => exact absurd htop (by simp [Links])
          | node l c r =>
              obtain ⟨hptr, hpar, -⟩ := htop
              obtain rfl := Option.some.inj hptr
              exact hpar
        rw [hparent] at hnone
        cases hnone

/-! ## Runs -/

/-- The tree of one node that points nowhere. -/
def Single (m : Memory) (a : ℕ) (color : Color) : Prop :=
  m.root = some a ∧ m.node a = { left := none, right := none, parent := none, color := color }

theorem Single.links {color : Color} (h : Single m a color) :
    Links m.fields none m.root (.node .nil a .nil) := by
  obtain ⟨hroot, hnode⟩ := h
  simp [Links, Memory.fields, hroot, hnode]

theorem Single.isRbTree {color : Color} (h : Single m a color) (less : ℕ → ℕ → Bool) :
    IsRbTree less m (.node .nil a .nil) where
  links := h.links
  nodup := List.nodup_singleton a
  sorted := List.pairwise_singleton _ a
  noRedRed := ⟨fun _ => ⟨trivial, trivial⟩, trivial, trivial⟩
  balanced := ⟨_, 0, rfl, rfl, rfl⟩

/-- An insert into the tree of one node turns the node black. -/
theorem rbInsert_single (less : ℕ → ℕ → Bool) {color : Color} (h : Single m a color)
    (hne : node ≠ a) (hbudget : 1 < budget) :
    ∃ m', rbInsert budget less m node = .ok m' ∧ Single m' a .black := by
  obtain ⟨b, hlast, hrun⟩ := rbInsert_recolored less h.links (by simp [h.1])
    (by simpa using hne) (by simpa using hbudget)
  obtain rfl : b = a := by
    have hb := mem_of_mem_descent (List.mem_of_getLast? hlast)
    simpa using hb
  refine ⟨_, hrun, root_recolored.trans h.1, ?_⟩
  have hkept : (cleared m node).node b = m.node b := cleared_node_of_ne (Ne.symm hne)
  cases color with
  | black => simp [recolored, h.2, hkept]
  | red => simp [recolored, h.2, hkept, Memory.setColor, Memory.modify]

/-- Inserts into the tree of one node leave that tree. -/
theorem rbInserts_single (less : ℕ → ℕ → Bool) {color : Color} (nodes : List ℕ)
    (h : Single m a color) (hout : a ∉ nodes) (hbudget : 1 < budget) :
    ∃ m', rbInserts budget less m nodes = .ok m' ∧
      Single m' a (if nodes = [] then color else .black) := by
  induction nodes generalizing m color with
  | nil => exact ⟨m, rfl, h⟩
  | cons b nodes ih =>
      obtain ⟨hne, hrest⟩ := not_or.mp (mt List.mem_cons.mpr hout)
      obtain ⟨m₁, hrun, h₁⟩ := rbInsert_single less h (Ne.symm hne) hbudget
      obtain ⟨m', hruns, h'⟩ := ih h₁ hrest
      refine ⟨m', ?_, ?_⟩
      · rw [rbInserts, List.foldlM_cons, hrun, Exec.ok_bind]
        exact hruns
      · simpa using h'

/-- Into a red-black tree that is not empty `rb_insert` links nothing, and the tree stays a
red-black tree exactly if the search for the place ended at a black node or at the root.  After
any inserts into the empty tree, the tree is the first node alone, red until the second insert
and black from then on. -/
theorem rbInsert_keeps_iff (less : ℕ → ℕ → Bool) :
    (∀ {m : Memory} {t : Shape ℕ} {node budget : ℕ}, IsRbTree less m t → t ≠ .nil →
      node ∉ t.inorder → t.inorder.length < budget →
      ∃ m' a, rbInsert budget less m node = .ok m' ∧
        (descent less node t).getLast? = some a ∧ Links m'.fields none m'.root t ∧
        (IsRbTree less m' t ↔ m.color a = .black ∨ m.root = some a)) ∧
    ∀ {m : Memory} {a : ℕ} {nodes : List ℕ} {budget : ℕ}, m.root = none → a ∉ nodes →
      1 < budget →
      ∃ m', rbInserts budget less m (a :: nodes) = .ok m' ∧
        IsRbTree less m' (.node .nil a .nil) ∧ (m'.color a = .red ↔ nodes = []) := by
  constructor
  · intro m t node budget h hne hnode hbudget
    obtain ⟨a, hlast, hrun⟩ := rbInsert_recolored less h.links
      (fun hroot => hne (h.links.eq_nil_iff.mpr hroot)) hnode hbudget
    refine ⟨_, a, hrun, hlast, ?_, isRbTree_recolored_iff h hnode hlast⟩
    rw [fields_recolored, root_recolored]
    exact links_cleared h.links hnode
  · intro m a nodes budget hroot hout hbudget
    obtain ⟨m₁, hrun, h₁⟩ : ∃ m₁, rbInsert budget less m a = .ok m₁ ∧ Single m₁ a .red :=
      rbInsert_empty budget less hroot
    obtain ⟨m', hruns, h'⟩ := rbInserts_single less nodes h₁ hout hbudget
    refine ⟨m', ?_, h'.isRbTree less, ?_⟩
    · rw [rbInserts, List.foldlM_cons, hrun, Exec.ok_bind]
      exact hruns
    · rw [Memory.color, h'.2]
      cases nodes <;> simp

/-- Into the tree of one node, and into the empty tree. -/
theorem rbInsert_keeps_iff_singleton :
    (∃ m' a, rbInsert 2 (fun a b => decide (a < b)) singleton 1 = .ok m' ∧
        (descent (fun a b => decide (a < b)) 1 (.node .nil 0 .nil)).getLast? = some a ∧
        Links m'.fields none m'.root (.node .nil 0 .nil) ∧
        (IsRbTree (fun a b => decide (a < b)) m' (.node .nil 0 .nil) ↔
          singleton.color a = .black ∨ singleton.root = some a)) ∧
      ∃ m', rbInserts 2 (fun a b => decide (a < b)) { singleton with root := none } [0, 1] =
          .ok m' ∧
        IsRbTree (fun a b => decide (a < b)) m' (.node .nil 0 .nil) ∧
        (m'.color 0 = .red ↔ [1] = []) :=
  ⟨(rbInsert_keeps_iff fun a b => decide (a < b)).1 (singleton_isRbTree _) nofun (by decide)
      (by decide),
    (rbInsert_keeps_iff fun a b => decide (a < b)).2 rfl (by decide) (by decide)⟩

end Hlibc.Rb
