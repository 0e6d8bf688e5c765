import Hlibc.Rbtree
import Hlibc.Support.TreePosition

/-!
# The order in which `rb_next` and `rb_prev` visit

The first node of a tree ends its left spine.  The node after a position is the first one of the
right subtree, or else the parent of the highest node that a climb along right links reaches.
Both loops follow the position of the node, and the other two functions do the same in the mirror
image.
-/

set_option autoImplicit false

namespace Hlibc.Rb

variable {near far : Node → Option ℕ} {m : Memory} {par ptr : Option ℕ} {t s l r : Shape ℕ}
  {a b budget : ℕ} {c : List (Frame ℕ)} {before after : List ℕ}

/-- The pointer fields, with `far` and `near` for the left and the right child. -/
def fieldsOf (far near : Node → Option ℕ) (m : Memory) : Fields ℕ where
  left := fun a => far (m.node a)
  right := fun a => near (m.node a)
  parent := fun a => (m.node a).parent

/-! ## The loops -/

/-- The descent ends at the first node of the subtree. -/
theorem spine_loop (h : Links (fieldsOf far near m) par (some a) s)
    (hbudget : s.inorder.length < budget) :
    ∃ first, loop (spinePass far m) budget a = .ok first ∧ s.inorder.head? = some first := by
  induction s generalizing par a budget with
  | nil => exact absurd h (by simp [Links])
  | node l b r ihl _ =>
      obtain ⟨heq, -, hl, -⟩ := h
      obtain rfl := Option.some.inj heq
      rw [Shape.inorder_node, List.length_append, List.length_cons] at hbudget
      obtain ⟨budget, rfl⟩ : ∃ k, budget = k + 1 := ⟨budget - 1, by omega⟩
      cases hchild : far (m.node a) with
      | none =>
          obtain rfl : l = .nil := hl.eq_nil_iff.mpr hchild
          have hpass : spinePass far m a = .ok (.done a) := by simp [spinePass, hchild]
          exact ⟨a, loop_done hpass budget, rfl⟩
      | some b =>
          have hpass : spinePass far m a = .ok (.next b) := by simp [spinePass, hchild]
          have hl' : Links (fieldsOf far near m) (some a) (some b) l := hchild ▸ hl
          obtain ⟨first, hrun, hfirst⟩ := ihl hl' (by omega : l.inorder.length < budget)
          refine ⟨first, (loop_next hpass budget).trans hrun, ?_⟩
          rw [Shape.inorder_node, List.head?_append, hfirst]
          rfl

/-- The climb ends at a node whose parent stands next after the position. -/
theorem climb_loop (h : Links (fieldsOf far near m) none m.root ((Shape.node l a r).plug c))
    (hnodup : ((Shape.node l a r).plug c).inorder.Nodup) (hbudget : c.length < budget) :
    ∃ top, loop (climbPass near m) budget a = .ok top ∧
      (m.node top).parent = (Shape.after c).head? := by
  induction c generalizing l a r budget with
  | nil =>
      obtain ⟨-, hparent, -⟩ := h
      obtain ⟨budget, rfl⟩ : ∃ k, budget = k + 1 := ⟨budget - 1, by omega⟩
      have hparent' : (m.node a).parent = none := hparent
      have hpass : climbPass near m a = .ok (.done a) := by simp [climbPass, hparent']
      exact ⟨a, loop_done hpass budget, hparent'⟩
  | cons fr c ih =>
      rw [List.length_cons] at hbudget
      obtain ⟨budget, rfl⟩ : ∃ k, budget = k + 1 := ⟨budget - 1, by omega⟩
      cases fr with
      | left p r' =>
          have habove : Links (fieldsOf far near m) none m.root
              ((Shape.node (.node l a r) p r').plug c) := h
          obtain ⟨par, ptr, -, -, ⟨-, hparent, -⟩, hr'⟩ := habove.of_plug
          have hparent' : (m.node a).parent = some p := hparent
          have hnear : near (m.node p) ≠ some a := by
            intro hnear
            have hright : Links (fieldsOf far near m) (some p) (near (m.node p)) r' := hr'
            rw [hnear] at hright
            have hmem : a ∈ r'.inorder := hright.mem
            change ((Shape.node (.node l a r) p r').plug c).inorder.Nodup at hnodup
            rw [Shape.inorder_plug] at hnodup
            have hnode := (List.nodup_append.mp (List.nodup_append.mp hnodup).2.1).1
            rw [Shape.inorder_node] at hnode
            obtain ⟨-, -, hdisj⟩ := List.nodup_append.mp hnode
            exact hdisj a (by simp) a (List.mem_cons_of_mem p hmem) rfl
          have hpass : climbPass near m a = .ok (.done a) := by
            simp [climbPass, hparent', hnear]
          exact ⟨a, loop_done hpass budget, hparent'⟩
      | right l' p =>
          have habove : Links (fieldsOf far near m) none m.root
              ((Shape.node l' p (.node l a r)).plug c) := h
          obtain ⟨par, ptr, -, -, -, hnear, hparent, -⟩ := habove.of_plug
          have hparent' : (m.node a).parent = some p := hparent
          have hnear' : near (m.node p) = some a := hnear
          have hpass : climbPass near m a = .ok (.next p) := by
            simp [climbPass, hparent', hnear']
          obtain ⟨top, hrun, htop⟩ := ih habove hnodup (by omega : c.length < budget)
          exact ⟨top, (loop_next hpass budget).trans hrun, htop⟩

/-! ## The functions -/

theorem rbEnd_eq (h : Links (fieldsOf far near m) none m.root t)
    (hbudget : t.inorder.length < budget) : rbEnd far budget m = .ok t.inorder.head? := by
  cases hroot : m.root with
  | none =>
      rw [hroot] at h
      obtain rfl := h.eq_nil_iff.mpr rfl
      simp [rbEnd, hroot]
  | some a =>
      rw [hroot] at h
      obtain ⟨first, hrun, hfirst⟩ := spine_loop h hbudget
      simp [rbEnd, hroot, hrun, hfirst]

/-- The neighbour of a node is the next one in the tree. -/
theorem rbStep_eq (h : Links (fieldsOf far near m) none m.root t) (hnodup : t.inorder.Nodup)
    (hbudget : t.inorder.length < budget) (hsplit : t.inorder = before ++ a :: after) :
    rbStep near far budget m (some a) = .ok after.head? := by
  obtain ⟨c, l, r, rfl⟩ : ∃ c l r, t = (Shape.node l a r).plug c :=
    Shape.exists_plug (by simp [hsplit])
  have hafter : after = r.inorder ++ Shape.after c := by
    have hsplit' : before ++ a :: after =
        (Shape.before c ++ l.inorder) ++ a :: (r.inorder ++ Shape.after c) := by
      rw [← hsplit, Shape.inorder_plug]
      simp
    rw [hsplit] at hnodup
    obtain ⟨-, hnodup', hdisj⟩ := List.nodup_append.mp hnodup
    have hbefore : a ∉ before := fun hmem => hdisj a hmem a List.mem_cons_self rfl
    have hbehind : a ∉ after := (List.nodup_cons.mp hnodup').1
    exact ((List.append_cons_inj_of_notMem hbefore hbehind).mp hsplit').2.2
  obtain ⟨par, ptr, -, -, -, hr⟩ := h.of_plug
  have hlength : c.length + (Shape.node l a r).inorder.length ≤
      ((Shape.node l a r).plug c).inorder.length := Shape.length_add_le
  rw [Shape.inorder_node, List.length_append, List.length_cons] at hlength
  rw [hafter, List.head?_append]
  cases hnear : near (m.node a) with
  | none =>
      obtain rfl : r = .nil := hr.eq_nil_iff.mpr hnear
      obtain ⟨top, hrun, htop⟩ := climb_loop h hnodup (by omega : c.length < budget)
      simp [rbStep, hnear, hrun, htop]
  | some b =>
      have hr' : Links (fieldsOf far near m) (some a) (some b) r := hnear ▸ hr
      obtain ⟨first, hrun, hfirst⟩ := spine_loop hr' (by omega : r.inorder.length < budget)
      simp [rbStep, hnear, hrun, hfirst]

/-! ## Visits -/

/-- One step of a visit: the pointer moves on, and its node joins those seen. -/
def visitPass (step : Option ℕ → Exec (Option ℕ)) (st : Option ℕ × List ℕ) :
    Exec (Pass (Option ℕ × List ℕ) (List ℕ)) :=
  match st.1 with
  | none => .ok (.done st.2)
  | some a => do
      let next ← step (some a)
      .ok (.next (next, st.2 ++ [a]))

/-- The nodes from `start` to the null pointer. -/
def visit (step : Option ℕ → Exec (Option ℕ)) (budget : ℕ) (start : Option ℕ) :
    Exec (List ℕ) :=
  loop (visitPass step) budget (start, [])

/-- A step that leads from each node of a sequence to the next one visits the sequence. -/
theorem visit_eq {step : Option ℕ → Exec (Option ℕ)} {order : List ℕ}
    (hstep : ∀ before a after, order = before ++ a :: after → step (some a) = .ok after.head?)
    (hbudget : order.length < budget) : visit step budget order.head? = .ok order := by
  have hpass : ∀ st : Option ℕ × List ℕ,
      (∃ rest, st.2 ++ rest = order ∧ st.1 = rest.head?) →
        (∃ seen, visitPass step st = .ok (.done seen) ∧ seen = order) ∨
          ∃ st', visitPass step st = .ok (.next st') ∧
            (∃ rest, st'.2 ++ rest = order ∧ st'.1 = rest.head?) ∧
            order.length - st'.2.length < order.length - st.2.length := by
    rintro ⟨ptr, seen⟩ ⟨rest, hsplit, hptr⟩
    cases rest with
    | nil =>
        left
        refine ⟨seen, ?_, by simpa using hsplit⟩
        have hptr' : ptr = none := hptr
        simp [visitPass, hptr']
    | cons a rest =>
        right
        refine ⟨(rest.head?, seen ++ [a]), ?_, ⟨rest, by simpa using hsplit, rfl⟩, ?_⟩
        · have hptr' : ptr = some a := hptr
          simp [visitPass, hptr', hstep seen a rest hsplit.symm]
        · rw [← hsplit]
          simp only [List.length_append, List.length_cons, List.length_nil]
          omega
  obtain ⟨seen, hrun, rfl⟩ := loop_total (fun st : Option ℕ × List ℕ =>
    order.length - st.2.length) hpass budget (order.head?, []) ⟨order, rfl, rfl⟩ (by simpa)
  exact hrun

/-- From the first node on, `rb_next` visits the nodes in order, and from the last one on,
`rb_prev` visits them in the opposite order; on every node both return, and `rb_prev` undoes
`rb_next`. -/
theorem rbNext_visits_inorder (m : Memory) (t : Shape ℕ) (budget : ℕ)
    (h : Links m.fields none m.root t) (hnodup : t.inorder.Nodup)
    (hbudget : t.inorder.length < budget) :
    (rbFirst budget m >>= visit (rbNext budget m) budget) = .ok t.inorder ∧
      (rbLast budget m >>= visit (rbPrev budget m) budget) = .ok t.inorder.reverse ∧
      ∀ x ∈ t.inorder, ∃ next prev, rbNext budget m (some x) = .ok next ∧
        rbPrev budget m (some x) = .ok prev ∧
        ∀ y, next = some y → rbPrev budget m (some y) = .ok (some x) := by
  have hreverse : t.mirror.inorder = t.inorder.reverse := t.inorder_mirror
  have hlinks : Links (fieldsOf Node.left Node.right m) none m.root t := h
  have hmirror : Links (fieldsOf Node.right Node.left m) none m.root t.mirror := h.mirror
  have hnodup' : t.mirror.inorder.Nodup := by
    rw [hreverse]
    exact List.nodup_reverse.mpr hnodup
  have hbudget' : t.mirror.inorder.length < budget := by
    rwa [hreverse, List.length_reverse]
  have hnext : ∀ before a after, t.inorder = before ++ a :: after →
      rbNext budget m (some a) = .ok after.head? :=
    fun before a after => rbStep_eq hlinks hnodup hbudget
  have hprev : ∀ before a after, t.mirror.inorder = before ++ a :: after →
      rbPrev budget m (some a) = .ok after.head? :=
    fun before a after => rbStep_eq hmirror hnodup' hbudget'
  have hprev' : ∀ before a after, t.inorder = before ++ a :: after →
      rbPrev budget m (some a) = .ok before.getLast? := by
    intro before a after hsplit
    rw [← List.head?_reverse]
    apply hprev after.reverse a
    rw [hreverse, hsplit]
    simp
  refine ⟨?_, ?_, ?_⟩
  · rw [rbFirst, rbEnd_eq hlinks hbudget, Exec.ok_bind]
    exact visit_eq hnext hbudget
  · rw [rbLast, rbEnd_eq hmirror hbudget', Exec.ok_bind, ← hreverse]
    exact visit_eq hprev hbudget'
  · intro x hx
    obtain ⟨before, after, hsplit⟩ := List.append_of_mem hx
    refine ⟨_, _, hnext before x after hsplit, hprev' before x after hsplit, ?_⟩
    intro y hy
    cases after with
    | nil => cases hy
    | cons b after =>
        cases hy
        rw [hprev' (before ++ [x]) y after (by simp [hsplit]), List.getLast?_concat]

/-- The nodes 0 and 2 below the node 1. -/
def three : Memory where
  root := some 1
  node a :=
    if a = 1 then { left := some 0, right := some 2, parent := none, color := .black }
    else { left := none, right := none, parent := some 1, color := .red }

theorem three_links :
    Links three.fields none three.root (.node (.node .nil 0 .nil) 1 (.node .nil 2 .nil)) := by
  simp [Links, three, Memory.fields]

/-- In a tree of three nodes. -/
theorem rbNext_visits_inorder_three :
    (rbFirst 4 three >>= visit (rbNext 4 three) 4) = .ok [0, 1, 2] :=
  (rbNext_visits_inorder three _ 4 three_links (by decide) (by decide)).1

end Hlibc.Rb
