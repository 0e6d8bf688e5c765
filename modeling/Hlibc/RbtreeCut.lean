import Hlibc.RbtreeRotate

/-!
# What a rotation cuts off, and the way back

`rb_rotate` leaves the pointer that led to `root` as it is, so what this pointer leads to loses
`pivot` and the subtree on its outer side.  Only `pivot` leads to all of the subtree.  The
rotation with the two nodes exchanged writes every member back.
-/

set_option autoImplicit false

namespace Hlibc.Rb

variable {m m' : Memory} {f f' f'' : Fields ℕ} {par : Option ℕ} {t s : Shape ℕ}
  {a root pivot : ℕ} {calls : List (ℕ × ℕ)}

/-! ## The way back -/

theorem Memory.eq_of_fields (hroot : m.root = m'.root) (hfields : m.fields = m'.fields)
    (hcolor : ∀ a, (m.node a).color = (m'.node a).color) : m = m' := by
  have hnode : m.node = m'.node := by
    funext a
    have hleft := congrFun (congrArg Fields.left hfields) a
    have hright := congrFun (congrArg Fields.right hfields) a
    have hparent := congrFun (congrArg Fields.parent hfields) a
    have hsame := hcolor a
    simp only [Memory.fields] at hleft hright hparent
    cases hnd : m.node a
    cases hnd' : m'.node a
    simp only [hnd, hnd'] at hleft hright hparent hsame
    rw [hleft, hright, hparent, hsame]
  cases m
  cases m'
  simp only at hroot hnode
  rw [hroot, hnode]

theorem rbRotate_root : (rbRotate m root pivot).root = m.root := by
  rw [rbRotate]
  split <;> rfl

theorem modify_color {b : ℕ} {change : Node → Node} (h : ∀ nd, (change nd).color = nd.color) :
    ((m.modify b change).node a).color = (m.node a).color := by
  by_cases hab : a = b
  · subst hab
    simp [Memory.modify, h]
  · simp [Memory.modify, hab]

theorem rbRotate_color : ((rbRotate m root pivot).node a).color = (m.node a).color := by
  have hset : ∀ (m : Memory) (b : ℕ) (ptr : Option ℕ),
      ((m.setLeft b ptr).node a).color = (m.node a).color ∧
        ((m.setRight b ptr).node a).color = (m.node a).color ∧
        ((m.setParent b ptr).node a).color = (m.node a).color := fun m b ptr =>
    ⟨modify_color fun _ => rfl, modify_color fun _ => rfl, modify_color fun _ => rfl⟩
  rw [rbRotate]
  split <;> simp only [hset]

/-- A second rotation on the other side, with the nodes exchanged, restores the pointers. -/
theorem Turns.back (hturn : Turns f f' root pivot) (hback : Turns f'.mirror f''.mirror pivot root)
    (hleft : f.left root = some pivot) (hparent : f.parent pivot = some root) : f'' = f := by
  have hall : ∀ a, f''.left a = f.left a ∧ f''.right a = f.right a ∧
      f''.parent a = f.parent a := by
    intro a
    by_cases hroot : a = root
    · subst hroot
      exact ⟨hback.rightPivot.trans hleft.symm, hback.leftPivot.trans hturn.rightRoot,
        hback.parentPivot.trans hturn.parentPivot⟩
    · by_cases hpivot : a = pivot
      · subst hpivot
        exact ⟨hback.rightRoot.trans hturn.leftPivot, hback.leftRoot.trans hturn.leftRoot,
          hback.parentRoot.trans hparent.symm⟩
      · obtain ⟨hright', hleft', hparent'⟩ := hback.other a hpivot hroot
        obtain ⟨hleft, hright, hparent⟩ := hturn.other a hroot hpivot
        exact ⟨hleft'.trans hleft, hright'.trans hright, hparent'.trans hparent⟩
  cases f
  cases f''
  simp only [Fields.mk.injEq]
  exact ⟨funext fun a => (hall a).1, funext fun a => (hall a).2.1, funext fun a => (hall a).2.2⟩

/-- The nodes are linked as a rotation takes them to be: `pivot` is a child of `root` and knows
it, and `root` is no child of `pivot`. -/
structure Turnable (m : Memory) (root pivot : ℕ) : Prop where
  ne : root ≠ pivot
  parent : (m.node pivot).parent = some root
  child : ((m.node root).left = some pivot ∧ (m.node pivot).left ≠ some root) ∨
    ((m.node root).left ≠ some pivot ∧ (m.node root).right = some pivot)

/-- The rotation with the nodes exchanged undoes a rotation. -/
theorem rbRotate_back (h : Turnable m root pivot) :
    rbRotate (rbRotate m root pivot) pivot root = m := by
  obtain ⟨hne, hparent, ⟨hleft, hback⟩ | ⟨hleft, hright⟩⟩ := h
  · have hturn := rbRotate_turns hne hleft
    have hside : ((rbRotate m root pivot).node pivot).left ≠ some root := by
      have hkept : ((rbRotate m root pivot).node pivot).left = (m.node pivot).left :=
        hturn.leftPivot
      rwa [hkept]
    refine Memory.eq_of_fields (rbRotate_root.trans rbRotate_root) ?_ fun a =>
      rbRotate_color.trans rbRotate_color
    exact hturn.back (rbRotate_turns_mirror hne.symm hside) hleft hparent
  · have hturn := rbRotate_turns_mirror hne hleft
    have hside : ((rbRotate m root pivot).node pivot).left = some root := hturn.rightPivot
    refine Memory.eq_of_fields (rbRotate_root.trans rbRotate_root) ?_ fun a =>
      rbRotate_color.trans rbRotate_color
    have hmirror : (rbRotate (rbRotate m root pivot) pivot root).fields.mirror = m.fields.mirror :=
      hturn.back (rbRotate_turns hne.symm hside) hright hparent
    exact congrArg Fields.mirror hmirror

/-- Rotations in a row, each at a node and a child of it. -/
def rbRotates (m : Memory) (calls : List (ℕ × ℕ)) : Memory :=
  calls.foldl (fun m call => rbRotate m call.1 call.2) m

/-- Every rotation finds its nodes linked. -/
def Turnables : Memory → List (ℕ × ℕ) → Prop
  | _, [] => True
  | m, call :: calls => Turnable m call.1 call.2 ∧ Turnables (rbRotate m call.1 call.2) calls

/-- The rotations with their nodes exchanged, the last one first. -/
def backwards (calls : List (ℕ × ℕ)) : List (ℕ × ℕ) := (calls.map Prod.swap).reverse

theorem rbRotates_backwards (h : Turnables m calls) :
    rbRotates (rbRotates m calls) (backwards calls) = m := by
  induction calls generalizing m with
  | nil => rfl
  | cons call calls ih =>
      obtain ⟨hfirst, hrest⟩ := h
      have hsplit : backwards (call :: calls) = backwards calls ++ [call.swap] := by
        rw [backwards, List.map_cons, List.reverse_cons]
        rfl
      have hundone := ih hrest
      have hlast : rbRotates (rbRotates m (call :: calls)) (backwards calls ++ [call.swap]) =
          rbRotates (rbRotates (rbRotates (rbRotate m call.1 call.2) calls) (backwards calls))
            [call.swap] := List.foldl_append ..
      rw [hsplit, hlast, hundone]
      exact rbRotate_back hfirst

/-! ## The cut -/

/-- The subtree of `pivot` that a rotation does not hand over. -/
def outer (m : Memory) (root pivot : ℕ) : Option ℕ :=
  if (m.node root).left = some pivot then (m.node pivot).left else (m.node pivot).right

/-- `pivot` and the nodes `others` of its outer subtree, in order. -/
def cutOff (m : Memory) (root pivot : ℕ) (others : List ℕ) : List ℕ :=
  if (m.node root).left = some pivot then others ++ [pivot] else pivot :: others

/-- A rotation takes `pivot` and its outer subtree from what leads to `root`; what leads to
`pivot` leads to all of the subtree, in the same order. -/
structure Cuts (m m' : Memory) (t : Shape ℕ) (root pivot : ℕ) : Prop where
  tree : ∃ t' o before after, Children m'.fields m.root t' ∧
    Children m.fields (outer m root pivot) o ∧ t'.inorder = before ++ after ∧
    t.inorder = before ++ (cutOff m root pivot o.inorder ++ after)
  subtree : ∃ s s', Children m.fields (some root) s ∧ Children m'.fields (some pivot) s' ∧
    s'.inorder = s.inorder

/-- In a tree a node and a child of it are linked. -/
theorem turnable_of_links {l r : Shape ℕ} (h : Links m.fields par (some root) (.node l root r))
    (hnodup : (Shape.node l root r).inorder.Nodup)
    (hpivot : (m.node root).left = some pivot ∨ (m.node root).right = some pivot) :
    Turnable m root pivot := by
  obtain ⟨-, -, hl, hr⟩ := h
  obtain ⟨-, hcons, hdisj⟩ := List.nodup_append.mp hnodup
  have hrootl : root ∉ l.inorder := fun hmem => hdisj root hmem root List.mem_cons_self rfl
  have hrootr : root ∉ r.inorder := (List.nodup_cons.mp hcons).1
  by_cases hleft : (m.node root).left = some pivot
  · have hl' : Links m.fields (some root) (m.node root).left l := hl
    rw [hleft] at hl'
    refine ⟨fun heq => hrootl (heq ▸ hl'.mem), hl'.parent_eq, Or.inl ⟨hleft, fun hback => ?_⟩⟩
    cases l with
    | nil => exact absurd hl' (by simp [Links])
    | node ll b lr =>
        obtain ⟨hptr, -, hll, -⟩ := hl'
        obtain rfl := Option.some.inj hptr
        have hll' : Links m.fields (some pivot) (m.node pivot).left ll := hll
        rw [hback] at hll'
        exact hrootl (Shape.mem_node.mpr (Or.inl hll'.mem))
  · have hright := hpivot.resolve_left hleft
    have hr' : Links m.fields (some root) (m.node root).right r := hr
    rw [hright] at hr'
    exact ⟨fun heq => hrootr (heq ▸ hr'.mem), hr'.parent_eq, Or.inr ⟨hleft, hright⟩⟩

/-- What leads to `pivot` has its outer subtree on one side and what leads to `root` on the
other. -/
theorem Turns.exists_cut (hturn : Turns f f' root pivot) (h : Children f' (some pivot) s)
    (hnodup : s.inorder.Nodup) :
    ∃ o x, Children f (f.left pivot) o ∧ Children f' (some root) x ∧
      s.inorder = o.inorder ++ pivot :: x.inorder := by
  cases s with
  | nil => exact absurd h (by simp [Children])
  | node o b x =>
      obtain ⟨hptr, ho, hx⟩ := h
      obtain rfl := Option.some.inj hptr
      rw [hturn.leftPivot] at ho
      rw [hturn.rightPivot] at hx
      obtain ⟨-, -, hdisj⟩ := List.nodup_append.mp hnodup
      refine ⟨o, x, ho.congr fun c hc => ?_, hx, rfl⟩
      have hroot : c ≠ root := fun heq =>
        hdisj c hc root (List.mem_cons_of_mem pivot hx.mem) heq
      have hpivot : c ≠ pivot := fun heq => hdisj c hc pivot List.mem_cons_self heq
      obtain ⟨hleft, hright, -⟩ := hturn.other c hroot hpivot
      exact ⟨hleft.symm, hright.symm⟩

/-- On either side a rotation cuts the pivot and its outer subtree off. -/
theorem rbRotate_cut (h : Turnable m root pivot)
    (hs : Children (rbRotate m root pivot).fields (some pivot) s) (hnodup : s.inorder.Nodup) :
    ∃ o x, Children m.fields (outer m root pivot) o ∧
      Children (rbRotate m root pivot).fields (some root) x ∧
      (s.inorder = cutOff m root pivot o.inorder ++ x.inorder ∨
        s.inorder = x.inorder ++ cutOff m root pivot o.inorder) := by
  by_cases hleft : (m.node root).left = some pivot
  · obtain ⟨o, x, ho, hx, horder⟩ := (rbRotate_turns h.ne hleft).exists_cut hs hnodup
    rw [outer, if_pos hleft]
    refine ⟨o, x, ho, hx, Or.inl ?_⟩
    rw [cutOff, if_pos hleft, horder, List.append_assoc]
    rfl
  · have hnodup' : s.mirror.inorder.Nodup := by
      rw [Shape.inorder_mirror]
      exact List.nodup_reverse.mpr hnodup
    obtain ⟨o, x, ho, hx, horder⟩ :=
      (rbRotate_turns_mirror h.ne hleft).exists_cut hs.mirror hnodup'
    rw [outer, if_neg hleft]
    refine ⟨o.mirror, x.mirror, ho.mirror, hx.mirror, Or.inr ?_⟩
    rw [cutOff, if_neg hleft, Shape.inorder_mirror, Shape.inorder_mirror,
      ← List.reverse_reverse s.inorder, ← Shape.inorder_mirror, horder]
    simp

theorem rbRotate_cuts (h : Links m.fields none m.root t) (hnodup : t.inorder.Nodup)
    (hroot : root ∈ t.inorder)
    (hpivot : (m.node root).left = some pivot ∨ (m.node root).right = some pivot) :
    Turnable m root pivot ∧ Cuts m (rbRotate m root pivot) t root pivot := by
  obtain ⟨c, l, r, rfl⟩ := Shape.exists_plug hroot
  have hsplit : ((Shape.node l root r).plug c).inorder =
      Shape.before c ++ ((Shape.node l root r).inorder ++ Shape.after c) := Shape.inorder_plug
  obtain ⟨-, hrest, hbefore⟩ := List.nodup_append.mp (hsplit ▸ hnodup)
  obtain ⟨hsub, -, hafter⟩ := List.nodup_append.mp hrest
  obtain ⟨par, ptr, hs⟩ := h.of_plug
  obtain ⟨rfl, -⟩ := id hs
  have hturnable := turnable_of_links hs hsub hpivot
  obtain ⟨s', hs', horder, -⟩ := rbRotate_children hs hsub hturnable.ne hpivot
  obtain ⟨o, x, ho, hx, hcut⟩ := rbRotate_cut hturnable hs' (by rwa [horder])
  have hmem : ∀ b, b = root ∨ b = pivot → b ∈ (Shape.node l root r).inorder := by
    rintro b (rfl | rfl)
    · simp
    · rw [← horder]
      exact hs'.mem
  have hout : ∀ b, b ∈ Shape.before c ∨ b ∈ Shape.after c → b ≠ root ∧ b ≠ pivot := by
    intro b hb
    have hnot : b ∉ (Shape.node l root r).inorder := fun hin => hb.elim
      (fun hb => hbefore b hb b (List.mem_append_left _ hin) rfl) fun hb => hafter b hin b hb rfl
    exact ⟨fun heq => hnot (hmem b (Or.inl heq)), fun heq => hnot (hmem b (Or.inr heq))⟩
  have htree : Children (rbRotate m root pivot).fields m.root (x.plug c) := by
    refine h.children.exchange (fun b hb => ?_) fun p hp => ?_
    · obtain ⟨hbroot, hbpivot⟩ := hout b hb
      simp [Memory.fields, rbRotate_node_of_ne hbroot hbpivot]
    · obtain ⟨rfl, -⟩ := hp
      exact hx
  refine ⟨hturnable, ⟨x.plug c, o, ?_⟩, _, s', hs.children, hs', horder⟩
  rw [hsplit, Shape.inorder_plug, ← horder]
  rcases hcut with hcut | hcut
  · exact ⟨_, _, htree, ho, rfl, by rw [hcut, List.append_assoc]⟩
  · refine ⟨Shape.before c ++ x.inorder, Shape.after c, htree, ho, ?_, ?_⟩
    · rw [List.append_assoc]
    · rw [hcut, List.append_assoc, List.append_assoc]

/-- In every tree, the rotation at a node with a child `pivot` takes exactly `pivot` and its
outer subtree from what `tree->root` leads to, and from `pivot` the whole subtree is reached in
the same order.  Every run of rotations at linked nodes is undone by the rotations with their
nodes exchanged, the last one first. -/
theorem rbRotate_cuts_back (m : Memory) :
    (∀ (t : Shape ℕ) (root pivot : ℕ), Links m.fields none m.root t → t.inorder.Nodup →
      root ∈ t.inorder → (m.node root).left = some pivot ∨ (m.node root).right = some pivot →
        Turnable m root pivot ∧ Cuts m (rbRotate m root pivot) t root pivot) ∧
      ∀ calls, Turnables m calls → rbRotates (rbRotates m calls) (backwards calls) = m :=
  ⟨fun _ _ _ h hnodup hroot hpivot => rbRotate_cuts h hnodup hroot hpivot,
    fun _ => rbRotates_backwards⟩

/-- The node 1 and its left child 0, which has a right child. -/
theorem rbRotate_cuts_back_leaning :
    Cuts (leaning true) (rbRotate (leaning true) 1 0)
        (.node (.node .nil 0 (.node .nil 2 .nil)) 1 .nil) 1 0 ∧
      rbRotates (rbRotates (leaning true) [(1, 0)]) [(0, 1)] = leaning true := by
  obtain ⟨hcuts, hback⟩ := rbRotate_cuts_back (leaning true)
  obtain ⟨hturnable, hcut⟩ := hcuts _ 1 0 (leaning_links true) (by decide) (by decide) (Or.inl rfl)
  exact ⟨hcut, hback [(1, 0)] ⟨hturnable, trivial⟩⟩

end Hlibc.Rb
