import Mathlib.Logic.Function.Basic
import Mathlib.Tactic.Common

/-!
# Lists that hang from slots

A singly linked list in which every node also knows the slot that leads to it:
the root of its list, or the `next` of the node before.  Lists are cut at a
slot, and a node enters or leaves at the cut.
-/

set_option autoImplicit false

namespace Hlibc.SlotList

/-- A place that holds a pointer to a node. -/
inductive Slot (η ν : Type*) where
  | first (head : η)
  | next (node : ν)
  deriving DecidableEq

theorem Slot.first_ne_next {η ν : Type*} (r : η) (a : ν) : (first r : Slot η ν) ≠ next a :=
  nofun

variable {η ν : Type*} {load load' : Slot η ν → Option ν} {back back' : ν → Option (Slot η ν)}
  {s : Slot η ν} {a node : ν} {l l₁ l₂ : List ν}

/-- The slot behind the last node of a stretch that begins at `s`. -/
def endSlot (s : Slot η ν) : List ν → Slot η ν
  | [] => s
  | a :: l => endSlot (.next a) l

/-- The pointers of a stretch lead from `s` through its nodes, and every node
leads back to the slot that holds it. -/
def Stretch (load : Slot η ν → Option ν) (back : ν → Option (Slot η ν)) (s : Slot η ν) :
    List ν → Prop
  | [] => True
  | a :: l => load s = some a ∧ back a = some s ∧ Stretch load back (.next a) l

/-- The list from `s` on, up to a null pointer. -/
def Path (load : Slot η ν → Option ν) (back : ν → Option (Slot η ν)) (s : Slot η ν)
    (l : List ν) : Prop :=
  Stretch load back s l ∧ load (endSlot s l) = none

theorem endSlot_append : endSlot s (l₁ ++ l₂) = endSlot (endSlot s l₁) l₂ := by
  induction l₁ generalizing s with
  | nil => rfl
  | cons a l₁ ih => exact ih

/-- The end of a stretch is its beginning, or belongs to one of its nodes. -/
theorem endSlot_cases (s : Slot η ν) (l : List ν) :
    endSlot s l = s ∨ ∃ a ∈ l, endSlot s l = .next a := by
  induction l generalizing s with
  | nil => exact Or.inl rfl
  | cons a l ih =>
      rcases ih (.next a) with heq | ⟨b, hb, heq⟩
      · exact Or.inr ⟨a, List.mem_cons_self, heq⟩
      · exact Or.inr ⟨b, List.mem_cons_of_mem a hb, heq⟩

/-- A slot of a node outside a stretch is not where the stretch ends. -/
theorem next_ne_endSlot (r : η) (ha : a ∉ l) : Slot.next a ≠ endSlot (.first r) l := by
  rcases endSlot_cases (.first r) l with heq | ⟨b, hb, heq⟩
  · rw [heq]
    exact (Slot.first_ne_next r a).symm
  · rw [heq]
    exact fun heq => ha (Slot.next.inj heq ▸ hb)

theorem stretch_append : Stretch load back s (l₁ ++ l₂) ↔
    Stretch load back s l₁ ∧ Stretch load back (endSlot s l₁) l₂ := by
  induction l₁ generalizing s with
  | nil => exact (iff_of_eq (true_and _)).symm
  | cons a l₁ ih => simp only [List.cons_append, Stretch, endSlot, ih, and_assoc]

theorem path_append : Path load back s (l₁ ++ l₂) ↔
    Stretch load back s l₁ ∧ Path load back (endSlot s l₁) l₂ := by
  rw [Path, stretch_append, endSlot_append, and_assoc, Path]

theorem path_cons : Path load back s (a :: l) ↔
    load s = some a ∧ back a = some s ∧ Path load back (.next a) l := by
  simp only [Path, Stretch, endSlot, and_assoc]

theorem path_nil : Path load back s [] ↔ load s = none :=
  iff_of_eq (true_and _)

theorem Path.load_eq (h : Path load back s l) : load s = l.head? := by
  cases l with
  | nil => exact h.2
  | cons a l => exact h.1.1

/-- The slots of a stretch: where it begins, and those of its nodes. -/
def IsSlot (s : Slot η ν) (l : List ν) (t : Slot η ν) : Prop :=
  t = s ∨ ∃ a ∈ l, t = .next a

/-- A stretch reads no slot behind its last node. -/
theorem Stretch.congr (h : Stretch load back s l) (hnodup : l.Nodup)
    (hs : ∀ a ∈ l, s ≠ .next a)
    (hload : ∀ t, IsSlot s l t → t ≠ endSlot s l → load' t = load t)
    (hback : ∀ a ∈ l, back' a = back a) : Stretch load' back' s l := by
  induction l generalizing s with
  | nil => trivial
  | cons a l ih =>
      obtain ⟨hsa, ha, hrest⟩ := h
      obtain ⟨hal, hl⟩ := List.nodup_cons.mp hnodup
      have hne : s ≠ endSlot (.next a) l := by
        rcases endSlot_cases (.next a) l with heq | ⟨b, hb, heq⟩
        · rw [heq]
          exact hs a List.mem_cons_self
        · rw [heq]
          exact hs b (List.mem_cons_of_mem a hb)
      refine ⟨(hload s (Or.inl rfl) hne).trans hsa, (hback a List.mem_cons_self).trans ha,
        ih hrest hl ?_ ?_ ?_⟩
      · rintro b hb heq
        obtain rfl := Slot.next.inj heq
        exact hal hb
      · rintro t (rfl | ⟨b, hb, rfl⟩) hend
        · exact hload _ (Or.inr ⟨a, List.mem_cons_self, rfl⟩) hend
        · exact hload _ (Or.inr ⟨b, List.mem_cons_of_mem a hb, rfl⟩) hend
      · exact fun b hb => hback b (List.mem_cons_of_mem a hb)

theorem Path.congr (h : Path load back s l) (hload : ∀ t, IsSlot s l t → load' t = load t)
    (hback : ∀ a ∈ l, back' a = back a) : Path load' back' s l := by
  induction l generalizing s with
  | nil => exact path_nil.mpr ((hload s (Or.inl rfl)).trans (path_nil.mp h))
  | cons a l ih =>
      obtain ⟨hsa, ha, hrest⟩ := path_cons.mp h
      refine path_cons.mpr ⟨(hload s (Or.inl rfl)).trans hsa,
        (hback a List.mem_cons_self).trans ha, ih hrest ?_ ?_⟩
      · rintro t (rfl | ⟨b, hb, rfl⟩)
        · exact hload _ (Or.inr ⟨a, List.mem_cons_self, rfl⟩)
        · exact hload _ (Or.inr ⟨b, List.mem_cons_of_mem a hb, rfl⟩)
      · exact fun b hb => hback b (List.mem_cons_of_mem a hb)

/-- The rest of a list moves to another slot: the new slot holds what the old
one held, and the first node leads back to it. -/
theorem Path.rehang {t : Slot η ν} (h : Path load back s l) (hnodup : l.Nodup)
    (ht : load' t = load s) (hload : ∀ a ∈ l, load' (.next a) = load (.next a))
    (hhead : ∀ a ∈ l, load s = some a → back' a = some t)
    (hback : ∀ a ∈ l, load s ≠ some a → back' a = back a) : Path load' back' t l := by
  cases l with
  | nil => exact path_nil.mpr (ht.trans (path_nil.mp h))
  | cons a l =>
      obtain ⟨hsa, -, hrest⟩ := path_cons.mp h
      obtain ⟨hal, -⟩ := List.nodup_cons.mp hnodup
      refine path_cons.mpr ⟨ht.trans hsa, hhead a List.mem_cons_self hsa, hrest.congr ?_ ?_⟩
      · rintro u (rfl | ⟨b, hb, rfl⟩)
        · exact hload a List.mem_cons_self
        · exact hload b (List.mem_cons_of_mem a hb)
      · intro b hb
        apply hback b (List.mem_cons_of_mem a hb)
        rw [hsa]
        rintro heq
        obtain rfl := Option.some.inj heq
        exact hal hb

/-! ## All the lists of a memory -/

/-- The memory holds these lists, and they share no node.  A root without a
list is one that nothing is known of. -/
structure Lists (load : Slot η ν → Option ν) (back : ν → Option (Slot η ν))
    (L : η → Option (List ν)) : Prop where
  path : ∀ r l, L r = some l → Path load back (.first r) l
  nodup : ∀ r l, L r = some l → l.Nodup
  disjoint : ∀ r r' l l' a, L r = some l → L r' = some l' → a ∈ l → a ∈ l' → r = r'

/-- In some list. -/
def Member (L : η → Option (List ν)) (a : ν) : Prop :=
  ∃ r l, L r = some l ∧ a ∈ l

namespace Lists

variable {L : η → Option (List ν)} {r r' : η} {item : ν}

/-- Whatever memory holds, no root has a list at first. -/
theorem empty (load : Slot η ν → Option ν) (back : ν → Option (Slot η ν)) :
    Lists load back (fun _ => none) where
  path := fun _ _ h => absurd h (by simp)
  nodup := fun _ _ h => absurd h (by simp)
  disjoint := fun _ _ _ _ _ h => absurd h (by simp)

/-- A member is what the slot it leads back to holds. -/
theorem load_back (h : Lists load back L) (ha : Member L a) :
    ∃ s, back a = some s ∧ load s = some a := by
  obtain ⟨r, l, hL, hmem⟩ := ha
  obtain ⟨l₁, l₂, rfl⟩ := List.append_of_mem hmem
  obtain ⟨hload, hback, -⟩ := path_cons.mp (path_append.mp (h.path r _ hL)).2
  exact ⟨_, hback, hload⟩

variable [DecidableEq η]

/-- One root gets another list; the other lists keep their slots and nodes. -/
theorem update (h : Lists load back L) (hpath : Path load' back' (.first r) l)
    (hnodup : l.Nodup) (hout : ∀ r' l' a, r' ≠ r → L r' = some l' → a ∈ l → a ∉ l')
    (hload : ∀ r' l' t, r' ≠ r → L r' = some l' → IsSlot (.first r') l' t → load' t = load t)
    (hback : ∀ r' l' a, r' ≠ r → L r' = some l' → a ∈ l' → back' a = back a) :
    Lists load' back' (Function.update L r (some l)) where
  path := by
    intro r' l' hL
    by_cases hr : r' = r
    · subst hr
      rw [Function.update_self] at hL
      exact Option.some.inj hL ▸ hpath
    · rw [Function.update_of_ne hr] at hL
      exact (h.path r' l' hL).congr (fun t ht => hload r' l' t hr hL ht)
        (fun a ha => hback r' l' a hr hL ha)
  nodup := by
    intro r' l' hL
    by_cases hr : r' = r
    · subst hr
      rw [Function.update_self] at hL
      exact Option.some.inj hL ▸ hnodup
    · rw [Function.update_of_ne hr] at hL
      exact h.nodup r' l' hL
  disjoint := by
    intro r₁ r₂ l₁ l₂ a h₁ h₂ ha₁ ha₂
    by_cases hr₁ : r₁ = r
    · subst hr₁
      by_cases hr₂ : r₂ = r₁
      · exact hr₂.symm
      · rw [Function.update_self] at h₁
        rw [Function.update_of_ne hr₂] at h₂
        obtain rfl := Option.some.inj h₁
        exact absurd ha₂ (hout r₂ l₂ a hr₂ h₂ ha₁)
    · rw [Function.update_of_ne hr₁] at h₁
      by_cases hr₂ : r₂ = r
      · subst hr₂
        rw [Function.update_self] at h₂
        obtain rfl := Option.some.inj h₂
        exact absurd ha₁ (hout r₁ l₁ a hr₁ h₁ ha₂)
      · rw [Function.update_of_ne hr₂] at h₂
        exact h.disjoint r₁ r₂ l₁ l₂ a h₁ h₂ ha₁ ha₂

omit [DecidableEq η] in
theorem cut_ne (h : Lists load back L) (hL : L r = some (l₁ ++ l₂)) (hr : r' ≠ r)
    (hL' : L r' = some l) {t : Slot η ν} (ht : IsSlot (.first r') l t) :
    t ≠ endSlot (.first r) l₁ := by
  rcases endSlot_cases (.first r) l₁ with heq | ⟨b, hb, heq⟩
  · rw [heq]
    rcases ht with rfl | ⟨a, -, rfl⟩
    · exact fun heq => hr (Slot.first.inj heq)
    · exact (Slot.first_ne_next r a).symm
  · rw [heq]
    rcases ht with rfl | ⟨a, ha, rfl⟩
    · exact Slot.first_ne_next r' b
    · rintro heq
      obtain rfl := Slot.next.inj heq
      exact hr (h.disjoint r' r l _ a hL' hL ha (List.mem_append_left l₂ hb))

omit [DecidableEq η] in
/-- What stands at the cut of one list is in no other. -/
theorem head_ne (h : Lists load back L) (hL : L r = some (l₁ ++ l₂)) (hr : r' ≠ r)
    (hL' : L r' = some l) (ha : a ∈ l) : load (endSlot (.first r) l₁) ≠ some a := by
  rw [(path_append.mp (h.path r _ hL)).2.load_eq]
  intro hhead
  have hmem : a ∈ l₂ := List.mem_of_mem_head? hhead
  exact hr (h.disjoint r' r l _ a hL' hL ha (List.mem_append_right l₁ hmem))

theorem insert (h : Lists load back L) (hL : L r = some (l₁ ++ l₂)) (hitem : ¬Member L item)
    (hs : load' (endSlot (.first r) l₁) = some item)
    (hnext : load' (.next item) = load (endSlot (.first r) l₁))
    (hload : ∀ t, t ≠ endSlot (.first r) l₁ → t ≠ .next item → load' t = load t)
    (hself : back' item = some (endSlot (.first r) l₁))
    (hhead : ∀ a, a ≠ item → load (endSlot (.first r) l₁) = some a →
      back' a = some (.next item))
    (hback : ∀ a, a ≠ item → load (endSlot (.first r) l₁) ≠ some a → back' a = back a) :
    Lists load' back' (Function.update L r (some (l₁ ++ item :: l₂))) := by
  have hout : ∀ r' l' a, L r' = some l' → a ∈ l' → a ≠ item := by
    rintro r' l' a hL' ha rfl
    exact hitem ⟨r', l', hL', ha⟩
  have hslot : ∀ r' l' t, L r' = some l' → IsSlot (.first r') l' t → t ≠ .next item := by
    rintro r' l' t hL' (rfl | ⟨a, ha, rfl⟩)
    · exact Slot.first_ne_next r' item
    · exact fun heq => hout r' l' a hL' ha (Slot.next.inj heq)
  have hnodup := h.nodup r _ hL
  obtain ⟨hnd₁, hnd₂, hdisj⟩ := List.nodup_append.mp hnodup
  obtain ⟨hstretch, hrest⟩ := path_append.mp (h.path r _ hL)
  have hin₁ : ∀ a ∈ l₁, a ∈ l₁ ++ l₂ := fun a ha => List.mem_append_left l₂ ha
  have hin₂ : ∀ a ∈ l₂, a ∈ l₁ ++ l₂ := fun a ha => List.mem_append_right l₁ ha
  have hcut : ∀ a ∈ l₂, (Slot.next a : Slot η ν) ≠ endSlot (.first r) l₁ :=
    fun a ha => next_ne_endSlot r fun hmem => hdisj a hmem a ha rfl
  apply h.update
  · refine path_append.mpr ⟨hstretch.congr hnd₁ (fun a _ => Slot.first_ne_next r a) ?_ ?_,
      path_cons.mpr ⟨hs, hself, hrest.rehang hnd₂ hnext ?_ ?_ ?_⟩⟩
    · intro t ht hend
      apply hload t hend
      rcases ht with rfl | ⟨a, ha, rfl⟩
      · exact Slot.first_ne_next r item
      · exact fun heq => hout r _ a hL (hin₁ a ha) (Slot.next.inj heq)
    · intro a ha
      apply hback a (hout r _ a hL (hin₁ a ha))
      rw [hrest.load_eq]
      exact fun heq => hdisj a ha a (List.mem_of_mem_head? heq) rfl
    · intro a ha
      exact hload _ (hcut a ha) fun heq => hout r _ a hL (hin₂ a ha) (Slot.next.inj heq)
    · exact fun a ha => hhead a (hout r _ a hL (hin₂ a ha))
    · exact fun a ha => hback a (hout r _ a hL (hin₂ a ha))
  · have hnew : item ∉ l₁ ++ l₂ := fun hmem => hout r _ item hL hmem rfl
    exact List.perm_middle.nodup_iff.mpr (List.nodup_cons.mpr ⟨hnew, hnodup⟩)
  · intro r' l' a hr hL' ha ha'
    rcases List.mem_append.mp ha with ha | ha
    · exact hr (h.disjoint r' r l' _ a hL' hL ha' (hin₁ a ha))
    · rcases List.mem_cons.mp ha with rfl | ha
      · exact hout r' l' a hL' ha' rfl
      · exact hr (h.disjoint r' r l' _ a hL' hL ha' (hin₂ a ha))
  · exact fun r' l' t hr hL' ht => hload t (h.cut_ne hL hr hL' ht) (hslot r' l' t hL' ht)
  · exact fun r' l' a hr hL' ha => hback a (hout r' l' a hL' ha) (h.head_ne hL hr hL' ha)

theorem delete (h : Lists load back L) (hL : L r = some (l₁ ++ node :: l₂))
    (hs : load' (endSlot (.first r) l₁) = load (.next node))
    (hload : ∀ t, t ≠ endSlot (.first r) l₁ → load' t = load t)
    (hhead : ∀ a, load (.next node) = some a → back' a = some (endSlot (.first r) l₁))
    (hback : ∀ a, load (.next node) ≠ some a → back' a = back a) :
    Lists load' back' (Function.update L r (some (l₁ ++ l₂))) := by
  have hnodup := h.nodup r _ hL
  obtain ⟨hnd₁, hnd₂, hdisj⟩ := List.nodup_append.mp hnodup
  obtain ⟨-, hnd₂⟩ := List.nodup_cons.mp hnd₂
  obtain ⟨hstretch, hrest⟩ := path_append.mp (h.path r _ hL)
  obtain ⟨-, -, hrest⟩ := path_cons.mp hrest
  have hdisj : ∀ a ∈ l₁, ∀ b ∈ l₂, a ≠ b :=
    fun a ha b hb => hdisj a ha b (List.mem_cons_of_mem node hb)
  have hcut : ∀ a ∈ l₂, (Slot.next a : Slot η ν) ≠ endSlot (.first r) l₁ :=
    fun a ha => next_ne_endSlot r fun hmem => hdisj a hmem a ha rfl
  have hsub : ∀ a ∈ l₁ ++ l₂, a ∈ l₁ ++ node :: l₂ := by
    intro a ha
    exact (List.mem_append.mp ha).elim (List.mem_append_left _)
      fun ha => List.mem_append_right l₁ (List.mem_cons_of_mem node ha)
  apply h.update
  · refine path_append.mpr ⟨hstretch.congr hnd₁ (fun a _ => Slot.first_ne_next r a) ?_ ?_,
      hrest.rehang hnd₂ hs ?_ ?_ ?_⟩
    · exact fun t _ hend => hload t hend
    · intro a ha
      apply hback a
      rw [hrest.load_eq]
      exact fun heq => hdisj a ha a (List.mem_of_mem_head? heq) rfl
    · exact fun a ha => hload _ (hcut a ha)
    · exact fun a _ => hhead a
    · exact fun a _ => hback a
  · exact hnodup.sublist ((List.sublist_cons_self node l₂).append_left l₁)
  · exact fun r' l' a hr hL' ha ha' => hr (h.disjoint r' r l' _ a hL' hL ha' (hsub a ha))
  · exact fun r' l' t hr hL' ht => hload t (h.cut_ne hL hr hL' ht)
  · intro r' l' a hr hL' ha
    have hL₁ : L r = some ((l₁ ++ [node]) ++ l₂) := by
      rw [hL, List.append_assoc, List.singleton_append]
    have hne := h.head_ne hL₁ hr hL' ha
    rw [endSlot_append] at hne
    exact hback a hne

omit [DecidableEq η] in
theorem mono {L' : η → Option (List ν)} (h : Lists load back L)
    (hsub : ∀ r l, L' r = some l → L r = some l) : Lists load back L' where
  path := fun r l hL => h.path r l (hsub r l hL)
  nodup := fun r l hL => h.nodup r l (hsub r l hL)
  disjoint := fun r r' l l' a hL hL' => h.disjoint r r' l l' a (hsub r l hL) (hsub r' l' hL')

theorem init (h : Lists load back L) (hs : load' (.first r) = none)
    (hload : ∀ t, t ≠ .first r → load' t = load t) :
    Lists load' back (Function.update L r (some [])) := by
  apply h.update
  · exact path_nil.mpr hs
  · exact List.nodup_nil
  · exact fun _ _ _ _ _ ha => absurd ha List.not_mem_nil
  · rintro r' l' t hr - (rfl | ⟨a, -, rfl⟩)
    · exact hload _ fun heq => hr (Slot.first.inj heq)
    · exact hload _ (Slot.first_ne_next r a).symm
  · exact fun _ _ _ _ _ _ => rfl

/-- All nodes of a list move to a root without nodes. -/
theorem move {new : η} (h : Lists load back L) (hL : L r = some l) (hne : r ≠ new)
    (hnew : load' (.first new) = load (.first r)) (hold : load' (.first r) = none)
    (hload : ∀ t, t ≠ .first r → t ≠ .first new → load' t = load t)
    (hhead : ∀ a, load (.first r) = some a → back' a = some (.first new))
    (hback : ∀ a, load (.first r) ≠ some a → back' a = back a) :
    Lists load' back' (Function.update (Function.update L new (some l)) r (some [])) := by
  have hkeep : ∀ r' l', Function.update L r none r' = some l' → r' ≠ r ∧ L r' = some l' := by
    intro r' l' hL'
    by_cases hr : r' = r
    · subst hr
      rw [Function.update_self] at hL'
      cases hL'
    · rw [Function.update_of_ne hr] at hL'
      exact ⟨hr, hL'⟩
  have hrest : Lists load back (Function.update L r none) :=
    h.mono fun r' l' hL' => (hkeep r' l' hL').2
  have hpath := h.path r l hL
  have hmoved : Lists load' back' (Function.update (Function.update L r none) new (some l)) := by
    apply hrest.update
    · apply hpath.rehang (h.nodup r l hL) hnew
      · exact fun a _ => hload _ (Slot.first_ne_next r a).symm (Slot.first_ne_next new a).symm
      · exact fun a _ => hhead a
      · exact fun a _ => hback a
    · exact h.nodup r l hL
    · intro r' l' a _ hL' ha ha'
      obtain ⟨hr, hL'⟩ := hkeep r' l' hL'
      exact hr (h.disjoint r' r l' l a hL' hL ha' ha)
    · rintro r' l' t hr' hL' (rfl | ⟨a, -, rfl⟩)
      · obtain ⟨hr, -⟩ := hkeep r' l' hL'
        exact hload _ (fun heq => hr (Slot.first.inj heq)) fun heq => hr' (Slot.first.inj heq)
      · exact hload _ (Slot.first_ne_next r a).symm (Slot.first_ne_next new a).symm
    · intro r' l' a _ hL' ha
      obtain ⟨hr, hL'⟩ := hkeep r' l' hL'
      apply hback a
      rw [hpath.load_eq]
      exact fun heq => hr (h.disjoint r' r l' l a hL' hL ha (List.mem_of_mem_head? heq))
  have hdone := hmoved.init hold fun _ _ => rfl
  rwa [Function.update_comm hne.symm, Function.update_idem, Function.update_comm hne] at hdone

end Lists

end Hlibc.SlotList
