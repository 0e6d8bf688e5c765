import Hlibc.ListNode

/-!
# What `list_swap` exchanges

`list_swap` takes out `a`, puts it in the place of `b`, and adds `b` behind the node that was
in front of `a`.  If that node is `b` itself, `b` is added behind itself, and it ends with a
pointer to itself.
-/

set_option autoImplicit false

namespace Hlibc.ListNode

open Circular

variable {α : Type*} {m : Memory α} {R : Set (Cycle α)} {a b x : α} {c : Cycle α}

/-- In a list with a further node besides `a` and `b`. -/
def Accompanied (R : Set (Cycle α)) (a b x : α) : Prop :=
  ∃ c ∈ R, x ∈ c ∧ ∃ y ∈ c, y ≠ a ∧ y ≠ b

theorem ne_singleton {y : α} (hy : y ∈ c) (hne : y ≠ x) : c ≠ ↑[x] := by
  rintro rfl
  exact hne (List.mem_singleton.mp hy)

/-- A node with another one in its list is not in front of itself. -/
theorem prev_ne_self (h : Represents m R) (hc : c ∈ R) (hx : x ∈ c) (hmany : c ≠ ↑[x]) :
    m.prev x ≠ x := by
  intro hself
  have hback := (h.neighbours hc hx).2.2
  rw [hself] at hback
  exact hmany ((h.next_eq_self hc hx).mp hback)

theorem diff_singleton_eq (hx : ∀ c ∈ R, c ≠ ↑[x]) : R \ {↑[x]} = R :=
  Set.sdiff_singleton_eq_self fun hmem => hx _ hmem rfl

theorem member_ne_singleton (hx : ∀ c ∈ R, x ∉ c) : ∀ c ∈ R, c ≠ ↑[x] := by
  rintro c hc rfl
  exact hx _ hc (List.mem_singleton_self x)

variable [DecidableEq α]

theorem notMem_substitute (hne : a ≠ b) (hc : c ∈ substitute b a R) : b ∉ c := by
  obtain ⟨d, -, rfl⟩ := hc
  intro hmem
  rcases mem_splice.mp hmem with ⟨-, hself⟩ | ⟨-, hother⟩
  · exact hself rfl
  · exact hne (List.mem_singleton.mp hother).symm

/-- The three operations of `list_swap` exchange the two nodes. -/
theorem insertAfter_substitute_delete (h : Represents m R) (hne : a ≠ b)
    (ha : Accompanied R a b a) (hapart : m.prev a ≠ b) :
    insertAfter b (m.prev a) (substitute b a (delete a R)) = interchange a b '' R := by
  obtain ⟨c, hc, hac, y, hy, hya, -⟩ := ha
  have hmany : c ≠ ↑[a] := ne_singleton hy hya
  obtain ⟨-, hprevmem, -⟩ := h.neighbours hc hac
  have hprev : m.prev a ≠ a := prev_ne_self h hc hac hmany
  have hsingle : ∀ e ∈ R, e ≠ ↑[a] := by
    rintro e he rfl
    exact hmany (h.disjoint c hc _ he a hac (List.mem_singleton_self a))
  rw [insertAfter, substitute, delete, diff_singleton_eq hsingle]
  change splice _ _ '' ((splice b [a] '' (splice a [] '' R \ {↑[a]})) \ {↑[b]}) = _
  have hdelete : splice a [] '' R \ {↑[a]} = splice a [] '' R := by
    apply diff_singleton_eq
    apply member_ne_singleton
    intro e he
    apply notMem_delete (R := R)
    rwa [delete, diff_singleton_eq hsingle]
  have hsubstitute : (splice b [a] '' (splice a [] '' R)) \ {↑[b]} =
      splice b [a] '' (splice a [] '' R) := by
    apply diff_singleton_eq
    apply member_ne_singleton
    intro e he
    apply notMem_substitute (R := splice a [] '' R) hne
    rwa [substitute, hdelete]
  rw [hdelete, hsubstitute, Set.image_image, Set.image_image]
  apply Set.image_congr
  intro e he
  by_cases hae : a ∈ e
  · obtain rfl := h.disjoint c hc e he a hac hae
    obtain ⟨l, hl⟩ := h.exists_eq_prev_cons hc hac hprev
    have hnodup := h.nodup _ hc
    rw [hl] at hnodup ⊢
    exact (interchange_cons_cons hnodup hapart).symm
  · have hout : m.prev a ∉ splice b [a] e := by
      intro hmem
      rcases mem_splice.mp hmem with ⟨hmem, -⟩ | ⟨-, hmem⟩
      · obtain rfl := h.disjoint c hc e he _ hprevmem hmem
        exact hae hac
      · exact hprev (List.mem_singleton.mp hmem)
    rw [splice_of_notMem hae, splice_of_notMem hout, interchange_of_notMem hae]

theorem listSwap_represents (h : Represents m R) (hne : a ≠ b) (ha : Accompanied R a b a)
    (hb : Accompanied R a b b) (hapart : m.prev a ≠ b) :
    Represents (listSwap m a b) (interchange a b '' R) := by
  rw [← insertAfter_substitute_delete h hne ha hapart]
  obtain ⟨c, hc, hac, y, hy, hya, -⟩ := ha
  obtain ⟨d, hd, hbd, z, hz, hza, hzb⟩ := hb
  obtain ⟨-, hprevmem, -⟩ := h.neighbours hc hac
  have hprev : m.prev a ≠ a := prev_ne_self h hc hac (ne_singleton hy hya)
  have hrm := listRm_represents h ⟨c, hc, hac⟩
  have hdmem : splice a [] d ∈ delete a R := ⟨d, ⟨hd, ne_singleton hz hza⟩, rfl⟩
  have hbmem : b ∈ splice a [] d := mem_splice.mpr (Or.inl ⟨hbd, hne.symm⟩)
  have hzmem : z ∈ splice a [] d := mem_splice.mpr (Or.inl ⟨hz, hza⟩)
  have hreplace := listReplace_represents hrm (free_delete R a) hdmem hbmem (ne_singleton hzmem hzb)
  have hcmem : splice a [] c ∈ delete a R := ⟨c, ⟨hc, ne_singleton hy hya⟩, rfl⟩
  have hprevmem' : m.prev a ∈ splice a [] c := mem_splice.mpr (Or.inl ⟨hprevmem, hprev⟩)
  have hmember : Member (substitute b a (delete a R)) (m.prev a) :=
    ⟨splice b [a] (splice a [] c), ⟨_, ⟨hcmem, ne_singleton hprevmem' hprev⟩, rfl⟩,
      mem_splice.mpr (Or.inl ⟨hprevmem', hapart⟩)⟩
  have hfree : Free (substitute b a (delete a R)) b :=
    fun _ hc hmem => absurd hmem (notMem_substitute hne hc)
  rw [listSwap, if_pos hne]
  exact listAdd_represents hreplace hfree hmember hapart.symm

/-- If `b` is in front of `a`, it ends with a pointer to itself. -/
theorem listSwap_prev (hne : a ≠ b) (hfront : m.prev a = b) : (listSwap m a b).prev b = b := by
  rw [listSwap, if_pos hne]
  simp [listAdd, listAddBetween, hfront]

/-- `list_swap` exchanges `a` and `b` exactly if `b` is not directly in front of `a`. -/
theorem listSwap_represents_iff (h : Represents m R) (hne : a ≠ b) (ha : Accompanied R a b a)
    (hb : Accompanied R a b b) :
    Represents (listSwap m a b) (interchange a b '' R) ↔ m.prev a ≠ b := by
  constructor
  · intro hrep hfront
    obtain ⟨c, hc, hac, y, hy, hya, hyb⟩ := ha
    have hbmem : b ∈ interchange a b c :=
      Cycle.mem_map.mpr ⟨a, hac, Equiv.swap_apply_left a b⟩
    have hymem : y ∈ interchange a b c :=
      Cycle.mem_map.mpr ⟨y, hy, Equiv.swap_apply_of_ne_of_ne hya hyb⟩
    have hmem : interchange a b c ∈ interchange a b '' R := ⟨c, hc, rfl⟩
    have hself : (listSwap m a b).next b = b := by
      have hback := (hrep.neighbours hmem hbmem).2.2
      rwa [listSwap_prev hne hfront] at hback
    exact ne_singleton hymem hyb ((hrep.next_eq_self hmem hbmem).mp hself)
  · exact listSwap_represents h hne ha hb

/-- A list of the nodes 0, 1 and 2. -/
def three : Memory ℕ where
  next x := if x = 0 then 1 else if x = 1 then 2 else 0
  prev x := if x = 0 then 2 else if x = 1 then 0 else 1

theorem three_represents : Represents three {↑[0, 1, 2]} :=
  Rings.single (by decide) (by simp [Linked, three])

theorem three_accompanied {a b x y : ℕ} (hx : x ∈ [0, 1, 2]) (hy : y ∈ [0, 1, 2]) (hya : y ≠ a)
    (hyb : y ≠ b) : Accompanied {↑[0, 1, 2]} a b x :=
  ⟨↑[0, 1, 2], rfl, hx, y, hy, hya, hyb⟩

/-- The nodes 1 and 2, in their order. -/
theorem listSwap_represents_iff_three :
    Represents (listSwap three 1 2) (interchange 1 2 '' {↑[0, 1, 2]}) ↔ three.prev 1 ≠ 2 :=
  listSwap_represents_iff three_represents (by decide)
    (three_accompanied (y := 0) (by decide) (by decide) (by decide) (by decide))
    (three_accompanied (y := 0) (by decide) (by decide) (by decide) (by decide))

/-- The nodes 2 and 1, against their order. -/
theorem listSwap_breaks :
    ¬ ∀ (m : Memory ℕ) (R : Set (Cycle ℕ)) (a b : ℕ), Represents m R → a ≠ b →
      Accompanied R a b a → Accompanied R a b b →
        Represents (listSwap m a b) (interchange a b '' R) := by
  intro hall
  have hrep := hall three _ 2 1 three_represents (by decide)
    (three_accompanied (y := 0) (by decide) (by decide) (by decide) (by decide))
    (three_accompanied (y := 0) (by decide) (by decide) (by decide) (by decide))
  have hprev : (listSwap three 2 1).prev 1 = 1 := by decide
  have hnext : (listSwap three 2 1).next 1 = 0 := by decide
  have hmem : (1 : ℕ) ∈ interchange 2 1 (↑[0, 1, 2] : Cycle ℕ) := by decide
  have hback := (hrep.neighbours ⟨_, rfl, rfl⟩ hmem).2.2
  rw [hprev, hnext] at hback
  exact absurd hback (by decide)

end Hlibc.ListNode
