import Mathlib.Data.List.Cycle
import Mathlib.Logic.Equiv.Basic
import Mathlib.Tactic.Common

/-!
# Circular sequences and circular doubly linked memory

A circular sequence is a list up to rotation.  `splice x w` puts the list `w` in
the place of the member `x`: insertion, deletion and substitution are splices.
A memory of `next` and `prev` pointers holds a set of circular sequences when
these are disjoint and each of them can be followed in both directions.
-/

set_option autoImplicit false

namespace Hlibc.Circular

variable {α : Type*}

/-! ## Splicing -/

theorem exists_eq_cons {c : Cycle α} {x : α} (hx : x ∈ c) : ∃ l : List α, c = ↑(x :: l) := by
  induction c using Quotient.inductionOn' with
  | h l =>
      obtain ⟨s, t, rfl⟩ := List.append_of_mem (show x ∈ l from hx)
      have hrotated : List.IsRotated (s ++ x :: t) (x :: t ++ s) := List.isRotated_append
      exact ⟨t ++ s, Quotient.sound' hrotated⟩

variable [DecidableEq α]

/-- What stands in the place of `y` when `w` replaces `x`. -/
def place (x : α) (w : List α) (y : α) : List α :=
  if y = x then w else [y]

/-- The circular sequence with `w` in the place of `x`. -/
def splice (x : α) (w : List α) (c : Cycle α) : Cycle α :=
  Quotient.map' (fun l => l.flatMap (place x w)) (by
    rintro l _ ⟨n, rfl⟩
    show l.flatMap (place x w) ~r (l.rotate n).flatMap (place x w)
    have hsplit := List.take_append_drop (n % l.length) l
    conv_lhs => rw [← hsplit, List.flatMap_append]
    rw [List.rotate_eq_drop_append_take_mod, List.flatMap_append]
    exact List.isRotated_append) c

variable {x y : α} {w l : List α} {c : Cycle α}

@[simp] theorem splice_coe :
    splice x w (l : Cycle α) = ((l.flatMap (place x w) : List α) : Cycle α) := rfl

theorem flatMap_place_of_notMem (hx : x ∉ l) : l.flatMap (place x w) = l := by
  induction l with
  | nil => rfl
  | cons y l ih =>
      obtain ⟨hy, hl⟩ := not_or.mp (mt List.mem_cons.mpr hx)
      rw [List.flatMap_cons, ih hl, place, if_neg (Ne.symm hy), List.singleton_append]

theorem flatMap_place_append {l₁ l₂ : List α} (hx₁ : x ∉ l₁) (hx₂ : x ∉ l₂) :
    (l₁ ++ x :: l₂).flatMap (place x w) = l₁ ++ (w ++ l₂) := by
  rw [List.flatMap_append, List.flatMap_cons, flatMap_place_of_notMem hx₁,
    flatMap_place_of_notMem hx₂, place, if_pos rfl]

theorem splice_cons (hx : x ∉ l) : splice x w ↑(x :: l) = ((w ++ l : List α) : Cycle α) := by
  have happend : ([] ++ x :: l).flatMap (place x w) = [] ++ (w ++ l) :=
    flatMap_place_append List.not_mem_nil hx
  exact congrArg _ happend

theorem splice_of_notMem (hx : x ∉ c) : splice x w c = c := by
  induction c using Quotient.inductionOn' with
  | h l => exact congrArg _ (flatMap_place_of_notMem hx)

theorem mem_splice : y ∈ splice x w c ↔ y ∈ c ∧ y ≠ x ∨ x ∈ c ∧ y ∈ w := by
  induction c using Quotient.inductionOn' with
  | h l =>
      show y ∈ l.flatMap (place x w) ↔ y ∈ l ∧ y ≠ x ∨ x ∈ l ∧ y ∈ w
      rw [List.mem_flatMap]
      constructor
      · rintro ⟨z, hz, hy⟩
        by_cases hzx : z = x
        · subst hzx
          rw [place, if_pos rfl] at hy
          exact Or.inr ⟨hz, hy⟩
        · rw [place, if_neg hzx, List.mem_singleton] at hy
          subst hy
          exact Or.inl ⟨hz, hzx⟩
      · rintro (⟨hy, hne⟩ | ⟨hx, hy⟩)
        · exact ⟨y, hy, by simp [place, hne]⟩
        · exact ⟨x, hx, by simp [place, hy]⟩

/-! ## Interchange -/

/-- The circular sequence with `a` and `b` in each other's place. -/
def interchange (a b : α) : Cycle α → Cycle α := Cycle.map (Equiv.swap a b)

theorem map_swap_eq_flatMap {a b : α} (ha : a ∉ l) :
    l.map (Equiv.swap a b) = l.flatMap (place b [a]) := by
  induction l with
  | nil => rfl
  | cons y l ih =>
      obtain ⟨hy, hl⟩ := not_or.mp (mt List.mem_cons.mpr ha)
      rw [List.map_cons, List.flatMap_cons, ih hl, place]
      by_cases hyb : y = b
      · rw [if_pos hyb, hyb, Equiv.swap_apply_right]
        rfl
      · rw [if_neg hyb, Equiv.swap_apply_of_ne_of_ne (Ne.symm hy) hyb]
        rfl

/-- In a sequence without `a`, it takes the place of `b`. -/
theorem interchange_of_notMem {a b : α} (ha : a ∉ c) : interchange a b c = splice b [a] c := by
  induction c using Quotient.inductionOn' with
  | h l => exact congrArg _ (map_swap_eq_flatMap ha)

/-- Behind another node than `b`, `a` is taken out, put in the place of `b`, and `b` is put
where it was. -/
theorem interchange_cons_cons {a b : α} (hnodup : (x :: a :: l).Nodup) (hxb : x ≠ b) :
    interchange a b ↑(x :: a :: l) =
      splice x [x, b] (splice b [a] (splice a [] ↑(x :: a :: l))) := by
  obtain ⟨hx, hrest⟩ := List.nodup_cons.mp hnodup
  obtain ⟨ha, -⟩ := List.nodup_cons.mp hrest
  obtain ⟨hxa, hxl⟩ := not_or.mp (mt List.mem_cons.mpr hx)
  have hout : splice a [] ↑(x :: a :: l) = ((x :: l : List α) : Cycle α) := by
    have happend : ([x] ++ a :: l).flatMap (place a []) = [x] ++ ([] ++ l) :=
      flatMap_place_append (by simpa using Ne.symm hxa) ha
    exact congrArg _ happend
  have hplace : splice b [a] ↑(x :: l) =
      ((x :: l.map (Equiv.swap a b) : List α) : Cycle α) := by
    rw [splice_coe, List.flatMap_cons, place, if_neg hxb, map_swap_eq_flatMap ha]
    rfl
  have hxmap : x ∉ l.map (Equiv.swap a b) := by
    intro hmem
    obtain ⟨y, hy, hyx⟩ := List.mem_map.mp hmem
    have hself : Equiv.swap a b x = x := Equiv.swap_apply_of_ne_of_ne hxa hxb
    rw [← hself] at hyx
    exact hxl ((Equiv.swap a b).injective hyx ▸ hy)
  rw [hout, hplace, splice_cons hxmap, interchange, Cycle.map_coe, List.map_cons, List.map_cons,
    Equiv.swap_apply_left, Equiv.swap_apply_of_ne_of_ne hxa hxb]
  rfl

/-! ## Rings of memory -/

omit [DecidableEq α]

/-- The pointers of two neighbours lead to each other. -/
def Linked (next prev : α → α) (x y : α) : Prop :=
  next x = y ∧ prev y = x

variable {next prev next' prev' : α → α} {R : Set (Cycle α)} {item : α} {d : Cycle α}

/-- A stretch of linked nodes stays linked when only the `next` of its last and
the `prev` of its first node change. -/
theorem isChain_linked_congr (h : List.IsChain (Linked next prev) l)
    (hnext : ∀ a ∈ l.dropLast, next' a = next a) (hprev : ∀ a ∈ l.tail, prev' a = prev a) :
    List.IsChain (Linked next' prev') l := by
  induction l with
  | nil => exact List.IsChain.nil
  | cons a l ih =>
      cases l with
      | nil => exact List.IsChain.singleton a
      | cons b l =>
          obtain ⟨⟨hab, hba⟩, hrest⟩ := List.isChain_cons_cons.mp h
          have hlink : Linked next' prev' a b := by
            refine ⟨(hnext a ?_).trans hab, (hprev b ?_).trans hba⟩
            · simp
            · simp
          refine List.isChain_cons_cons.mpr ⟨hlink, ih hrest ?_ ?_⟩
          · exact fun c hc => hnext c (by simp [hc])
          · exact fun c hc => hprev c (List.mem_cons_of_mem b hc)

/-- A ring of several nodes with `w` in the place of `x`: the other nodes keep
their pointers, except towards `x`. -/
theorem chain_splice (hnodup : (x :: y :: l).Nodup)
    (hchain : List.IsChain (Linked next prev) (x :: (y :: l ++ [x])))
    (hnext : ∀ a ∈ y :: l, a ≠ prev x → next' a = next a)
    (hprev : ∀ a ∈ y :: l, a ≠ next x → prev' a = prev a)
    (hw : List.IsChain (Linked next' prev') (prev x :: (w ++ [next x]))) :
    Cycle.Chain (Linked next' prev') ↑(w ++ y :: l) := by
  obtain ⟨⟨hfirst, -⟩, hrest⟩ := List.isChain_cons_cons.mp hchain
  have hlast : (y :: l).getLast (List.cons_ne_nil y l) = prev x := by
    have hpair := (List.isChain_append.mp hrest).2.2 _
      (List.getLast_mem_getLast? (List.cons_ne_nil y l)) x rfl
    exact hpair.2.symm
  obtain ⟨-, hyl⟩ := List.nodup_cons.mp hnodup
  have hkeep : List.IsChain (Linked next' prev') (y :: l) := by
    apply isChain_linked_congr (List.isChain_append.mp hrest).1
    · intro a ha
      refine hnext a (List.mem_of_mem_dropLast ha) ?_
      rintro rfl
      rw [← List.dropLast_append_getLast (List.cons_ne_nil y l), hlast] at hyl
      exact (List.nodup_append.mp hyl).2.2 _ ha _ (List.mem_singleton_self _) rfl
    · intro a ha
      refine hprev a (List.mem_of_mem_tail ha) ?_
      rintro rfl
      exact (List.nodup_cons.mp hyl).1 (hfirst ▸ ha)
  have hne : w ++ y :: l ≠ [] := by simp
  have hend : (w ++ y :: l).getLast hne = prev x := by
    rw [List.getLast_append_of_ne_nil hne (List.cons_ne_nil y l), hlast]
  rw [Cycle.chain_ne_nil _ hne, hend, ← List.cons_append, List.isChain_split]
  exact ⟨hfirst ▸ hw, hkeep⟩

/-- The memory holds these circular sequences, and they share no node. -/
structure Rings (next prev : α → α) (R : Set (Cycle α)) : Prop where
  ne_nil : ∀ c ∈ R, c ≠ Cycle.nil
  nodup : ∀ c ∈ R, c.Nodup
  disjoint : ∀ c ∈ R, ∀ d ∈ R, ∀ x ∈ c, x ∈ d → c = d
  linked : ∀ c ∈ R, c.Chain (Linked next prev)

/-- In no sequence with another node. -/
def Free (R : Set (Cycle α)) (x : α) : Prop :=
  ∀ c ∈ R, x ∈ c → c = ↑[x]

theorem Free.ne_of_mem (hfree : Free R item) (hc : c ∈ R) (hx : x ∈ c) (hy : y ∈ c)
    (hne : item ≠ y) : x ≠ item := by
  rintro rfl
  obtain rfl := hfree c hc hx
  exact hne (List.mem_singleton.mp hy).symm

/-- In some sequence. -/
def Member (R : Set (Cycle α)) (x : α) : Prop :=
  ∃ c ∈ R, x ∈ c

namespace Rings

/-- Whatever the pointers are, nothing is linked at first. -/
theorem empty (next prev : α → α) : Rings next prev ∅ where
  ne_nil := fun _ hc => absurd hc (Set.notMem_empty _)
  nodup := fun _ hc => absurd hc (Set.notMem_empty _)
  disjoint := fun _ hc => absurd hc (Set.notMem_empty _)
  linked := fun _ hc => absurd hc (Set.notMem_empty _)

/-- The neighbours of a member are members, and lead back to it. -/
theorem neighbours (h : Rings next prev R) (hc : c ∈ R) (hx : x ∈ c) :
    (next x ∈ c ∧ prev (next x) = x) ∧ (prev x ∈ c ∧ next (prev x) = x) := by
  obtain ⟨l, rfl⟩ := exists_eq_cons hx
  have hchain := (Cycle.chain_coe_cons _ x l).mp (h.linked _ hc)
  constructor
  · cases l with
    | nil =>
        obtain ⟨hnext, hprev⟩ := List.isChain_pair.mp hchain
        exact ⟨by simp [hnext], by rw [hnext, hprev]⟩
    | cons y l =>
        obtain ⟨⟨hnext, hprev⟩, -⟩ := List.isChain_cons_cons.mp hchain
        exact ⟨by simp [hnext], by rw [hnext, hprev]⟩
  · rcases List.eq_nil_or_concat l with rfl | ⟨l, y, rfl⟩
    · obtain ⟨hnext, hprev⟩ := List.isChain_pair.mp hchain
      exact ⟨by simp [hprev], by rw [hprev, hnext]⟩
    · have hlast : List.IsChain (Linked next prev) ((x :: l) ++ y :: [x]) := by
        simpa using hchain
      obtain ⟨hnext, hprev⟩ := List.isChain_pair.mp (List.isChain_split.mp hlast).2
      exact ⟨by simp [hprev], by rw [hprev, hnext]⟩

/-- The sequence from the node in front of a member on. -/
theorem exists_eq_prev_cons (h : Rings next prev R) (hc : c ∈ R) (hx : x ∈ c)
    (hne : prev x ≠ x) : ∃ l, c = ↑(prev x :: x :: l) := by
  obtain ⟨-, hmem, hback⟩ := h.neighbours hc hx
  obtain ⟨l, rfl⟩ := exists_eq_cons hmem
  have hchain := (Cycle.chain_coe_cons _ (prev x) l).mp (h.linked _ hc)
  cases l with
  | nil =>
      have hself := (List.isChain_pair.mp hchain).1
      exact absurd (hself.symm.trans hback) hne
  | cons y l =>
      obtain rfl : y = x := (List.isChain_cons_cons.mp hchain).1.1.symm.trans hback
      exact ⟨l, rfl⟩

/-- A node of one sequence is no neighbour of a node of another. -/
theorem ne_neighbours (h : Rings next prev R) (hc : c ∈ R) (hy : y ∈ c) (hx : Member R x)
    (hxc : x ∉ c) : y ≠ x ∧ y ≠ next x ∧ y ≠ prev x := by
  obtain ⟨d, hd, hxd⟩ := hx
  obtain ⟨⟨hnext, -⟩, hprev, -⟩ := h.neighbours hd hxd
  have hout : ∀ z ∈ d, y ≠ z := by
    rintro z hz rfl
    exact hxc (h.disjoint c hc d hd y hy hz ▸ hxd)
  exact ⟨hout x hxd, hout _ hnext, hout _ hprev⟩

/-- A sequence survives changes to the pointers of other nodes. -/
theorem linked_congr (h : Rings next prev R) (hc : c ∈ R)
    (hsame : ∀ y ∈ c, next' y = next y ∧ prev' y = prev y) :
    c.Chain (Linked next' prev') := by
  have hlinked := h.linked c hc
  induction c using Quotient.inductionOn' with
  | h l =>
      cases l with
      | nil => exact Cycle.Chain.nil _
      | cons x l =>
          have hmem : ∀ y ∈ x :: (l ++ [x]), next' y = next y ∧ prev' y = prev y := by
            intro y hy
            apply hsame y
            show y ∈ x :: l
            simpa [or_comm, or_assoc] using hy
          apply (Cycle.chain_coe_cons _ x l).mpr
          apply isChain_linked_congr ((Cycle.chain_coe_cons _ x l).mp hlinked)
          · exact fun y hy => (hmem y (List.mem_of_mem_dropLast hy)).1
          · exact fun y hy => (hmem y (List.mem_of_mem_tail hy)).2

theorem single (hnodup : (x :: l).Nodup)
    (hchain : List.IsChain (Linked next prev) (x :: (l ++ [x]))) :
    Rings next prev {↑(x :: l)} where
  ne_nil := by
    rintro c rfl heq
    exact List.cons_ne_nil x l ((Cycle.coe_eq_nil _).mp heq)
  nodup := by
    rintro c rfl
    exact hnodup
  disjoint := by
    rintro c rfl d rfl y - -
    rfl
  linked := by
    rintro c rfl
    exact (Cycle.chain_coe_cons _ x l).mpr hchain

/-- A free node that is made to lead to itself becomes a sequence of its own. -/
theorem insert_singleton (h : Rings next prev R) (hfree : Free R x)
    (hself : next' x = x ∧ prev' x = x)
    (hsame : ∀ y, y ≠ x → next' y = next y ∧ prev' y = prev y) :
    Rings next' prev' (insert ↑[x] R) where
  ne_nil := by
    rintro c (rfl | hc)
    · exact fun heq => by simpa using congrArg Cycle.length heq
    · exact h.ne_nil c hc
  nodup := by
    rintro c (rfl | hc)
    · exact List.nodup_singleton x
    · exact h.nodup c hc
  disjoint := by
    rintro c (rfl | hc) d (rfl | hd) y hyc hyd
    · rfl
    · obtain rfl : y = x := List.mem_singleton.mp hyc
      exact (hfree d hd hyd).symm
    · obtain rfl : y = x := List.mem_singleton.mp hyd
      exact hfree c hc hyc
    · exact h.disjoint c hc d hd y hyc hyd
  linked := by
    have hsingle : Cycle.Chain (Linked next' prev') ↑[x] :=
      (Cycle.chain_singleton _ x).mpr hself
    rintro c (rfl | hc)
    · exact hsingle
    · by_cases hx : x ∈ c
      · rw [hfree c hc hx]
        exact hsingle
      · apply h.linked_congr hc
        exact fun y hy => hsame y fun heq => hx (heq ▸ hy)

/-- Only a sequence of one node leads from the node to itself. -/
theorem next_eq_self (h : Rings next prev R) (hc : c ∈ R) (hx : x ∈ c) :
    next x = x ↔ c = ↑[x] := by
  obtain ⟨l, rfl⟩ := exists_eq_cons hx
  have hnodup : (x :: l).Nodup := h.nodup _ hc
  have hchain := (Cycle.chain_coe_cons _ x l).mp (h.linked _ hc)
  cases l with
  | nil => exact iff_of_true (List.isChain_pair.mp hchain).1 rfl
  | cons y l =>
      obtain ⟨⟨hnext, -⟩, -⟩ := List.isChain_cons_cons.mp hchain
      have hyx : y ≠ x := fun heq => (List.nodup_cons.mp hnodup).1 (by simp [heq])
      apply iff_of_false
      · rwa [hnext]
      · exact fun heq => by simpa using congrArg Cycle.length heq

/-- The sequence of `x`, with `w` in its place.  Besides `x` and the incoming node `item`,
only the pointers of the neighbours of `x` towards `x` change. -/
theorem splice_mem [DecidableEq α] (h : Rings next prev R) (hc : c ∈ R) (hx : x ∈ c)
    (hin : item ∈ c → item = x) (hw : ∀ y ∈ w, y = x ∨ y = item) (hnodup : w.Nodup)
    (hnil : w = [] → c ≠ ↑[x])
    (hnext : ∀ y, y ≠ x → y ≠ item → y ≠ prev x → next' y = next y)
    (hprev : ∀ y, y ≠ x → y ≠ item → y ≠ next x → prev' y = prev y)
    (hone : c = ↑[x] → Cycle.Chain (Linked next' prev') ↑w)
    (hmany : next x ≠ x → prev x ≠ x →
      List.IsChain (Linked next' prev') (prev x :: (w ++ [next x]))) :
    Circular.splice x w c ≠ Cycle.nil ∧ (Circular.splice x w c).Nodup ∧
      (Circular.splice x w c).Chain (Linked next' prev') := by
  obtain ⟨l, rfl⟩ := exists_eq_cons hx
  have hnd : (x :: l).Nodup := h.nodup _ hc
  obtain ⟨hxl, hl⟩ := List.nodup_cons.mp hnd
  have hapart : ∀ y ∈ l, y ≠ x ∧ y ≠ item := by
    intro y hy
    have hyx : y ≠ x := fun heq => hxl (heq ▸ hy)
    refine ⟨hyx, ?_⟩
    rintro rfl
    exact hyx (hin (List.mem_cons_of_mem x hy))
  have hdisj : List.Disjoint w l := by
    intro y hyw hyl
    rcases hw y hyw with heq | heq
    · exact (hapart y hyl).1 heq
    · exact (hapart y hyl).2 heq
  rw [splice_cons hxl]
  refine ⟨?_, hnodup.append hl hdisj, ?_⟩
  · intro heq
    obtain ⟨hempty, rfl⟩ := List.append_eq_nil_iff.mp ((Cycle.coe_eq_nil _).mp heq)
    exact hnil hempty rfl
  · have hchain := (Cycle.chain_coe_cons _ x l).mp (h.linked _ hc)
    cases l with
    | nil =>
        rw [List.append_nil]
        exact hone rfl
    | cons y l =>
        have hyx : y ≠ x := (hapart y List.mem_cons_self).1
        have hxy : next x = y := (List.isChain_cons_cons.mp hchain).1.1
        apply chain_splice hnd hchain
        · exact fun a ha => hnext a (hapart a ha).1 (hapart a ha).2
        · exact fun a ha => hprev a (hapart a ha).1 (hapart a ha).2
        · apply hmany
          · rwa [hxy]
          · intro hself
            have hback := (h.neighbours hc hx).2.2
            rw [hself, hxy] at hback
            exact hyx hback

/-- The rule of a splice.  Besides `x` and the incoming node `item`, only the
pointers of the neighbours of `x` towards `x` change, and `w` is linked between
these neighbours. -/
theorem splice [DecidableEq α] (h : Rings next prev R) (item : α)
    (hw : ∀ y ∈ w, y = x ∨ y = item) (hnodup : w.Nodup) (hx : Member R x)
    (hitem : item = x ∧ w = [] ∨ item ≠ x ∧ w ≠ [] ∧ Free R item)
    (hnext : ∀ y, y ≠ x → y ≠ item → y ≠ prev x → next' y = next y)
    (hprev : ∀ y, y ≠ x → y ≠ item → y ≠ next x → prev' y = prev y)
    (hone : item ≠ x → next x = x → prev x = x → Cycle.Chain (Linked next' prev') ↑w)
    (hmany : next x ≠ x → prev x ≠ x →
      List.IsChain (Linked next' prev') (prev x :: (w ++ [next x]))) :
    Rings next' prev' (Circular.splice x w '' (R \ {↑[item]})) := by
  have hin : ∀ c ∈ R \ {↑[item]}, item ∈ c → item = x := by
    rintro c ⟨hc, hne⟩ hmem
    rcases hitem with ⟨heq, -⟩ | ⟨-, -, hfree⟩
    · exact heq
    · exact absurd (hfree c hc hmem) hne
  have hcases : ∀ c ∈ R \ {↑[item]}, Circular.splice x w c ≠ Cycle.nil ∧
      (Circular.splice x w c).Nodup ∧ (Circular.splice x w c).Chain (Linked next' prev') := by
    rintro c ⟨hc, hne⟩
    by_cases hxc : x ∈ c
    · apply h.splice_mem hc hxc (hin c ⟨hc, hne⟩) hw hnodup ?_ hnext hprev ?_ hmany
      · rintro hnil rfl
        rcases hitem with ⟨rfl, -⟩ | ⟨-, hcons, -⟩
        · exact hne rfl
        · exact hcons hnil
      · rintro rfl
        obtain ⟨hself, hself'⟩ := (Cycle.chain_singleton _ x).mp (h.linked _ hc)
        apply hone _ hself hself'
        rintro rfl
        exact hne rfl
    · rw [splice_of_notMem hxc]
      refine ⟨h.ne_nil c hc, h.nodup c hc, h.linked_congr hc fun y hy => ?_⟩
      obtain ⟨hyx, hyn, hyp⟩ := h.ne_neighbours hc hy hx hxc
      have hyi : y ≠ item := by
        rintro rfl
        exact hyx (hin c ⟨hc, hne⟩ hy)
      exact ⟨hnext y hyx hyi hyp, hprev y hyx hyi hyn⟩
  have hold : ∀ c ∈ R \ {↑[item]}, ∀ y ∈ c, y ≠ x → y ∉ w := by
    intro c hc y hy hne hyw
    rcases hw y hyw with rfl | rfl
    · exact hne rfl
    · exact hne (hin c hc hy)
  refine ⟨?_, ?_, ?_, ?_⟩
  · rintro _ ⟨c, hc, rfl⟩
    exact (hcases c hc).1
  · rintro _ ⟨c, hc, rfl⟩
    exact (hcases c hc).2.1
  · rintro _ ⟨c, hc, rfl⟩ _ ⟨d, hd, rfl⟩ y hyc hyd
    congr 1
    rcases mem_splice.mp hyc with ⟨hyc, hne⟩ | ⟨hxc, hyw⟩
    · rcases mem_splice.mp hyd with ⟨hyd, -⟩ | ⟨-, hyw⟩
      · exact h.disjoint c hc.1 d hd.1 y hyc hyd
      · exact absurd hyw (hold c hc y hyc hne)
    · rcases mem_splice.mp hyd with ⟨hyd, hne⟩ | ⟨hxd, -⟩
      · exact absurd hyw (hold d hd y hyd hne)
      · exact h.disjoint c hc.1 d hd.1 x hxc hxd
  · rintro _ ⟨c, hc, rfl⟩
    exact (hcases c hc).2.2

end Rings

end Hlibc.Circular
