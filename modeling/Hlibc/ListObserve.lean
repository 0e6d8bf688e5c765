import Hlibc.ListNode
import Hlibc.Support.Exec

/-!
# What the observers of `list.h` see

`list_for_each` follows `next`, so the first node it visits is behind the head.
`list_is_first` looks in front of the head, and `list_is_last` behind it: each
answers the question of the other.
-/

set_option autoImplicit false

namespace Hlibc.ListNode

open Circular

/-! ## The functions of the source -/

section Functions

variable {α : Type*} [DecidableEq α] (m : Memory α)

def listIsFirst (item node : α) : Bool := m.prev node = item

def listIsLast (item node : α) : Bool := m.next node = item

def listEmpty (node : α) : Bool := m.next node = node

/-- `list_first_entry`; an entry is known by its node. -/
def listFirstEntry (head : α) : α := m.next head

/-- `list_last_entry`. -/
def listLastEntry (head : α) : α := m.prev head

/-- One pass of `list_for_each`, whose body notes the node. -/
def listForEachPass (head : α) (st : α × List α) : Exec (Pass (α × List α) (List α)) :=
  let (pos, visited) := st
  if pos ≠ head then .ok (.next (m.next pos, visited ++ [pos])) else .ok (.done visited)

/-- The nodes that `list_for_each` visits, in at most `budget` passes. -/
def listForEach (budget : ℕ) (head : α) : Exec (List α) :=
  loop (listForEachPass m head) budget (m.next head, [])

end Functions

/-! ## What they promise -/

variable {α : Type*} [DecidableEq α]

/-- The observers agree with a visit of the nodes `visited`: about `item` as the first and as
the last of them, and about there being none. -/
structure Observes (m : Memory α) (head item : α) (visited : List α) : Prop where
  first : listIsFirst m item head = true ↔ visited.head? = some item
  first_entry : visited.head? = some item → listFirstEntry m head = item
  last : listIsLast m item head = true ↔ visited.getLast? = some item
  last_entry : visited.getLast? = some item → listLastEntry m head = item
  empty : listEmpty m head = true ↔ visited = []

/-- `item` is the only node of the list, or at neither end of it; and it is not the head of an
empty list. -/
def NoEnd (head item : α) (nodes : List α) : Prop :=
  (nodes = [item] ∨ nodes.head? ≠ some item ∧ nodes.getLast? ≠ some item) ∧
    (nodes = [] → item ≠ head)

variable {m : Memory α} {R : Set (Cycle α)} {head item : α} {nodes : List α}

/-! ## Sequences around a head -/

section Head

omit [DecidableEq α] in
theorem singleton_notMem (hitem : item ∉ head :: nodes) :
    (↑[item] : Cycle α) ∉ ({↑(head :: nodes)} : Set (Cycle α)) := by
  intro heq
  have hmem : item ∈ (↑(head :: nodes) : Cycle α) := by
    rw [← Set.mem_singleton_iff.mp heq]
    exact List.mem_singleton_self item
  exact hitem hmem

theorem insertAfter_head (hitem : item ∉ head :: nodes) (hhead : head ∉ nodes) :
    insertAfter item head {↑(head :: nodes)} = {↑(head :: item :: nodes)} := by
  rw [insertAfter, Set.sdiff_singleton_eq_self (singleton_notMem hitem), Set.image_singleton,
    splice_cons hhead]
  rfl

theorem insertBefore_head (hitem : item ∉ head :: nodes) (hhead : head ∉ nodes) :
    insertBefore item head {↑(head :: nodes)} = {↑(head :: (nodes ++ [item]))} := by
  rw [insertBefore, Set.sdiff_singleton_eq_self (singleton_notMem hitem), Set.image_singleton,
    splice_cons hhead]
  congr 1
  exact Cycle.coe_cons_eq_coe_append _ _

theorem delete_first (hitem : item ≠ head) (hnodes : item ∉ nodes) :
    delete item {↑(head :: item :: nodes)} = {↑(head :: nodes)} := by
  have hmany : (↑[item] : Cycle α) ∉ ({↑(head :: item :: nodes)} : Set (Cycle α)) := by
    intro heq
    have hlength := congrArg Cycle.length (Set.mem_singleton_iff.mp heq)
    simp at hlength
  have hfront : item ∉ [head] := mt List.mem_singleton.mp hitem
  have hrest : (head :: item :: nodes).flatMap (place item []) = head :: nodes :=
    flatMap_place_append hfront hnodes
  rw [delete, Set.sdiff_singleton_eq_self hmany, Set.image_singleton, splice_coe, hrest]

end Head

/-! ## The visit -/

/-- From a node on, the nodes up to the head are visited in the order of their links. -/
theorem listForEach_loop {budget : ℕ} {x : α} {visited : List α}
    (hchain : List.IsChain (Linked m.next m.prev) (x :: (nodes ++ [head])))
    (hhead : head ∉ nodes) (hbudget : nodes.length < budget) :
    loop (listForEachPass m head) budget (m.next x, visited) = .ok (visited ++ nodes) := by
  induction nodes generalizing budget x visited with
  | nil =>
      obtain ⟨budget, rfl⟩ : ∃ k, budget = k + 1 := ⟨budget - 1, by omega⟩
      obtain ⟨hnext, -⟩ := List.isChain_pair.mp hchain
      have hpass : listForEachPass m head (m.next x, visited) = .ok (.done visited) := by
        simp [listForEachPass, hnext]
      rw [loop_done hpass, List.append_nil]
  | cons y nodes ih =>
      obtain ⟨budget, rfl⟩ : ∃ k, budget = k + 1 := ⟨budget - 1, by omega⟩
      obtain ⟨⟨hnext, -⟩, hrest⟩ := List.isChain_cons_cons.mp hchain
      obtain ⟨hne, hout⟩ := not_or.mp (mt List.mem_cons.mpr hhead)
      have hpass : listForEachPass m head (m.next x, visited) =
          .ok (.next (m.next y, visited ++ [y])) := by
        simp [listForEachPass, hnext, Ne.symm hne]
      rw [List.length_cons] at hbudget
      rw [loop_next hpass, ih hrest hout (by omega), List.append_assoc, List.singleton_append]

/-- `list_for_each` visits the nodes of its list. -/
theorem listForEach_eq (h : Represents m R) (hnodes : ↑(head :: nodes) ∈ R) {budget : ℕ}
    (hbudget : nodes.length < budget) : listForEach m budget head = .ok nodes := by
  have hnodup : (head :: nodes).Nodup := h.nodup _ hnodes
  have hchain := (Cycle.chain_coe_cons _ head nodes).mp (h.linked _ hnodes)
  exact listForEach_loop hchain (List.nodup_cons.mp hnodup).1 hbudget

/-! ## The neighbours of the head -/

section Neighbours

omit [DecidableEq α]

/-- Behind the head is the first node, or the head itself. -/
theorem next_head (h : Represents m R) (hnodes : ↑(head :: nodes) ∈ R) :
    m.next head = nodes.head?.getD head := by
  have hchain := (Cycle.chain_coe_cons _ head nodes).mp (h.linked _ hnodes)
  cases nodes with
  | nil => exact (List.isChain_pair.mp hchain).1
  | cons x nodes => exact (List.isChain_cons_cons.mp hchain).1.1

/-- Behind the first node is the second, or the head. -/
theorem next_first (h : Represents m R) (hnodes : ↑(head :: item :: nodes) ∈ R) :
    m.next item = nodes.head?.getD head := by
  rw [Cycle.coe_cons_eq_coe_append, List.cons_append] at hnodes
  rw [next_head h hnodes]
  cases nodes <;> rfl

/-- In front of the head is the last node, or the head itself. -/
theorem prev_head (h : Represents m R) (hnodes : ↑(head :: nodes) ∈ R) :
    m.prev head = nodes.getLast?.getD head := by
  have hchain := (Cycle.chain_coe_cons _ head nodes).mp (h.linked _ hnodes)
  rcases List.eq_nil_or_concat nodes with rfl | ⟨front, x, rfl⟩
  · exact (List.isChain_pair.mp hchain).2
  · have hsplit : List.IsChain (Linked m.next m.prev) ((head :: front) ++ x :: [head]) := by
      simpa using hchain
    rw [List.concat_eq_append, List.getLast?_concat]
    exact (List.isChain_pair.mp (List.isChain_split.mp hsplit).2).2

/-- A list without repetitions whose first node is its last has no other. -/
theorem eq_singleton_of_ends (hnodup : nodes.Nodup) (hfirst : nodes.head? = some item)
    (hlast : nodes.getLast? = some item) : nodes = [item] := by
  cases nodes with
  | nil => cases hfirst
  | cons x rest =>
      obtain rfl := Option.some.inj hfirst
      rcases List.eq_nil_or_concat rest with rfl | ⟨front, y, rfl⟩
      · rfl
      · have hends : (x :: front ++ [y]).getLast? = some x := by simpa using hlast
        rw [List.getLast?_concat] at hends
        obtain rfl := Option.some.inj hends
        exact absurd (List.nodup_cons.mp hnodup).1 (by simp)

/-- With a first node `x` and a last node `y`, `item` is both or none of them. -/
theorem noEnd_iff {x y : α} (hnodup : nodes.Nodup) (hfirst : nodes.head? = some x)
    (hlast : nodes.getLast? = some y) : NoEnd head item nodes ↔ (y = item ↔ x = item) := by
  have hne : nodes ≠ [] := by
    rintro rfl
    cases hfirst
  simp only [NoEnd, hfirst, hlast, ne_eq, Option.some.injEq]
  constructor
  · rintro ⟨rfl | ⟨hx, hy⟩, -⟩
    · obtain rfl := Option.some.inj hfirst
      obtain rfl := Option.some.inj hlast
      exact Iff.rfl
    · exact iff_of_false hy hx
  · intro hends
    refine ⟨?_, fun hnil => absurd hnil hne⟩
    by_cases hx : x = item
    · obtain rfl := hx
      obtain rfl := hends.mpr rfl
      exact Or.inl (eq_singleton_of_ends hnodup hfirst hlast)
    · exact Or.inr ⟨hx, fun hy => hx (hends.mp hy)⟩

end Neighbours

/-! ## Agreement -/

/-- Around an empty list, the head alone is taken for a node. -/
theorem observes_nil (h : Represents m R) (hnodes : ↑[head] ∈ R) :
    Observes m head item [] ↔ NoEnd head item [] := by
  have hnext : m.next head = head := next_head h hnodes
  have hprev : m.prev head = head := prev_head h hnodes
  constructor
  · rintro ⟨hfirst, -, -, -, -⟩
    refine ⟨Or.inr ⟨by simp, by simp⟩, fun _ heq => ?_⟩
    have hnone := hfirst.mp (by simp [listIsFirst, hprev, heq])
    cases hnone
  · rintro ⟨-, hne⟩
    have hapart : head ≠ item := Ne.symm (hne rfl)
    constructor
    · simp [listIsFirst, hprev, hapart]
    · simp
    · simp [listIsLast, hnext, hapart]
    · simp
    · simp [listEmpty, hnext]

/-- `list_is_first` asks for the last node `y`, and `list_is_last` for the first node `x`. -/
theorem observes_ends {x y : α} (hnext : m.next head = x) (hprev : m.prev head = y)
    (hfirst : nodes.head? = some x) (hlast : nodes.getLast? = some y) (hx : x ≠ head) :
    Observes m head item nodes ↔ (y = item ↔ x = item) := by
  have hisFirst : listIsFirst m item head = true ↔ y = item := by
    rw [listIsFirst, hprev, decide_eq_true_eq]
  have hisLast : listIsLast m item head = true ↔ x = item := by
    rw [listIsLast, hnext, decide_eq_true_eq]
  constructor
  · rintro ⟨hagrees, -, -, -, -⟩
    rwa [hisFirst, hfirst, Option.some.injEq] at hagrees
  · intro hends
    constructor
    · rw [hisFirst, hfirst, Option.some.injEq, hends]
    · intro hitem
      rw [listFirstEntry, hnext]
      exact Option.some.inj (hfirst.symm.trans hitem)
    · rw [hisLast, hlast, Option.some.injEq, hends]
    · intro hitem
      rw [listLastEntry, hprev]
      exact Option.some.inj (hlast.symm.trans hitem)
    · rw [listEmpty, hnext, decide_eq_true_eq]
      refine iff_of_false hx ?_
      rintro rfl
      cases hfirst

/-- The observers agree with the visit exactly about nodes at no end. -/
theorem observes_iff_noEnd (h : Represents m R) (hnodes : ↑(head :: nodes) ∈ R) :
    Observes m head item nodes ↔ NoEnd head item nodes := by
  have hnodup : (head :: nodes).Nodup := h.nodup _ hnodes
  obtain ⟨hhead, hdistinct⟩ := List.nodup_cons.mp hnodup
  have hnext := next_head h hnodes
  have hprev := prev_head h hnodes
  cases nodes with
  | nil => exact observes_nil h hnodes
  | cons x rest =>
      obtain ⟨y, hy⟩ : ∃ y, (x :: rest).getLast? = some y :=
        ⟨_, List.getLast?_eq_some_getLast (List.cons_ne_nil x rest)⟩
      have hx : x ≠ head := fun heq => hhead (heq ▸ List.mem_cons_self)
      rw [hy, Option.getD_some] at hprev
      rw [noEnd_iff hdistinct rfl hy]
      exact observes_ends hnext hprev rfl hy hx

/-! ## After any run of calls -/

/-- After any run of allowed calls, `list_for_each` visits the nodes around the head, and the
observers agree with it about `item` exactly if `item` is at no end, or the only node. -/
theorem observers_agree_iff (m : Memory α) (R : Set (Cycle α)) (calls : List (Call α))
    (head item : α) (nodes : List α) (budget : ℕ) (h : Represents m R)
    (hadm : Admissible R calls) (hnodes : ↑(head :: nodes) ∈ calls.foldl Call.apply R)
    (hbudget : nodes.length < budget) :
    listForEach (calls.foldl Call.exec m) budget head = .ok nodes ∧
      (Observes (calls.foldl Call.exec m) head item nodes ↔ NoEnd head item nodes) := by
  have hend := foldl_represents h hadm
  exact ⟨listForEach_eq hend hnodes hbudget, observes_iff_noEnd hend hnodes⟩

/-- The calls that link three nodes behind the head 0. -/
def threeCalls : List (Call ℕ) := [.nodeInit 0, .addTail 1 0, .addTail 2 0, .addTail 3 0]

theorem threeCalls_apply : Admissible ∅ threeCalls ∧
    threeCalls.foldl Call.apply ∅ = {↑[0, 1, 2, 3]} := by
  have hzero : (insert ↑[0] ∅ : Set (Cycle ℕ)) = {↑[0]} := insert_empty_eq _
  have hone : insertBefore 1 0 {↑[0]} = {↑[0, 1]} := insertBefore_head (by decide) (by decide)
  have htwo : insertBefore 2 0 {↑[0, 1]} = {↑[0, 1, 2]} :=
    insertBefore_head (by decide) (by decide)
  have hthree : insertBefore 3 0 {↑[0, 1, 2]} = {↑[0, 1, 2, 3]} :=
    insertBefore_head (by decide) (by decide)
  have hallowed : ∀ (item : ℕ) (nodes : List ℕ), item ∉ 0 :: nodes →
      (Call.addTail item 0).Allowed {↑(0 :: nodes)} := by
    intro item nodes hitem
    refine ⟨?_, ⟨_, rfl, List.mem_cons_self⟩, fun heq => hitem (heq ▸ List.mem_cons_self)⟩
    rintro c rfl hmem
    exact absurd hmem hitem
  simp only [threeCalls, Admissible, List.foldl_cons, List.foldl_nil, Call.apply, hzero, hone,
    htwo, hthree, and_true]
  refine ⟨?_, hallowed 1 [] (by decide), hallowed 2 [1] (by decide),
    hallowed 3 [1, 2] (by decide)⟩
  rintro c hc
  exact absurd hc (Set.notMem_empty c)

/-- About the node in the middle of three. -/
theorem observers_agree_iff_middle :
    Observes (threeCalls.foldl Call.exec ⟨id, id⟩) 0 2 [1, 2, 3] :=
  (observers_agree_iff ⟨id, id⟩ ∅ threeCalls 0 2 [1, 2, 3] 4 (Rings.empty _ _)
    threeCalls_apply.1 (by rw [threeCalls_apply.2]; rfl) (by decide)).2.mpr
    ⟨Or.inr ⟨by decide, by decide⟩, by decide⟩

/-- The first of three nodes is not taken for the first. -/
theorem listIsFirst_misses :
    ¬ ∀ (calls : List (Call ℕ)) (head item : ℕ) (nodes : List ℕ), Admissible ∅ calls →
      ↑(head :: nodes) ∈ calls.foldl Call.apply ∅ →
        Observes (calls.foldl Call.exec ⟨id, id⟩) head item nodes := by
  intro hall
  have hobserves := hall threeCalls 0 1 [1, 2, 3] threeCalls_apply.1
    (by rw [threeCalls_apply.2]; rfl)
  have hfirst := hobserves.first.mpr rfl
  revert hfirst
  decide

end Hlibc.ListNode
