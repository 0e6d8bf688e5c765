import Hlibc.ListObserve

/-!
# Visits that change the list

`list_for_each_entry_safe` reads the next entry before its body runs, so the body may take the
entry it is given out of the list, or move it to another one.  What the visit needs is that no
body touches the `next` of an entry that is still to come.
-/

set_option autoImplicit false

namespace Hlibc.ListNode

open Circular

/-! ## The functions of the source -/

section Functions

variable {α : Type*} [DecidableEq α]

/-- One pass of `list_for_each_entry_safe`; an entry is known by its node, and `body` gives
the calls that are made for it. -/
def listForEachEntrySafePass (body : α → List (Call α)) (head : α)
    (st : α × α × Memory α × List α) :
    Exec (Pass (α × α × Memory α × List α) (List α × Memory α)) :=
  let (pos, tmp, m, visited) := st
  if pos ≠ head then
    let m := (body pos).foldl Call.exec m
    .ok (.next (tmp, m.next tmp, m, visited ++ [pos]))
  else .ok (.done (visited, m))

/-- The entries that `list_for_each_entry_safe` visits in at most `budget` passes, and the
memory behind it. -/
def listForEachEntrySafe (body : α → List (Call α)) (budget : ℕ) (head : α) (m : Memory α) :
    Exec (List α × Memory α) :=
  loop (listForEachEntrySafePass body head) budget
    (m.next head, m.next (m.next head), m, [])

/-- Entries for which `p` holds are moved to the end of the list around `other`. -/
def moveWhere (p : α → Bool) (other pos : α) : List (Call α) :=
  if p pos then [.moveTail pos other] else []

end Functions

variable {α : Type*}

/-! ## What a call does to `next` -/

namespace Call

/-- The nodes whose own `next` a call writes. -/
def owners : Call α → List α
  | nodeInit node => [node]
  | add item node => [item, node]
  | addTail item _ => [item]
  | rm _ => []
  | move item node => [item, node]
  | moveTail item _ => [item]
  | replace _ item => [item]

/-- The nodes that a call puts something in front of, or takes out: the `next` of the node in
front of them is written. -/
def fronts : Call α → List α
  | nodeInit _ => []
  | add _ _ => []
  | addTail _ node => [node]
  | rm node => [node]
  | move item _ => [item]
  | moveTail item node => [item, node]
  | replace old _ => [old]

/-- The call leaves the links between the nodes `later` alone, and the way behind them: the
last of `later` is the head. -/
def Spares (later : List α) (call : Call α) : Prop :=
  (∀ y ∈ later.dropLast, y ∉ call.owners) ∧ ∀ y ∈ later.tail, y ∉ call.fronts

end Call

variable [DecidableEq α] {m : Memory α} {R : Set (Cycle α)} {head item node old other x y : α}
  {nodes later : List α} {calls : List (Call α)} {body : α → List (Call α)}

theorem listAdd_next (hitem : y ≠ item) (hnode : y ≠ node) :
    (listAdd m item node).next y = m.next y := by
  simp [listAdd, listAddBetween, hitem, hnode]

theorem listRm_next (h : Represents m R) (hnode : Member R node) (hy : m.next y ≠ node) :
    (listRm m node).next y = m.next y := by
  obtain ⟨c, hc, hmem⟩ := hnode
  have hne : y ≠ m.prev node := by
    rintro rfl
    exact hy (h.neighbours hc hmem).2.2
  simp [listRm, listRmBetween, hne]

theorem listAddTail_next (h : Represents m R) (hnode : Member R node) (hitem : y ≠ item)
    (hy : m.next y ≠ node) : (listAddTail m item node).next y = m.next y := by
  obtain ⟨c, hc, hmem⟩ := hnode
  have hne : y ≠ m.prev node := by
    rintro rfl
    exact hy (h.neighbours hc hmem).2.2
  simp [listAddTail, listAddBetween, hitem, hne]

/-- A call writes the `next` of its owners, and of the nodes in front of its fronts. -/
theorem exec_next (h : Represents m R) {call : Call α} (hallowed : call.Allowed R)
    (howners : y ∉ call.owners) (hfronts : m.next y ∉ call.fronts) :
    (call.exec m).next y = m.next y := by
  cases call with
  | nodeInit node => simp_all [Call.exec, listNodeInit, Call.owners]
  | add item node =>
      obtain ⟨hitem, hnode⟩ : y ≠ item ∧ y ≠ node := by simpa [Call.owners] using howners
      exact listAdd_next hitem hnode
  | addTail item node =>
      exact listAddTail_next h hallowed.2.1 (by simpa [Call.owners] using howners)
        (by simpa [Call.fronts] using hfronts)
  | rm node => exact listRm_next h hallowed (by simpa [Call.fronts] using hfronts)
  | move item node =>
      obtain ⟨hitem, hnode⟩ : y ≠ item ∧ y ≠ node := by simpa [Call.owners] using howners
      exact (listAdd_next hitem hnode).trans
        (listRm_next h hallowed.1 (by simpa [Call.fronts] using hfronts))
  | moveTail item node =>
      obtain ⟨hmember, hmember', hne⟩ := hallowed
      obtain ⟨hitem, hnode⟩ : m.next y ≠ item ∧ m.next y ≠ node := by
        simpa [Call.fronts] using hfronts
      have hrm := listRm_next h hmember hitem
      rw [← hrm] at hnode
      exact (listAddTail_next (listRm_represents h hmember) (member_delete hmember' hne)
        (by simpa [Call.owners] using howners) hnode).trans hrm
  | replace old item =>
      obtain ⟨-, c, hc, hold, -⟩ := hallowed
      have hitem : y ≠ item := by simpa [Call.owners] using howners
      have hne : y ≠ m.prev old := by
        rintro rfl
        exact hfronts (by simpa [Call.fronts] using (h.neighbours hc hold).2.2)
      simp [Call.exec, listReplace, hitem, hne]

/-- The links between `later` are those of the memory. -/
def Leads (m : Memory α) (later : List α) : Prop :=
  List.IsChain (fun y z => m.next y = z) later

theorem leads_exec (h : Represents m R) {call : Call α} (hallowed : call.Allowed R)
    (hspares : call.Spares later) (hleads : Leads m later) : Leads (call.exec m) later := by
  obtain ⟨howners, hfronts⟩ := hspares
  induction later with
  | nil => exact List.IsChain.nil
  | cons y later ih =>
      cases later with
      | nil => exact List.IsChain.singleton y
      | cons z later =>
          obtain ⟨hlink, hrest⟩ := List.isChain_cons_cons.mp hleads
          have hkept : (call.exec m).next y = m.next y :=
            exec_next h hallowed (howners y (by simp)) (by simpa [hlink] using hfronts z (by simp))
          refine List.isChain_cons_cons.mpr ⟨hkept.trans hlink, ih hrest ?_ ?_⟩
          · exact fun w hw => howners w (by simp [hw])
          · exact fun w hw => hfronts w (List.mem_cons_of_mem z hw)

/-- A run of calls that spare these links keeps them. -/
theorem leads_foldl (h : Represents m R) (hadm : Admissible R calls)
    (hspares : ∀ call ∈ calls, call.Spares later) (hleads : Leads m later) :
    Leads (calls.foldl Call.exec m) later := by
  induction calls generalizing m R with
  | nil => exact hleads
  | cons call calls ih =>
      exact ih (exec_represents h hadm.1) hadm.2
        (fun c hc => hspares c (List.mem_cons_of_mem call hc))
        (leads_exec h hadm.1 (hspares call List.mem_cons_self) hleads)

/-! ## The visit -/

/-- The bodies spare the links between the entries that are still to come. -/
def SparesLater (body : α → List (Call α)) (head : α) : List α → Prop
  | [] => True
  | x :: later =>
      (∀ call ∈ body x, call.Spares (later ++ [head])) ∧ SparesLater body head later

/-- From an entry on, the entries up to the head are visited in the order of their links. -/
theorem listForEachEntrySafe_loop {budget : ℕ} {visited : List α} (h : Represents m R)
    (hleads : Leads m (nodes ++ [head])) (hhead : head ∉ nodes)
    (hadm : Admissible R (nodes.flatMap body)) (hspares : SparesLater body head nodes)
    (hbudget : nodes.length < budget) (hpos : x = nodes.head?.getD head) :
    loop (listForEachEntrySafePass body head) budget (x, m.next x, m, visited) =
      .ok (visited ++ nodes, (nodes.flatMap body).foldl Call.exec m) := by
  induction nodes generalizing budget m R visited x with
  | nil =>
      obtain ⟨budget, rfl⟩ : ∃ k, budget = k + 1 := ⟨budget - 1, by omega⟩
      obtain rfl : x = head := hpos
      have hpass : listForEachEntrySafePass body x (x, m.next x, m, visited) =
          .ok (.done (visited, m)) := by
        simp [listForEachEntrySafePass]
      rw [loop_done hpass, List.append_nil]
      rfl
  | cons y nodes ih =>
      obtain ⟨budget, rfl⟩ : ∃ k, budget = k + 1 := ⟨budget - 1, by omega⟩
      obtain rfl : x = y := hpos
      obtain ⟨hne, hout⟩ := not_or.mp (mt List.mem_cons.mpr hhead)
      rw [List.flatMap_cons, admissible_append] at hadm
      have htmp : m.next x = nodes.head?.getD head := by
        cases nodes with
        | nil => exact (List.isChain_cons_cons.mp hleads).1
        | cons z nodes => exact (List.isChain_cons_cons.mp hleads).1
      have hrest : Leads m (nodes ++ [head]) := List.IsChain.tail hleads
      have hpass : listForEachEntrySafePass body head (x, m.next x, m, visited) =
          .ok (.next (m.next x, ((body x).foldl Call.exec m).next (m.next x),
            (body x).foldl Call.exec m, visited ++ [x])) := by
        simp [listForEachEntrySafePass, Ne.symm hne]
      rw [List.length_cons] at hbudget
      rw [loop_next hpass, ih (foldl_represents h hadm.1)
        (leads_foldl h hadm.1 hspares.1 hrest) hout hadm.2 hspares.2 (by omega) htmp,
        List.flatMap_cons, List.foldl_append, List.append_assoc, List.singleton_append]

/-- `list_for_each_entry_safe` visits the entries of its list. -/
theorem listForEachEntrySafe_eq (h : Represents m R) (hlist : ↑(head :: nodes) ∈ R)
    (hadm : Admissible R (nodes.flatMap body)) (hspares : SparesLater body head nodes)
    {budget : ℕ} (hbudget : nodes.length < budget) :
    listForEachEntrySafe body budget head m =
      .ok (nodes, (nodes.flatMap body).foldl Call.exec m) := by
  have hnodup : (head :: nodes).Nodup := h.nodup _ hlist
  have hchain := (Cycle.chain_coe_cons _ head nodes).mp (h.linked _ hlist)
  have hleads : Leads m (head :: (nodes ++ [head])) := hchain.imp fun _ _ hlink => hlink.1
  exact listForEachEntrySafe_loop h (List.IsChain.tail hleads) (List.nodup_cons.mp hnodup).1
    hadm hspares hbudget (next_head h hlist)

/-- Whatever calls the bodies make, on whatever lists: where they spare the links between the
entries still to come, `list_for_each_entry_safe` visits every entry that was in the list, once
and in order, and the lists are those that the calls make one after the other. -/
theorem listForEachEntrySafe_visits (m : Memory α) (R : Set (Cycle α)) (head : α)
    (nodes : List α) (body : α → List (Call α)) (budget : ℕ) (h : Represents m R)
    (hlist : ↑(head :: nodes) ∈ R) (hadm : Admissible R (nodes.flatMap body))
    (hspares : SparesLater body head nodes) (hbudget : nodes.length < budget) :
    ∃ m', listForEachEntrySafe body budget head m = .ok (nodes, m') ∧
      Represents m' ((nodes.flatMap body).foldl Call.apply R) :=
  ⟨_, listForEachEntrySafe_eq h hlist hadm hspares hbudget, foldl_represents h hadm⟩

/-- Three entries that are taken out of their list one by one. -/
theorem listForEachEntrySafe_visits_three :
    ∃ m', listForEachEntrySafe (fun x => [.rm x]) 4 0 (threeCalls.foldl Call.exec ⟨id, id⟩) =
      .ok ([1, 2, 3], m') ∧
      Represents m' (([1, 2, 3].flatMap fun x => [Call.rm x]).foldl Call.apply
        {↑[0, 1, 2, 3]}) := by
  have hthree : Represents (threeCalls.foldl Call.exec ⟨id, id⟩) {(↑[0, 1, 2, 3] : Cycle ℕ)} := by
    rw [← threeCalls_apply.2]
    exact foldl_represents (Rings.empty _ _) threeCalls_apply.1
  have hone : delete 1 {↑[0, 1, 2, 3]} = {(↑[0, 2, 3] : Cycle ℕ)} :=
    delete_first (by decide) (by decide)
  have htwo : delete 2 {↑[0, 2, 3]} = {(↑[0, 3] : Cycle ℕ)} :=
    delete_first (by decide) (by decide)
  have hadm : Admissible {(↑[0, 1, 2, 3] : Cycle ℕ)} [.rm 1, .rm 2, .rm 3] := by
    simp only [Admissible, Call.apply, hone, htwo, and_true]
    exact ⟨⟨_, rfl, by decide⟩, ⟨_, rfl, by decide⟩, ⟨_, rfl, by decide⟩⟩
  refine listForEachEntrySafe_visits _ _ 0 [1, 2, 3] (fun x => [.rm x]) 4 hthree rfl hadm ?_
    (by decide)
  simp [SparesLater, Call.Spares, Call.owners, Call.fronts]

/-! ## Parting a list -/

theorem mem_delete {before after : List α} (hc : ↑(before ++ x :: after) ∈ R)
    (hbefore : x ∉ before) (hafter : x ∉ after) (hmany : before ++ after ≠ []) :
    ↑(before ++ after) ∈ delete x R := by
  refine ⟨_, ⟨hc, ?_⟩, ?_⟩
  · intro hone
    have hlength := congrArg Cycle.length (Set.mem_singleton_iff.mp hone)
    simp only [Cycle.length_coe, List.length_append, List.length_cons, List.length_nil] at hlength
    have hpos := List.length_pos_of_ne_nil hmany
    rw [List.length_append] at hpos
    omega
  · rw [splice_coe, flatMap_place_append hbefore hafter, List.nil_append]

/-- A new node in front of the head of one of the lists. -/
theorem mem_insertBefore (hc : ↑(head :: nodes) ∈ R) (hitem : item ∉ head :: nodes)
    (hhead : head ∉ nodes) : ↑(head :: (nodes ++ [item])) ∈ insertBefore item head R := by
  refine ⟨_, ⟨hc, fun hone => singleton_notMem hitem ?_⟩, ?_⟩
  · exact (Set.mem_singleton_iff.mp hone).symm
  · rw [splice_cons hhead]
    exact Cycle.coe_cons_eq_coe_append _ _

/-- The calls of a visit that moves the entries with `p`: they are allowed, the entries with `p`
follow those that are around `other`, the others stay, and so do the other lists. -/
theorem moveWhere_apply (p : α → Bool) {kept moved : List α} (h : Represents m R)
    (hlist : ↑(head :: (kept ++ nodes)) ∈ R) (hother : ↑(other :: moved) ∈ R)
    (hne : other ∉ head :: (kept ++ nodes)) :
    Admissible R (nodes.flatMap (moveWhere p other)) ∧
      ↑(head :: (kept ++ nodes.filter fun x => !p x)) ∈
        (nodes.flatMap (moveWhere p other)).foldl Call.apply R ∧
      ↑(other :: (moved ++ nodes.filter p)) ∈
        (nodes.flatMap (moveWhere p other)).foldl Call.apply R ∧
      ∀ c ∈ R, c ≠ ↑(head :: (kept ++ nodes)) → c ≠ ↑(other :: moved) →
        c ∈ (nodes.flatMap (moveWhere p other)).foldl Call.apply R := by
  induction nodes generalizing m R kept moved with
  | nil => exact ⟨trivial, by simpa using hlist, by simpa using hother, fun c hc _ _ => hc⟩
  | cons x nodes ih =>
      rw [List.flatMap_cons, admissible_append, List.foldl_append]
      cases hp : p x with
      | false =>
          have hcalls : moveWhere p other x = [] := by simp [moveWhere, hp]
          have happend : kept ++ x :: nodes = kept ++ [x] ++ nodes := by simp
          rw [happend] at hlist hne
          have hrest := ih h hlist hother hne
          simpa [hcalls, hp, Admissible] using hrest
      | true =>
          have hcalls : moveWhere p other x = [.moveTail x other] := by simp [moveWhere, hp]
          have hnodup : (head :: (kept ++ x :: nodes)).Nodup := h.nodup _ hlist
          have hapart : ∀ c ∈ R, c ≠ ↑(head :: (kept ++ x :: nodes)) → x ∉ c := fun c hc hcne hx =>
            hcne (h.disjoint c hc _ hlist x hx (by simp))
          have hdistinct : (↑(other :: moved) : Cycle α) ≠ ↑(head :: (kept ++ x :: nodes)) := by
            intro heq
            exact hne (show other ∈ (↑(head :: (kept ++ x :: nodes)) : Cycle α) from
              heq ▸ List.mem_cons_self)
          have hxother : x ≠ other := fun heq => hne (by simp [← heq])
          have hallowed : (Call.moveTail x other).Allowed R :=
            ⟨⟨_, hlist, by simp⟩, ⟨_, hother, List.mem_cons_self⟩, hxother⟩
          have hfront : x ∉ head :: kept := by
            intro hmem
            rw [← List.cons_append] at hnodup
            exact (List.nodup_append.mp hnodup).2.2 x hmem x List.mem_cons_self rfl
          have hbehind : x ∉ nodes := by
            rw [← List.cons_append] at hnodup
            exact (List.nodup_cons.mp (List.nodup_append.mp hnodup).2.1).1
          have hrm : ↑(head :: kept ++ nodes) ∈ delete x R :=
            mem_delete hlist hfront hbehind (by simp)
          have hkeep : ∀ c ∈ R, c ≠ ↑(head :: (kept ++ x :: nodes)) → c ∈ delete x R :=
            fun c hc hcne => mem_splice_image hc (hapart c hc hcne) (hapart c hc hcne)
          have hothers : ∀ c ∈ delete x R, other ∉ c →
              c ∈ (Call.moveTail x other).apply R := fun c hc hout =>
            mem_splice_image hc hout (notMem_delete hc)
          have hout : other ∉ head :: (kept ++ nodes) := by
            intro hmem
            refine hne ?_
            simp only [List.mem_cons, List.mem_append] at hmem ⊢
            tauto
          have hmoved : ↑(other :: (moved ++ [x])) ∈ (Call.moveTail x other).apply R :=
            mem_insertBefore (hkeep _ hother hdistinct) (hapart _ hother hdistinct)
              (List.nodup_cons.mp (h.nodup _ hother)).1
          obtain ⟨hadm, hkept, hmoved', hrest⟩ := ih (exec_represents h hallowed)
            (hothers _ hrm hout) hmoved hout
          rw [hcalls]
          refine ⟨⟨⟨hallowed, trivial⟩, hadm⟩, ?_, ?_, ?_⟩
          · simpa [hp] using hkept
          · simpa [hp] using hmoved'
          · intro c hc hcne hcne'
            have houtc : other ∉ c := fun hmem =>
              hcne' (h.disjoint c hc _ hother other hmem List.mem_cons_self)
            refine hrest c (hothers c (hkeep c hc hcne) houtc) ?_ ?_
            · rintro rfl
              exact hcne (h.disjoint _ hc _ hlist head List.mem_cons_self List.mem_cons_self)
            · rintro rfl
              exact houtc List.mem_cons_self

omit [DecidableEq α] in
/-- A visit that moves the entries it is given to another list. -/
theorem moveWhere_spares (p : α → Bool) (hnodup : (head :: nodes).Nodup)
    (hother : other ∉ head :: nodes) : SparesLater (moveWhere p other) head nodes := by
  induction nodes with
  | nil => trivial
  | cons x nodes ih =>
      simp only [List.nodup_cons, List.mem_cons, not_or] at hnodup hother
      refine ⟨?_, ih (by simp [hnodup]) (by simp [hother])⟩
      intro call hcall
      obtain rfl : call = .moveTail x other := by
        cases hp : p x <;> simp_all [moveWhere]
      refine ⟨fun y hy => ?_, fun y hy => ?_⟩
      · rw [List.dropLast_concat] at hy
        rintro heq
        obtain rfl := List.mem_singleton.mp heq
        exact hnodup.2.1 hy
      · have hmem : y ∈ nodes ∨ y = head := by simpa using List.mem_of_mem_tail hy
        simp only [Call.fronts, List.mem_cons, List.not_mem_nil, or_false]
        rintro (rfl | rfl)
        · exact hmem.elim hnodup.2.1 fun heq => hnodup.1.1 heq.symm
        · exact hmem.elim hother.2.2 hother.1

/-- A visit with `list_for_each_entry_safe` whose body moves the entries with `p` to the end of
another list parts the list: the entries without `p` stay, those with `p` come behind what was
around `other`, both in their order, and no other list changes. -/
theorem listForEachEntrySafe_parts (m : Memory α) (R : Set (Cycle α)) (head other : α)
    (nodes others : List α) (p : α → Bool) (budget : ℕ) (h : Represents m R)
    (hlist : ↑(head :: nodes) ∈ R) (hother : ↑(other :: others) ∈ R)
    (hne : other ∉ head :: nodes) (hbudget : nodes.length < budget) :
    ∃ m' R', listForEachEntrySafe (moveWhere p other) budget head m = .ok (nodes, m') ∧
      Represents m' R' ∧ ↑(head :: nodes.filter fun x => !p x) ∈ R' ∧
      ↑(other :: (others ++ nodes.filter p)) ∈ R' ∧
      ∀ c ∈ R, c ≠ ↑(head :: nodes) → c ≠ ↑(other :: others) → c ∈ R' := by
  obtain ⟨hadm, hkept, hmoved, hrest⟩ :=
    moveWhere_apply p h (show ↑(head :: ([] ++ nodes)) ∈ R from hlist) hother hne
  have hrun := listForEachEntrySafe_eq h hlist hadm (moveWhere_spares p (h.nodup _ hlist) hne)
    hbudget
  exact ⟨_, _, hrun, foldl_represents h hadm, hkept, hmoved, hrest⟩

/-- Of three entries, the second one is moved to a list of its own. -/
theorem listForEachEntrySafe_parts_three :
    ∃ m' R', listForEachEntrySafe (moveWhere (· = 2) 4) 4 0
        (listNodeInit (threeCalls.foldl Call.exec ⟨id, id⟩) 4) = .ok ([1, 2, 3], m') ∧
      Represents m' R' ∧ (↑[0, 1, 3] : Cycle ℕ) ∈ R' ∧ (↑[4, 2] : Cycle ℕ) ∈ R' := by
  have hthree : Represents (threeCalls.foldl Call.exec ⟨id, id⟩) {(↑[0, 1, 2, 3] : Cycle ℕ)} := by
    rw [← threeCalls_apply.2]
    exact foldl_represents (Rings.empty _ _) threeCalls_apply.1
  have hfree : Free {(↑[0, 1, 2, 3] : Cycle ℕ)} 4 := by
    rintro c rfl hmem
    revert hmem
    decide
  obtain ⟨m', R', hrun, hrepr, hkept, hmoved, -⟩ := listForEachEntrySafe_parts _ _ 0 4 [1, 2, 3]
    [] (· = 2) 4 (listNodeInit_represents hthree hfree) (Set.mem_insert_of_mem _ rfl)
    (Set.mem_insert _ _) (by decide) (by decide)
  exact ⟨m', R', hrun, hrepr, hkept, hmoved⟩

end Hlibc.ListNode
