import Hlibc.Htest.Report

/-!
# The global suites

Suites are declared in front of the program, each by a node on one global list, and
`htest_run_global_suites` runs them.  The counter of a declaration is an `int`, which overflows
behind 2^31 suites.  A suite that is declared again is put in front of a list that it is on
already, and from then on the list leads round without coming back to its head.
-/

set_option autoImplicit false

namespace Hlibc.ListNode

open Circular

variable {α : Type*} [DecidableEq α] {m : Memory α} {head item : α} {nodes before : List α}

/-! ## Lists that come back -/

/-- A node that is not on the list is added in front of it. -/
theorem listAdd_head_represents (h : Represents m {↑(head :: nodes)})
    (hitem : item ∉ head :: nodes) :
    Represents (listAdd m item head) {↑(head :: item :: nodes)} := by
  have hhead : head ∉ nodes := (List.nodup_cons.mp (h.nodup _ rfl)).1
  have hfree : Free {↑(head :: nodes)} item := by
    rintro c rfl hmem
    exact absurd hmem hitem
  have hmember : Member {↑(head :: nodes)} head := ⟨_, rfl, List.mem_cons_self⟩
  have hadd := listAdd_represents h hfree hmember (List.ne_of_not_mem_cons hitem)
  rwa [insertAfter_head hitem hhead] at hadd

/-! ## Lists that do not -/

/-- From the head on, `next` leads round without coming back to the head. -/
def Trapped (m : Memory α) (head : α) : Prop :=
  ∃ S : Set α, m.next head ∈ S ∧ head ∉ S ∧ ∀ x ∈ S, m.next x ∈ S

theorem next_listAdd (hne : item ≠ head) :
    (listAdd m item head).next head = item ∧
      (listAdd m item head).next item = m.next head ∧
      ∀ x, x ≠ head → x ≠ item → (listAdd m item head).next x = m.next x := by
  refine ⟨?_, ?_, fun x hhead hitem => ?_⟩
  · simp [listAdd, listAddBetween, hne.symm]
  · simp [listAdd, listAddBetween]
  · simp [listAdd, listAddBetween, hhead, hitem]

omit [DecidableEq α] in
/-- In front of a node of a chain, `next` leads to a node in front of it, or to it. -/
theorem next_mem_of_chain {x y : α} {behind : List α}
    (hchain : List.IsChain (Linked m.next m.prev) (x :: (before ++ y :: behind))) :
    ∀ z ∈ x :: before, m.next z ∈ before ++ [y] := by
  induction before generalizing x with
  | nil =>
      intro z hz
      obtain rfl := List.mem_singleton.mp hz
      rw [(List.isChain_cons_cons.mp hchain).1.1]
      exact List.mem_singleton_self y
  | cons b before ih =>
      obtain ⟨⟨hnext, -⟩, hrest⟩ := List.isChain_cons_cons.mp hchain
      intro z hz
      rcases List.mem_cons.mp hz with rfl | hz
      · rw [hnext]
        exact List.mem_cons_self
      · exact List.mem_cons_of_mem b (ih hrest z hz)

/-- A node of the list that is added again leads back into the list in front of it. -/
theorem trapped_of_mem (h : Represents m {↑(head :: nodes)}) (hitem : item ∈ nodes) :
    Trapped (listAdd m item head) head := by
  obtain ⟨before, behind, rfl⟩ := List.append_of_mem hitem
  have hnodup : (head :: (before ++ item :: behind)).Nodup := h.nodup _ rfl
  have hhead := (List.nodup_cons.mp hnodup).1
  have hchain := (Cycle.chain_coe_cons _ head _).mp (h.linked _ rfl)
  rw [List.append_assoc, List.cons_append] at hchain
  have hmem := next_mem_of_chain hchain
  obtain ⟨hfirst, hback, hkept⟩ := next_listAdd (m := m)
    (show item ≠ head from fun heq => hhead (heq ▸ hitem))
  refine ⟨{x | x ∈ before ++ [item]}, ?_, ?_, ?_⟩
  · rw [hfirst]
    exact List.mem_append_right before (List.mem_singleton_self item)
  · intro hin
    rcases List.mem_append.mp hin with hin | hin
    · exact hhead (List.mem_append_left _ hin)
    · exact hhead (List.mem_append_right _ (List.mem_singleton.mp hin ▸ List.mem_cons_self))
  · intro x hx
    by_cases heq : x = item
    · rw [heq, hback]
      exact hmem head List.mem_cons_self
    · have hbefore : x ∈ before := by simpa [heq] using hx
      have hne : x ≠ head := by
        rintro rfl
        exact hhead (List.mem_append_left _ hbefore)
      rw [hkept x hne heq]
      exact hmem x (List.mem_cons_of_mem head hbefore)

/-- Whatever is added to such a list, it stays one. -/
theorem Trapped.listAdd (h : Trapped m head) (hne : item ≠ head) :
    Trapped (listAdd m item head) head := by
  obtain ⟨S, hnext, hhead, hclosed⟩ := h
  obtain ⟨hfirst, hback, hkept⟩ := next_listAdd (m := m) hne
  refine ⟨insert item S, ?_, ?_, ?_⟩
  · rw [hfirst]
    exact Set.mem_insert item S
  · rintro (heq | hmem)
    · exact hne heq.symm
    · exact hhead hmem
  · intro x hx
    by_cases heq : x = item
    · rw [heq, hback]
      exact Set.mem_insert_of_mem item hnext
    · have hmem : x ∈ S := hx.resolve_left heq
      have hxhead : x ≠ head := fun heq => hhead (heq ▸ hmem)
      rw [hkept x hxhead heq]
      exact Set.mem_insert_of_mem item (hclosed x hmem)

end Hlibc.ListNode

namespace Hlibc.Htest

open ListNode (Represents Trapped)

/-! ## The functions of the source -/

/-- A `struct list_node`: `__htest_global_suite_list`, or `list` of the suite at an address. -/
inductive SuiteNode where
  | head
  | suite (addr : ℕ)
  deriving DecidableEq

/-- One pass of the loop of `__htest_declare_suites`, whose counter is an `int`. -/
def htestDeclarePass (suites : List ℕ) (st : ℕ × ListNode.Memory SuiteNode) :
    Exec (Pass (ℕ × ListNode.Memory SuiteNode) (ListNode.Memory SuiteNode)) :=
  let (i, links) := st
  match suites[i]? with
  | some addr => do
      let links := ListNode.listAdd links (.suite addr) .head
      let i ← incInt i
      .ok (.next (i, links))
  | none => .ok (.done links)

/-- `__htest_declare_suites`, of the suites at these addresses. -/
def htestDeclareSuites (links : ListNode.Memory SuiteNode) (suites : List ℕ) :
    Exec (ListNode.Memory SuiteNode) :=
  loop (htestDeclarePass suites) (suites.length + 1) (0, links)

/-- Calls of `__htest_declare_suites`, one after the other. -/
def declareCalls : ListNode.Memory SuiteNode → List (List ℕ) → Exec (ListNode.Memory SuiteNode)
  | links, [] => .ok links
  | links, suites :: calls => do
      let links ← htestDeclareSuites links suites
      declareCalls links calls

/-- One pass of the loop of `htest_run_global_suites`. -/
def runGlobalPass (malloc : Malloc) (budget : ℕ) (suites : ℕ → Suite)
    (links : ListNode.Memory SuiteNode) (st : SuiteNode × State) :
    Exec (Pass (SuiteNode × State) State) :=
  match st.1 with
  | .head => .ok (.done st.2)
  | .suite addr => do
      let (_, _, s) ← htestRunSuite malloc budget (suites addr) true st.2
      .ok (.next (links.next (.suite addr), s))

/-- `htest_run_global_suites`, in at most `passes` passes. -/
def htestRunGlobalSuites (malloc : Malloc) (budget passes : ℕ) (suites : ℕ → Suite)
    (links : ListNode.Memory SuiteNode) (s : State) : Exec State :=
  loop (runGlobalPass malloc budget suites links) passes (links.next .head, s)

/-! ## What they promise -/

/-- The runs of the suites at these addresses, one after the other. -/
def runSuites (malloc : Malloc) (budget : ℕ) (suites : ℕ → Suite) : List ℕ → State → Exec State
  | [], s => .ok s
  | addr :: addrs, s => do
      let (_, _, s) ← htestRunSuite malloc budget (suites addr) true s
      runSuites malloc budget suites addrs s

section Global

variable {malloc : Malloc} {budget : ℕ} {suites : ℕ → Suite}
  {links : ListNode.Memory SuiteNode} {s s' : State}

/-- The list of the suites at these addresses. -/
def suiteRing (addrs : List ℕ) : Cycle SuiteNode := ↑(SuiteNode.head :: addrs.map .suite)

/-- The suites at these addresses in front of the list, one after the other. -/
def addSuites (links : ListNode.Memory SuiteNode) (addrs : List ℕ) :
    ListNode.Memory SuiteNode :=
  addrs.foldl (fun links addr => ListNode.listAdd links (.suite addr) .head) links

/-- From an index on, the loop adds the suites that are left, or its counter overflows. -/
theorem htestDeclare_loop {suites before : List ℕ} (rest : List ℕ) {budget : ℕ}
    (hsuites : suites = before ++ rest) (hbefore : before.length < 2 ^ 31)
    (hbudget : rest.length < budget) :
    loop (htestDeclarePass suites) budget (before.length, links) =
      if suites.length < 2 ^ 31 then .ok (addSuites links rest) else .error .overflow := by
  induction rest generalizing before links budget with
  | nil =>
      obtain ⟨budget, rfl⟩ : ∃ k, budget = k + 1 := ⟨budget - 1, by omega⟩
      rw [List.append_nil] at hsuites
      subst hsuites
      have hpass : htestDeclarePass suites (suites.length, links) = .ok (.done links) := by
        simp [htestDeclarePass]
      rw [loop_done hpass, if_pos hbefore]
      rfl
  | cons addr rest ih =>
      obtain ⟨budget, rfl⟩ : ∃ k, budget = k + 1 := ⟨budget - 1, by omega⟩
      have hentry : suites[before.length]? = some addr := by simp [hsuites]
      have hlength : suites.length = before.length + (rest.length + 1) := by
        rw [hsuites, List.length_append, List.length_cons]
      by_cases hint : before.length < 2 ^ 31 - 1
      · have hpass : htestDeclarePass suites (before.length, links) = .ok (.next
            ((before ++ [addr]).length, ListNode.listAdd links (.suite addr) .head)) := by
          simp [htestDeclarePass, hentry, incInt_of_lt hint]
        rw [loop_next hpass]
        refine ih (by simp [hsuites]) ?_ (by rw [List.length_cons] at hbudget; omega)
        rw [List.length_append, List.length_singleton]
        omega
      · have hpass : htestDeclarePass suites (before.length, links) = .error .overflow := by
          have hfull : incInt before.length = .error .overflow := if_neg hint
          simp only [htestDeclarePass, hentry, hfull, Exec.error_bind]
        rw [loop_error hpass, if_neg (by omega)]

/-- A call of `__htest_declare_suites` adds its suites, unless its counter overflows. -/
theorem htestDeclareSuites_eq (links : ListNode.Memory SuiteNode) (suites : List ℕ) :
    htestDeclareSuites links suites =
      if suites.length < 2 ^ 31 then .ok (addSuites links suites) else .error .overflow :=
  htestDeclare_loop suites (List.nil_append suites).symm (by decide) (Nat.lt_succ_self _)

/-- The calls add all suites, unless a counter overflows. -/
theorem declareCalls_eq (links : ListNode.Memory SuiteNode) (calls : List (List ℕ)) :
    declareCalls links calls =
      if ∀ suites ∈ calls, suites.length < 2 ^ 31 then .ok (addSuites links calls.flatten)
      else .error .overflow := by
  induction calls generalizing links with
  | nil =>
      rw [if_pos fun _ hmem => absurd hmem List.not_mem_nil]
      rfl
  | cons suites calls ih =>
      rw [declareCalls, htestDeclareSuites_eq]
      by_cases hsuites : suites.length < 2 ^ 31
      · have happend : addSuites links (suites :: calls).flatten =
            addSuites (addSuites links suites) calls.flatten := by
          rw [List.flatten_cons, addSuites, List.foldl_append]
          rfl
        rw [if_pos hsuites, Exec.ok_bind, ih, happend]
        simp only [List.forall_mem_cons, hsuites, true_and]
      · rw [if_neg hsuites, if_neg fun h => hsuites (h suites List.mem_cons_self)]
        rfl

/-- Suites that are added once are on the list, the last one first. -/
theorem addSuites_represents (addrs : List ℕ) {declared : List ℕ}
    (h : Represents links {suiteRing declared}) (hnodup : (addrs.reverse ++ declared).Nodup) :
    Represents (addSuites links addrs) {suiteRing (addrs.reverse ++ declared)} := by
  induction addrs generalizing links declared with
  | nil => exact h
  | cons addr addrs ih =>
      rw [List.reverse_cons, List.append_assoc, List.singleton_append] at hnodup ⊢
      have hout : addr ∉ declared := (List.nodup_cons.mp (List.nodup_append.mp hnodup).2.1).1
      exact ih (ListNode.listAdd_head_represents h (by simpa using hout)) hnodup

/-- Behind a suite that is added again, the list does not come back. -/
theorem addSuites_trapped (addrs : List ℕ) (h : Trapped links .head) :
    Trapped (addSuites links addrs) .head := by
  induction addrs generalizing links with
  | nil => exact h
  | cons addr addrs ih => exact ih (h.listAdd (by simp))

theorem addSuites_trapped_of_not_nodup (addrs : List ℕ) {declared : List ℕ}
    (h : Represents links {suiteRing declared}) (hdeclared : declared.Nodup)
    (hdup : ¬ (addrs.reverse ++ declared).Nodup) :
    Trapped (addSuites links addrs) .head := by
  induction addrs generalizing links declared with
  | nil => exact absurd hdeclared hdup
  | cons addr addrs ih =>
      by_cases hmem : addr ∈ declared
      · exact addSuites_trapped addrs
          (ListNode.trapped_of_mem h (List.mem_map_of_mem hmem))
      · rw [List.reverse_cons, List.append_assoc, List.singleton_append] at hdup
        exact ih (ListNode.listAdd_head_represents h (by simpa using hmem))
          (List.nodup_cons.mpr ⟨hmem, hdeclared⟩) hdup

theorem runGlobalPass_error {addr : ℕ} {e : Fault}
    (hrun : htestRunSuite malloc budget (suites addr) true s = .error e) :
    runGlobalPass malloc budget suites links (.suite addr, s) = .error e := by
  simp only [runGlobalPass, hrun, Exec.error_bind]

theorem runGlobalPass_next {addr : ℕ} {result : ℤ × Stats × State}
    (hrun : htestRunSuite malloc budget (suites addr) true s = .ok result) :
    runGlobalPass malloc budget suites links (.suite addr, s) =
      .ok (.next (links.next (.suite addr), result.2.2)) := by
  simp only [runGlobalPass, hrun, Exec.ok_bind]

/-- From a node on, the suites up to the head are run in the order of their links. -/
theorem runGlobal_loop {passes : ℕ} {x : SuiteNode} {addrs : List ℕ}
    (hchain : List.IsChain (Circular.Linked links.next links.prev)
      (x :: (addrs.map .suite ++ [SuiteNode.head]))) :
    loop (runGlobalPass malloc budget suites links) passes (links.next x, s) = .ok s' ↔
      addrs.length < passes ∧ runSuites malloc budget suites addrs s = .ok s' := by
  induction addrs generalizing passes x s with
  | nil =>
      have hnext : links.next x = .head := (List.isChain_pair.mp hchain).1
      have hpass : runGlobalPass malloc budget suites links (links.next x, s) = .ok (.done s) := by
        rw [hnext]
        rfl
      cases passes with
      | zero => simp [loop]
      | succ passes =>
          rw [loop_done hpass]
          simp [runSuites]
  | cons addr addrs ih =>
      obtain ⟨⟨hnext, -⟩, hrest⟩ := List.isChain_cons_cons.mp hchain
      cases passes with
      | zero => simp [loop]
      | succ passes =>
          rw [List.length_cons, Nat.succ_lt_succ_iff, runSuites, hnext]
          cases hrun : htestRunSuite malloc budget (suites addr) true s with
          | error e => simp [loop_error (runGlobalPass_error hrun)]
          | ok result =>
              rw [loop_next (runGlobalPass_next hrun), Exec.ok_bind]
              exact ih hrest

/-- On a list that does not come back, the loop does not end. -/
theorem runGlobal_trapped {S : Set SuiteNode} (hhead : SuiteNode.head ∉ S)
    (hclosed : ∀ x ∈ S, links.next x ∈ S) {passes : ℕ} {x : SuiteNode} (hx : x ∈ S) :
    loop (runGlobalPass malloc budget suites links) passes (x, s) ≠ .ok s' := by
  induction passes generalizing x s with
  | zero => simp [loop]
  | succ passes ih =>
      cases x with
      | head => exact absurd hx hhead
      | suite addr =>
          cases hrun : htestRunSuite malloc budget (suites addr) true s with
          | error e => simp [loop_error (runGlobalPass_error hrun)]
          | ok result =>
              rw [loop_next (runGlobalPass_next hrun)]
              exact ih (hclosed _ hx)

theorem runSuites_output {addrs : List ℕ} (h : runSuites malloc budget suites addrs s = .ok s') :
    s'.output = s.output ++ addrs.flatMap fun addr => (suites addr).report budget := by
  induction addrs generalizing s with
  | nil =>
      obtain rfl := Except.ok.inj h
      exact (List.append_nil _).symm
  | cons addr addrs ih =>
      obtain ⟨⟨code, stats, s₁⟩, hrun, h⟩ := Exec.bind_eq_ok.mp h
      rw [ih h, (htestRunSuite_report hrun).1, if_pos rfl, List.flatMap_cons, List.append_assoc]

end Global

/-- Calls of `__htest_declare_suites`, and `htest_run_global_suites` behind them, return exactly if
no call declares 2^31 suites, no suite is declared twice, and the suites return when they are run
one after the other, the last one declared first; and then they did that, and logged their
reports. -/
theorem htestRunGlobalSuites_iff (malloc : Malloc) (budget : ℕ) (suites : ℕ → Suite)
    (m : ListNode.Memory SuiteNode) (calls : List (List ℕ)) (s s' : State) :
    ((∃ links, declareCalls (ListNode.listNodeInit m .head) calls = .ok links ∧
        ∃ passes, htestRunGlobalSuites malloc budget passes suites links s = .ok s') ↔
      (∀ call ∈ calls, call.length < 2 ^ 31) ∧ calls.flatten.Nodup ∧
        runSuites malloc budget suites calls.flatten.reverse s = .ok s') ∧
    (runSuites malloc budget suites calls.flatten.reverse s = .ok s' →
      s'.output = s.output ++
        calls.flatten.reverse.flatMap fun addr => (suites addr).report budget) := by
  have hinit : Represents (ListNode.listNodeInit m .head) {suiteRing []} := by
    have hnone : Represents m ∅ := Circular.Rings.empty _ _
    have hsingle := ListNode.listNodeInit_represents hnone
      (fun _ hc => absurd hc (Set.notMem_empty _) : Circular.Free ∅ SuiteNode.head)
    rwa [insert_empty_eq] at hsingle
  refine ⟨?_, runSuites_output⟩
  by_cases hlengths : ∀ call ∈ calls, call.length < 2 ^ 31
  · have hdeclare : ∀ links, declareCalls (ListNode.listNodeInit m .head) calls = .ok links ↔
        addSuites (ListNode.listNodeInit m .head) calls.flatten = links := by
      intro links
      rw [declareCalls_eq, if_pos hlengths, Except.ok.injEq]
    simp only [hdeclare, exists_eq_left', and_iff_right hlengths]
    by_cases hnodup : calls.flatten.Nodup
    · have hlist := addSuites_represents calls.flatten hinit (by simpa using hnodup)
      rw [List.append_nil] at hlist
      have hchain := (Cycle.chain_coe_cons _ SuiteNode.head _).mp (hlist.linked _ rfl)
      rw [and_iff_right hnodup]
      constructor
      · rintro ⟨passes, hrun⟩
        exact ((runGlobal_loop hchain).mp hrun).2
      · intro hrun
        exact ⟨_, (runGlobal_loop hchain).mpr ⟨Nat.lt_succ_self _, hrun⟩⟩
    · obtain ⟨S, hfirst, hhead, hclosed⟩ := addSuites_trapped_of_not_nodup
        calls.flatten hinit List.nodup_nil (by simpa using hnodup)
      refine iff_of_false ?_ fun h => hnodup h.1
      rintro ⟨passes, hrun⟩
      exact runGlobal_trapped hhead hclosed hfirst hrun
  · refine iff_of_false ?_ fun h => hlengths h.1
    rintro ⟨links, hdeclare, -⟩
    rw [declareCalls_eq, if_neg hlengths] at hdeclare
    cases hdeclare

end Hlibc.Htest
