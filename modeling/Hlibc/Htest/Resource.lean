import Hlibc.Htest.Test
import Hlibc.ListObserve
import Mathlib.Order.Lattice.Nat

/-!
# The resources of a test

`htest_create_resource` adds a handle behind the head of the list, so `htest_destroy` meets
the resources in the reverse order of their creation.  It takes every handle out of the list
before it frees it, and the pointer to the next one was read before that.
-/

set_option autoImplicit false

namespace Hlibc.Htest

open Circular
open ListNode (Represents)

/-! ## What is done with a test -/

/-- A call of `htest_create_resource`: whether `malloc` finds memory in it, and what `create` of
the resource returns. -/
structure Call where
  res : Resource
  arg : ℕ
  found : Bool
  data : ℕ

/-- The handle of the resource. -/
def Call.handle (call : Call) : Handle where
  data := call.data
  destroy := call.res.destroy

/-- The call of `create`. -/
def Call.created (call : Call) : Event := .create call.res.create call.arg call.data

/-- The call of `destroy`. -/
def Handle.released (handle : Handle) : Event := .release handle.destroy handle.data

/-- What the code of a hook or a unit does with a test on its way. -/
inductive Step where
  | create (call : Call)
  | setStatus (status : Status) (msg : Option Text)
  | setData (data : ℕ)
  | log (level : LogLevel) (line : Text)
  | error (line : Text)
  | warn (line : Text)
  | info (line : Text)
  | assert (assertion : Assertion) (behind : Text)

/-- A step, and whether the code goes on behind it or leaves by `htest_fail`. -/
def runStep (malloc : Malloc) : Step → State → Exec (Bool × State)
  | .create call, s => do
      let (data, s) ← htestCreateResource malloc call.res call.arg call.found call.data s
      .ok (data.isSome, s)
  | .setStatus status msg, s => .ok (true, htestSetStatus status msg s)
  | .setData data, s => .ok (true, { s with test := { s.test with data := data } })
  | .log level line, s => .ok (true, htestLog level line s)
  | .error line, s => .ok (true, htestError line s)
  | .warn line, s => .ok (true, htestWarn line s)
  | .info line, s => .ok (true, htestInfo line s)
  | .assert assertion behind, s => htestAssert assertion behind s

/-- The steps one after the other, unless one of them leaves. -/
def runSteps (malloc : Malloc) : List Step → State → Exec (Bool × State)
  | [], s => .ok (true, s)
  | step :: steps, s => do
      let (goesOn, s) ← runStep malloc step s
      if goesOn then runSteps malloc steps s else .ok (false, s)

/-! ## The list of handles -/

/-- The list around the head of the test. -/
def ring (l : List (ℕ × Handle)) : Cycle Node :=
  ↑(Node.resources :: l.map fun p => Node.handle p.1)

/-- The list of the test has these handles, which are allocated besides `base`. -/
structure Holds (base : Finset ℕ) (s : State) (l : List (ℕ × Handle)) : Prop where
  linked : Represents s.links {ring l}
  live_iff : ∀ addr, addr ∈ s.live ↔ addr ∈ base ∨ ∃ p ∈ l, p.1 = addr
  apart : ∀ p ∈ l, p.1 ∉ base
  stored : ∀ p ∈ l, s.handles p.1 = p.2

section Access

variable {s : State} {item node : Node}

/-- Where the node is valid, the checked function does what `list_node_init` does. -/
theorem listNodeInit_eq (hnode : node.Valid s.live) :
    s.listNodeInit node = .ok { s with links := ListNode.listNodeInit s.links node } := by
  simp [State.listNodeInit, State.writeNext, State.writePrev, hnode, ListNode.listNodeInit]

theorem listAdd_eq (hitem : item.Valid s.live) (hnode : node.Valid s.live)
    (hnext : (s.links.next node).Valid s.live) :
    s.listAdd item node = .ok { s with links := ListNode.listAdd s.links item node } := by
  simp [State.listAdd, State.readNext, State.writeNext, State.writePrev, hitem, hnode, hnext,
    ListNode.listAdd, ListNode.listAddBetween]

theorem listRm_eq (hnode : node.Valid s.live) (hprev : (s.links.prev node).Valid s.live)
    (hnext : (s.links.next node).Valid s.live) :
    s.listRm node = .ok { s with links := ListNode.listRm s.links node } := by
  simp [State.listRm, State.readNext, State.readPrev, State.writeNext, State.writePrev, hnode,
    hprev, hnext, ListNode.listRm, ListNode.listRmBetween]

end Access

section List

variable {base : Finset ℕ} {s : State} {l : List (ℕ × Handle)} {addr : ℕ} {handle : Handle}

theorem Holds.valid (h : Holds base s l) {node : Node} (hnode : node ∈ ring l) :
    node.Valid s.live := by
  rcases List.mem_cons.mp hnode with rfl | hmem
  · trivial
  · obtain ⟨p, hp, rfl⟩ := List.mem_map.mp hmem
    exact (h.live_iff p.1).mpr (Or.inr ⟨p, hp, rfl⟩)

/-- The neighbours of a node of the list are on it. -/
theorem Holds.neighbours (h : Holds base s l) {node : Node} (hnode : node ∈ ring l) :
    s.links.next node ∈ ring l ∧ s.links.prev node ∈ ring l := by
  obtain ⟨⟨hnext, -⟩, hprev, -⟩ := h.linked.neighbours (Set.mem_singleton _) hnode
  exact ⟨hnext, hprev⟩

theorem Holds.addr_notMem (h : Holds base s ((addr, handle) :: l)) : ∀ p ∈ l, p.1 ≠ addr := by
  rintro p hp rfl
  have hnodup : (Node.resources :: Node.handle p.1 :: l.map fun p => Node.handle p.1).Nodup :=
    h.linked.nodup _ (Set.mem_singleton _)
  exact (List.nodup_cons.mp (List.nodup_cons.mp hnodup).2).1
    (List.mem_map.mpr ⟨p, hp, rfl⟩)

/-! ## Creation -/

theorem Node.Valid.insert {live : Finset ℕ} {node : Node} (h : node.Valid live) (addr : ℕ) :
    node.Valid (insert addr live) := by
  cases node with
  | resources => trivial
  | handle other => exact Finset.mem_insert_of_mem h

/-- A handle that is not allocated is not on the list. -/
theorem Holds.notMem_ring (h : Holds base s l) (haddr : addr ∉ s.live) :
    Node.handle addr ∉ ring l :=
  fun hmem => haddr (h.valid hmem)

theorem Holds.linked_add (h : Holds base s l) (haddr : addr ∉ s.live) (handle : Handle) :
    Represents (ListNode.listAdd (ListNode.listNodeInit s.links (.handle addr)) (.handle addr)
      .resources) {ring ((addr, handle) :: l)} := by
  have hout := h.notMem_ring haddr
  have hhead : Node.resources ∉ l.map fun p => Node.handle p.1 :=
    (List.nodup_cons.mp (h.linked.nodup _ (Set.mem_singleton _))).1
  have hfree : Free {ring l} (Node.handle addr) := by
    rintro c rfl hmem
    exact absurd hmem hout
  have hself : Free (insert ↑[Node.handle addr] {ring l}) (Node.handle addr) := by
    rintro c (rfl | rfl) hmem
    · rfl
    · exact absurd hmem hout
  have hmember : Member (insert ↑[Node.handle addr] {ring l}) Node.resources :=
    ⟨ring l, Or.inr rfl, List.mem_cons_self⟩
  have hinit := ListNode.listNodeInit_represents h.linked hfree
  have hadd := ListNode.listAdd_represents hinit hself hmember (by simp)
  rwa [ListNode.insertAfter, Set.insert_sdiff_of_mem _ (Set.mem_singleton _),
    ← ListNode.insertAfter, ring, ListNode.insertAfter_head hout hhead] at hadd

/-- The state with the new handle, which is not on the list yet. -/
def State.store (s : State) (addr : ℕ) (call : Call) : State :=
  { s with
    handles := Function.update s.handles addr call.handle
    live := insert addr s.live
    mallocs := s.mallocs + 1
    calls := s.calls ++ [call.created] }

/-- The state with the new handle in front of the list. -/
def State.attach (s : State) (addr : ℕ) (call : Call) : State :=
  { s.store addr call with
    links := ListNode.listAdd (ListNode.listNodeInit s.links (.handle addr)) (.handle addr)
      .resources }

theorem htestCreateResource_eq (malloc : Malloc) {call : Call} (s : State)
    (hfound : call.found = true) (haddr : malloc.address s.mallocs s.live = addr)
    (hnext : (s.links.next .resources).Valid s.live) :
    htestCreateResource malloc call.res call.arg call.found call.data s =
      .ok (some call.data, s.attach addr call) := by
  have hself : addr ∈ insert addr s.live := Finset.mem_insert_self addr s.live
  have hstored : htestCreateResource malloc call.res call.arg call.found call.data s = (do
      let s ← (s.store addr call).listNodeInit (.handle addr)
      let s ← s.listAdd (.handle addr) .resources
      let handle ← s.readHandle addr
      .ok (some handle.data, s)) := by
    simp only [htestCreateResource, hfound, haddr, Bool.not_true, Bool.false_eq_true, if_false,
      State.readHandle, State.writeHandle, if_pos hself,
      Exec.ok_bind, State.note, Function.update_self, Function.update_idem]
    rfl
  have hkept : (ListNode.listNodeInit s.links (.handle addr)).next .resources =
      s.links.next .resources := by
    simp [ListNode.listNodeInit]
  have hread : (s.attach addr call).readHandle addr = .ok call.handle :=
    (if_pos hself).trans (congrArg Except.ok (Function.update_self addr _ _))
  have hvalid : (Node.handle addr).Valid (s.store addr call).live := hself
  have hhead : Node.resources.Valid (s.store addr call).live := trivial
  have hbehind : ((ListNode.listNodeInit s.links (.handle addr)).next .resources).Valid
      (s.store addr call).live := by
    rw [hkept]
    exact hnext.insert addr
  have hadd : ({ s.store addr call with
      links := ListNode.listNodeInit (s.store addr call).links (.handle addr) } : State).listAdd
        (.handle addr) .resources = .ok (s.attach addr call) :=
    listAdd_eq hvalid hhead hbehind
  rw [hstored, listNodeInit_eq hvalid, Exec.ok_bind, hadd, Exec.ok_bind, hread, Exec.ok_bind]
  rfl

/-- A call for which `malloc` finds memory adds its handle in front. -/
theorem Holds.attach (h : Holds base s l) (haddr : addr ∉ s.live) (call : Call) :
    Holds base (s.attach addr call) ((addr, call.handle) :: l) where
  linked := h.linked_add haddr call.handle
  live_iff a := by
    rw [State.attach, State.store, Finset.mem_insert, h.live_iff]
    simp only [List.mem_cons, exists_eq_or_imp]
    tauto
  apart := by
    rintro p (_ | ⟨_, hp⟩)
    · exact fun hbase => haddr ((h.live_iff addr).mpr (Or.inl hbase))
    · exact h.apart p hp
  stored := by
    rintro p (_ | ⟨_, hp⟩)
    · exact Function.update_self ..
    · have hne : p.1 ≠ addr := by
        rintro rfl
        exact haddr ((h.live_iff p.1).mpr (Or.inr ⟨p, hp, rfl⟩))
      exact (Function.update_of_ne hne _ _).trans (h.stored p hp)

/-- Calls that all find memory put their handles in front of each other. -/
theorem Holds.runCreates (h : Holds base s l) (malloc : Malloc) {calls : List Call}
    (hfound : ∀ call ∈ calls, call.found = true) :
    ∃ s' l', runSteps malloc (calls.map .create) s = .ok (true, s') ∧ Holds base s' l' ∧
      l'.map Prod.snd = calls.reverse.map Call.handle ++ l.map Prod.snd ∧
        s'.calls = s.calls ++ calls.map Call.created := by
  induction calls generalizing s l with
  | nil => exact ⟨s, l, rfl, h, rfl, (List.append_nil _).symm⟩
  | cons call calls ih =>
      obtain ⟨hcall, hrest⟩ := List.forall_mem_cons.mp hfound
      have hhead : (s.links.next .resources).Valid s.live :=
        h.valid (h.neighbours List.mem_cons_self).1
      have hattach := h.attach (malloc.fresh s.mallocs s.live) call
      obtain ⟨s', l', hrun, hheld, hhandles, hcalls⟩ := ih hattach hrest
      refine ⟨s', l', ?_, hheld, ?_, ?_⟩
      · have hstep : runStep malloc (.create call) s =
            .ok (true, s.attach (malloc.address s.mallocs s.live) call) := by
          rw [runStep, htestCreateResource_eq malloc s hcall rfl hhead]
          rfl
        rw [List.map_cons, runSteps, hstep]
        exact hrun
      · rw [hhandles, List.reverse_cons, List.map_append, List.append_assoc]
        rfl
      · rw [hcalls, State.attach, State.store, List.append_assoc]
        rfl

/-! ## Destruction -/

/-- The node of the first handle, or the head of the list. -/
def front (l : List (ℕ × Handle)) : Node :=
  (l.map fun p => Node.handle p.1).head?.getD .resources

theorem front_mem (l : List (ℕ × Handle)) : front l ∈ ring l := by
  cases l with
  | nil => exact List.mem_cons_self
  | cons p l => exact List.mem_cons_of_mem _ List.mem_cons_self

/-- The state without the handle. -/
def State.detach (s : State) (addr : ℕ) (handle : Handle) : State :=
  { s with
    links := ListNode.listRm s.links (.handle addr)
    live := s.live.erase addr
    calls := s.calls ++ [handle.released] }

/-- The first handle can be taken off the list and freed. -/
theorem Holds.detach (h : Holds base s ((addr, handle) :: l)) :
    Holds base (s.detach addr handle) l where
  linked := by
    have hmember : Member {ring ((addr, handle) :: l)} (Node.handle addr) :=
      ⟨_, rfl, List.mem_cons_of_mem _ List.mem_cons_self⟩
    have hnodes : Node.handle addr ∉ l.map fun p => Node.handle p.1 := by
      intro hmem
      obtain ⟨p, hp, heq⟩ := List.mem_map.mp hmem
      exact h.addr_notMem p hp (Node.handle.inj heq)
    have hrm := ListNode.listRm_represents h.linked hmember
    rwa [ring, List.map_cons, ListNode.delete_first (by simp) hnodes] at hrm
  live_iff a := by
    rw [State.detach, Finset.mem_erase, h.live_iff]
    constructor
    · rintro ⟨hne, hbase | ⟨p, hp, rfl⟩⟩
      · exact Or.inl hbase
      · rcases List.mem_cons.mp hp with rfl | hp
        · exact absurd rfl hne
        · exact Or.inr ⟨p, hp, rfl⟩
    · rintro (hbase | ⟨p, hp, rfl⟩)
      · refine ⟨?_, Or.inl hbase⟩
        rintro rfl
        exact h.apart _ List.mem_cons_self hbase
      · exact ⟨h.addr_notMem p hp, Or.inr ⟨p, List.mem_cons_of_mem _ hp, rfl⟩⟩
  apart p hp := h.apart p (List.mem_cons_of_mem _ hp)
  stored p hp := h.stored p (List.mem_cons_of_mem _ hp)

/-- A pass releases the first handle, and goes on with the one behind it. -/
theorem Holds.destroyPass (h : Holds base s ((addr, handle) :: l)) :
    htestDestroyPass
        { res := .handle addr, tmp := s.links.next (.handle addr), state := s } =
      .ok (.next
        { res := front l
          tmp := (s.detach addr handle).links.next (front l)
          state := s.detach addr handle }) := by
  have hmem : Node.handle addr ∈ ring ((addr, handle) :: l) :=
    List.mem_cons_of_mem _ List.mem_cons_self
  have hlive : addr ∈ s.live := h.valid hmem
  have hread : s.readHandle addr = .ok handle :=
    (if_pos hlive).trans (congrArg Except.ok (h.stored _ List.mem_cons_self))
  have hnext : s.links.next (.handle addr) = front l :=
    ListNode.next_first h.linked (Set.mem_singleton _)
  obtain ⟨hnextmem, hprevmem⟩ := h.neighbours hmem
  have hvalid : (Node.handle addr).Valid (s.note handle.released).live := hlive
  have hrm : (s.note handle.released).listRm (.handle addr) = .ok
      { s.note handle.released with links := ListNode.listRm s.links (.handle addr) } :=
    listRm_eq hvalid (h.valid hprevmem) (h.valid hnextmem)
  have hfree : ({ s.note handle.released with
      links := ListNode.listRm s.links (.handle addr) } : State).free addr =
        .ok (s.detach addr handle) := if_pos hlive
  have hbehind : (s.detach addr handle).readNext (front l) =
      .ok ((s.detach addr handle).links.next (front l)) :=
    if_pos (h.detach.valid (front_mem l))
  simp only [htestDestroyPass, hread, Exec.ok_bind]
  rw [← Handle.released, hrm, Exec.ok_bind, hfree, Exec.ok_bind, hnext, hbehind, Exec.ok_bind]

/-- The loop releases the handles from the front on. -/
theorem Holds.destroyLoop (h : Holds base s l) {budget : ℕ} (hbudget : l.length < budget) :
    ∃ s', loop htestDestroyPass budget
        { res := front l, tmp := s.links.next (front l), state := s } = .ok s' ∧
      Holds base s' [] ∧ s'.calls = s.calls ++ l.map (Handle.released ∘ Prod.snd) ∧
        s'.test = s.test := by
  induction l generalizing s budget with
  | nil =>
      obtain ⟨budget, rfl⟩ : ∃ k, budget = k + 1 := ⟨budget - 1, by omega⟩
      exact ⟨s, loop_done rfl budget, h, (List.append_nil _).symm, rfl⟩
  | cons p l ih =>
      obtain ⟨addr, handle⟩ := p
      obtain ⟨budget, rfl⟩ : ∃ k, budget = k + 1 := ⟨budget - 1, by omega⟩
      obtain ⟨s', hloop, hheld, hcalls, htest⟩ := ih h.detach (Nat.lt_of_succ_lt_succ hbudget)
      refine ⟨s', (loop_next h.destroyPass budget).trans hloop, hheld, ?_, htest⟩
      rw [hcalls, State.detach, List.append_assoc]
      rfl

/-- There are no more handles on the list than are allocated. -/
theorem Holds.length_le (h : Holds base s l) : l.length ≤ s.live.card := by
  have hnodes : (l.map fun p => Node.handle p.1).Nodup :=
    (List.nodup_cons.mp (h.linked.nodup _ (Set.mem_singleton _))).2
  have hnodup : (l.map Prod.fst).Nodup := by
    apply List.Nodup.of_map Node.handle
    rwa [List.map_map]
  have hsub : (l.map Prod.fst).toFinset ⊆ s.live := by
    intro addr haddr
    obtain ⟨p, hp, rfl⟩ := List.mem_map.mp (List.mem_toFinset.mp haddr)
    exact (h.live_iff p.1).mpr (Or.inr ⟨p, hp, rfl⟩)
  calc l.length
    _ = (l.map Prod.fst).toFinset.card := by
      rw [List.toFinset_card_of_nodup hnodup, List.length_map]
    _ ≤ s.live.card := Finset.card_le_card hsub

/-- `htest_destroy` releases every handle and leaves an empty list. -/
theorem Holds.htestDestroy (h : Holds base s l) :
    ∃ s', Htest.htestDestroy s = .ok s' ∧ Holds base s' [] ∧
      s'.calls = s.calls ++ l.map (Handle.released ∘ Prod.snd) ∧ s'.test = s.test := by
  have hfirst : s.readNext .resources = .ok (front l) := by
    rw [State.readNext, if_pos (h.valid List.mem_cons_self)]
    exact congrArg Except.ok (ListNode.next_head h.linked (Set.mem_singleton _))
  have hsecond : s.readNext (front l) = .ok (s.links.next (front l)) :=
    if_pos (h.valid (front_mem l))
  rw [Htest.htestDestroy, hfirst, Exec.ok_bind, hsecond, Exec.ok_bind]
  exact h.destroyLoop (Nat.lt_succ_of_le h.length_le)

/-- Where the list is empty, no handle is allocated besides `base`. -/
theorem Holds.live_eq (h : Holds base s []) : s.live = base := by
  ext addr
  rw [h.live_iff]
  exact ⟨fun hlive => hlive.resolve_right fun ⟨p, hp, _⟩ => List.not_mem_nil hp, Or.inl⟩

theorem htestInit_holds (name : Text) (log : Bool) (s : State) :
    ∃ s', htestInit name log s = .ok (0, s') ∧ Holds s.live s' [] ∧ s'.calls = s.calls := by
  have hnone : Represents s.links ∅ := Rings.empty _ _
  have hfree : Free ∅ Node.resources := fun _ hc => absurd hc (Set.notMem_empty _)
  have hinit := ListNode.listNodeInit_represents hnone hfree
  rw [insert_empty_eq] at hinit
  refine ⟨_, rfl, ⟨hinit, ?_, ?_, ?_⟩, rfl⟩
  · exact fun addr => ⟨Or.inl, fun h => h.resolve_right fun ⟨p, hp, _⟩ => List.not_mem_nil hp⟩
  · exact fun p hp => absurd hp List.not_mem_nil
  · exact fun p hp => absurd hp List.not_mem_nil

end List

/-- `htest_destroy` calls `destroy` of every resource of the test with its data, the last one
first, reads only handles that are allocated, and leaves the list empty. -/
theorem htestDestroy_releases (malloc : Malloc) (calls : List Call) (name : Text) (log : Bool)
    (s : State) (hfound : ∀ call ∈ calls, call.found = true) :
    ∃ s₀ s₁ s₂, htestInit name log s = .ok (0, s₀) ∧
      runSteps malloc (calls.map .create) s₀ = .ok (true, s₁) ∧
      s₁.calls = s.calls ++ calls.map (fun call =>
        .create call.res.create call.arg call.data) ∧
      htestDestroy s₁ = .ok s₂ ∧
      s₂.calls = s₁.calls ++ calls.reverse.map (fun call =>
        .release call.res.destroy call.data) ∧
      s₂.links.next .resources = .resources ∧ s₂.links.prev .resources = .resources ∧
      s₂.live = s.live := by
  obtain ⟨s₀, hinit, hnone, hcalls₀⟩ := htestInit_holds name log s
  obtain ⟨s₁, l, hrun, hheld, hhandles, hcalls₁⟩ := hnone.runCreates malloc hfound
  obtain ⟨s₂, hdestroy, hempty, hcalls₂, -⟩ := hheld.htestDestroy
  have hring : (↑[Node.resources] : Cycle Node) ∈ ({ring []} : Set (Cycle Node)) :=
    Set.mem_singleton _
  refine ⟨s₀, s₁, s₂, hinit, hrun, ?_, hdestroy, ?_, ?_, ?_, hempty.live_eq⟩
  · rw [hcalls₁, hcalls₀]
    rfl
  · rw [hcalls₂, ← List.map_map, hhandles, List.map_nil, List.append_nil, List.map_map]
    rfl
  · exact ListNode.next_head hempty.linked hring
  · exact ListNode.prev_head hempty.linked hring

/-- A `malloc` that hands out an address above those in use. -/
def bump : Malloc where
  address _ inUse := inUse.sup id + 1
  fresh _ _ hmem := Nat.not_succ_le_self _ (Finset.le_sup (f := id) hmem)

/-- A state in front of the first test. -/
def blank : State where
  links := ⟨id, id⟩
  handles _ := ⟨0, 0⟩
  live := ∅
  mallocs := 0
  test := Test.zero
  calls := []
  output := []

/-- `htest_malloc`, and then `htest_fopen`. -/
def twoCalls : List Call :=
  [⟨⟨1, 2⟩, 16, true, 100⟩, ⟨⟨3, 4⟩, 8, true, 200⟩]

/-- The file is closed, and then the memory is freed. -/
theorem htestDestroy_releases_two :
    ∃ s₀ s₁ s₂, htestInit [] false blank = .ok (0, s₀) ∧
      runSteps bump (twoCalls.map .create) s₀ = .ok (true, s₁) ∧ htestDestroy s₁ = .ok s₂ ∧
      s₂.calls = [.create 2 16 100, .create 4 8 200, .release 3 200, .release 1 100] ∧
      s₂.live = ∅ := by
  have hfound : ∀ call ∈ twoCalls, call.found = true := by decide
  obtain ⟨s₀, s₁, s₂, hinit, hrun, hcreated, hdestroy, hreleased, -, -, hlive⟩ :=
    htestDestroy_releases bump twoCalls [] false blank hfound
  rw [hcreated] at hreleased
  exact ⟨s₀, s₁, s₂, hinit, hrun, hdestroy, hreleased, hlive⟩

end Hlibc.Htest
