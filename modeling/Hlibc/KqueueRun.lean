import Mathlib.Order.WellFounded
import Hlibc.Kqueue

/-!
# A `kqueue_table` from its start to its end

`kqueue_table_commit` hands the change list to the system call `kevent` and takes
nothing out of it.  Over it stands what a table is for its user, a log of the
changes recorded: no capacity, no pointer, and whether a refusal has lost the list.
A run of the code shows exactly what a run of the log shows.
-/

set_option autoImplicit false

namespace Hlibc.Kqueue

/-! ## The functions of the source -/

/-- `struct timespec`. -/
structure Timespec where
  sec : Int64
  nsec : Int64
  deriving DecidableEq

/-- `struct kqueue_table`, and the number of blocks that `realloc` has handed out
and `free` has not taken back. -/
structure KqueueTable where
  kq : ℤ
  changes : Table
  nevents : ℤ
  eventlist : Option Block
  live : ℕ

/-- The table that `kqueue_table_init` leaves where `kqueue` has returned `kq`. -/
def KqueueTable.init (kq : ℤ) : KqueueTable where
  kq := kq
  changes := kqueueTableInit
  nevents := 0
  eventlist := none
  live := 0

/-- The table behind a `kqueue_table_change` that has left these changes;
`realloc` makes one more block of a null pointer, and of a block no other. -/
def KqueueTable.changed (kt : KqueueTable) (changes : Table) : KqueueTable :=
  { kt with
    changes := changes
    live :=
      if kt.changes.changelist = none ∧ changes.changelist ≠ none then kt.live + 1
      else kt.live }

/-- The arguments of `kevent`. -/
structure Request where
  kq : ℤ
  changelist : Option Block
  nchanges : ℕ
  eventlist : Option Block
  nevents : ℤ
  timeout : Option Timespec

/-- `kqueue_table_commit`, where `kevent` returns `answer`. -/
def kqueueTableCommit (kt : KqueueTable) (nevents : ℤ) (timeout : Option Timespec)
    (answer : ℤ) : Request × ℤ × KqueueTable :=
  let request : Request := {
    kq := kt.kq
    changelist := kt.changes.changelist
    nchanges := kt.changes.nchanges
    eventlist := kt.eventlist
    nevents := nevents
    timeout := timeout }
  let kt := { kt with nevents := answer }
  (request, kt.nevents, kt)

/-- The number of blocks behind `free`. -/
def free (ptr : Option Block) (live : ℕ) : ℕ :=
  if ptr = none then live else live - 1

/-- `kqueue_table_destroy`: the number of blocks left. -/
def kqueueTableDestroy (kt : KqueueTable) : ℕ :=
  free kt.eventlist (free kt.changes.changelist kt.live)

/-! ## Runs of the code -/

/-- A call on the table between its init and its destroy. -/
inductive Op where
  | change (call : Call)
  | commit (nevents : ℤ) (timeout : Option Timespec) (answer : ℤ)

/-- What a call shows: the code of a change; of a commit the changes that `kevent`
reads, `none` where it would read through a null pointer, and the rest of its
arguments and the value returned. -/
inductive Seen where
  | changed (code : ℤ)
  | committed (kq : ℤ) (changes : Option (List (Option Kevent)))
      (eventlist : Option Block) (nevents : ℤ) (timeout : Option Timespec) (ret : ℤ)
  deriving DecidableEq

/-- The changes that `kevent` reads. -/
def Request.reads (request : Request) : Option (List (Option Kevent)) :=
  match request.changelist with
  | none => if request.nchanges = 0 then some [] else none
  | some block =>
      if request.nchanges ≤ block.length then some (block.take request.nchanges)
      else none

def Request.seen (request : Request) (ret : ℤ) : Seen :=
  .committed request.kq request.reads request.eventlist request.nevents
    request.timeout ret

def KqueueTable.exec (kt : KqueueTable) : Op → Exec (Seen × KqueueTable)
  | .change call => do
      let (code, changes) ← call.exec kt.changes
      pure (.changed code, kt.changed changes)
  | .commit nevents timeout answer =>
      let (request, ret, kt) := kqueueTableCommit kt nevents timeout answer
      pure (request.seen ret, kt)

def KqueueTable.run : KqueueTable → List Op → Exec (List Seen × KqueueTable)
  | kt, [] => pure ([], kt)
  | kt, op :: ops => do
      let (seen, kt) ← kt.exec op
      let (rest, kt) ← kt.run ops
      pure (seen :: rest, kt)

/-! ## The log -/

/-- The changes recorded since the init, and whether a refusal has lost the
list. -/
structure Log where
  recorded : List Kevent
  lost : Bool

/-- The capacities that a list goes through: 0, 2, 3, 4, 6, 9, 13, … -/
def capacity : ℕ → ℕ
  | 0 => 0
  | k + 1 => max (capacity k * 3 / 2) 2

/-- Behind `n` changes the next one asks for memory. -/
def AsksMemory (n : ℕ) : Prop := ∃ k < n + 1, capacity k = n

instance : DecidablePred AsksMemory := fun n =>
  inferInstanceAs (Decidable (∃ k < n + 1, capacity k = n))

/-- A change is recorded behind those before it.  It is refused where it asks for
memory that is not there; then the list is lost, and no change can follow. -/
def Log.change (log : Log) (call : Call) : Option (ℤ × Log) :=
  if log.lost = true then none
  else if AsksMemory log.recorded.length ∧ call.granted = false then
    some (ENOMEM, { log with lost := true })
  else if log.recorded.length < 2 ^ 31 - 1 then
    some (0, { log with recorded := log.recorded ++ [call.event] })
  else none

/-- A commit submits every change since the init, and no room for events. -/
def Log.commit (log : Log) (kq nevents : ℤ) (timeout : Option Timespec) (ret : ℤ) :
    Seen :=
  let changes :=
    if log.lost = true ∧ log.recorded ≠ [] then none
    else some (log.recorded.map some)
  .committed kq changes none nevents timeout ret

def Log.exec (kq : ℤ) (log : Log) : Op → Option (Seen × Log)
  | .change call => do
      let (code, log) ← log.change call
      pure (.changed code, log)
  | .commit nevents timeout answer => some (log.commit kq nevents timeout answer, log)

def Log.run (kq : ℤ) : Log → List Op → Option (List Seen × Log)
  | log, [] => some ([], log)
  | log, op :: ops => do
      let (seen, log) ← log.exec kq op
      let (rest, log) ← log.run kq ops
      pure (seen :: rest, log)

/-- The blocks that nothing gives back: the list that a refusal has lost. -/
def Log.leaks (log : Log) : ℕ :=
  if log.lost = true ∧ log.recorded ≠ [] then 1 else 0

/-! ## The capacities -/

theorem capacity_lt_succ (k : ℕ) : capacity k < capacity (k + 1) := by
  simp only [capacity]
  omega

theorem capacity_strictMono : StrictMono capacity :=
  strictMono_nat_of_lt_succ capacity_lt_succ

/-- The capacity is the first of the sequence that has room for the changes. -/
def Reached (kt : Table) : Prop :=
  ∃ k, kt.changelistCap = capacity k ∧ ∀ j < k, capacity j < kt.nchanges

variable {kt kt' : Table} {call : Call} {event : Kevent} {code : ℤ}

/-- Where the capacity is the first with room, a full table and a call for memory
are the same. -/
theorem asksMemory_iff (h : Reached kt) (hle : kt.nchanges ≤ kt.changelistCap) :
    AsksMemory kt.nchanges ↔ kt.changelistCap = kt.nchanges := by
  obtain ⟨k, hcap, hbelow⟩ := h
  constructor
  · rintro ⟨j, -, hj⟩
    rcases Nat.lt_trichotomy j k with hjk | rfl | hkj
    · exact absurd hj (Nat.ne_of_lt (hbelow j hjk))
    · rw [hcap, hj]
    · have hlt := capacity_strictMono hkj
      omega
  · intro hfull
    have hk := capacity_strictMono.le_apply (x := k)
    exact ⟨k, by omega, by omega⟩

/-! ## One change -/

theorem record_none (h : kt.changelist = none) : record kt event ≠ .ok (code, kt') := by
  intro hok
  obtain ⟨n, -, hrest⟩ := Exec.bind_eq_ok.mp hok
  simp [h] at hrest

theorem record_cap (h : record kt event = .ok (code, kt')) :
    kt'.changelistCap = kt.changelistCap := by
  obtain ⟨n, -, hrest⟩ := Exec.bind_eq_ok.mp h
  cases hblock : kt.changelist with
  | none => simp [hblock] at hrest
  | some block =>
      simp only [hblock] at hrest
      split at hrest
      · obtain ⟨-, rfl⟩ := Prod.mk.inj (Except.ok.inj hrest)
        rfl
      · cases hrest

/-- A change that is recorded leaves the first capacity with room. -/
theorem exec_reached {st : State} (h : Bounded st) (hreached : Reached st.table)
    (hmeets : Meets st.table call) (hexec : call.exec st.table = .ok (0, kt))
    (hcount : kt.nchanges = st.table.nchanges + 1) : Reached kt := by
  obtain ⟨k, hcap, hbelow⟩ := hreached
  have hle := h.le
  rw [exec_eq] at hexec
  by_cases hfull : st.table.changelistCap = st.table.nchanges
  · rw [if_pos hfull, if_pos (hmeets.1 hfull)] at hexec
    have hlt := h.nchanges_lt
    refine ⟨k + 1, ?_, fun j hj => ?_⟩
    · rw [record_cap hexec, Table.grow, capacity, ← hcap]
      have hmod : st.table.changelistCap * 3 % 2 ^ 64 = st.table.changelistCap * 3 :=
        Nat.mod_eq_of_lt (by omega)
      rw [hmod]
    · have hmono := capacity_strictMono.monotone (Nat.lt_succ_iff.mp hj)
      omega
  · rw [if_neg hfull] at hexec
    refine ⟨k, by rw [record_cap hexec, hcap], fun j hj => ?_⟩
    have hjk := hbelow j hj
    omega

/-! ## The code and the log -/

/-- The table stands for the log. -/
structure Linked (kt : KqueueTable) (log : Log) : Prop where
  eventlist : kt.eventlist = none
  nchanges : kt.changes.nchanges = log.recorded.length
  live : kt.live = if log.recorded = [] then 0 else 1
  list : kt.changes.changelist = none ↔ log.lost = true ∨ log.recorded = []
  intact : log.lost = false →
    Bounded { recorded := log.recorded, table := kt.changes } ∧ Reached kt.changes
  lost : log.lost = true → kt.changes.nchanges < kt.changes.changelistCap

variable {table : KqueueTable} {log : Log}

/-- In a consistent state the counter is the number of changes recorded. -/
theorem nchanges_eq {st : State} (h : Consistent st) :
    st.table.nchanges = st.recorded.length := by
  have hentries := congrArg List.length h.entries
  rw [List.length_take, h.length, List.length_map, min_eq_left h.le] at hentries
  exact hentries

theorem lose_linked (h : Linked table log) (hlost : log.lost = false) :
    Linked (table.changed table.changes.lose) { log with lost := true } where
  eventlist := h.eventlist
  nchanges := h.nchanges
  live := by simpa [KqueueTable.changed, Table.lose] using h.live
  list := by simp [KqueueTable.changed, Table.lose]
  intact := by simp
  lost := fun _ => by
    obtain ⟨hbounded, -⟩ := h.intact hlost
    have hle := hbounded.le
    have hlt := hbounded.nchanges_lt
    have hcap := hbounded.cap_lt
    simp only [KqueueTable.changed, Table.lose] at *
    rw [Nat.mod_eq_of_lt (by omega)]
    omega

theorem record_linked (h : Linked table log) (hlost : log.lost = false)
    (hbounded : Bounded { recorded := log.recorded ++ [call.event], table := kt })
    (hreached : Reached kt) :
    Linked (table.changed kt) { log with recorded := log.recorded ++ [call.event] } := by
  have hcount : kt.nchanges = (log.recorded ++ [call.event]).length :=
    nchanges_eq hbounded.toConsistent
  have hsome : kt.changelist ≠ none := by
    intro hnone
    have hlen := hbounded.length
    have hle := hbounded.le
    simp only [Table.entries, hnone, Option.getD_none, List.length_nil] at hlen hle
    rw [List.length_append, List.length_singleton] at hcount
    omega
  refine ⟨h.eventlist, hcount, ?_, ?_, fun _ => ⟨hbounded, hreached⟩, ?_⟩
  · have hlive := h.live
    have hlist := h.list
    simp only [hlost, Bool.false_eq_true, false_or] at hlist
    by_cases hempty : log.recorded = []
    · simp [KqueueTable.changed, hsome, hlist, hempty, hlive]
    · simp [KqueueTable.changed, hlist, hempty, hlive]
  · simp [KqueueTable.changed, hsome, hlost]
  · simp [hlost]

/-- A change does to the table what it does to the log. -/
theorem change_linked (h : Linked table log) (call : Call) :
    match log.change call with
    | none => ∀ r, call.exec table.changes ≠ .ok r
    | some (code, log') => ∃ kt, call.exec table.changes = .ok (code, kt) ∧
        Linked (table.changed kt) log' := by
  rw [Log.change]
  by_cases hlost : log.lost = true
  · rw [if_pos hlost]
    rintro ⟨code, kt⟩
    have hcap := h.lost hlost
    rw [exec_eq, if_neg (by omega)]
    exact record_none (h.list.mpr (Or.inl hlost))
  rw [if_neg hlost]
  have hintact : log.lost = false := by simpa using hlost
  obtain ⟨hbounded, hreached⟩ := h.intact hintact
  have hasks := asksMemory_iff hreached hbounded.le
  rw [h.nchanges] at hasks
  by_cases hrefused : AsksMemory log.recorded.length ∧ call.granted = false
  · rw [if_pos hrefused]
    refine ⟨table.changes.lose, ?_, lose_linked h hintact⟩
    have hfull := hasks.mp hrefused.1
    rw [exec_eq, if_pos (hfull.trans h.nchanges.symm), hrefused.2]
    rfl
  rw [if_neg hrefused]
  have hgranted : table.changes.changelistCap = table.changes.nchanges →
      call.granted = true := by
    intro hfull
    by_contra hcall
    refine hrefused ⟨hasks.mpr (hfull.trans h.nchanges), ?_⟩
    simpa using hcall
  by_cases hroom : log.recorded.length < 2 ^ 31 - 1
  · rw [if_pos hroom]
    have hmeets : Meets table.changes call := ⟨hgranted, by rw [h.nchanges]; exact hroom⟩
    obtain ⟨kt, hexec, hnext⟩ := exec_bounded hbounded hmeets
    have hcount := nchanges_eq hnext.toConsistent
    refine ⟨kt, hexec, record_linked h hintact hnext ?_⟩
    refine exec_reached hbounded hreached hmeets hexec ?_
    simpa [State.next, h.nchanges] using hcount
  · rw [if_neg hroom]
    rintro ⟨code, kt⟩ hexec
    refine hroom ?_
    rw [← h.nchanges]
    rw [exec_eq] at hexec
    by_cases hfull : table.changes.changelistCap = table.changes.nchanges
    · rw [if_pos hfull, if_pos (hgranted hfull)] at hexec
      have hlt : table.changes.grow.nchanges < 2 ^ 31 - 1 := nchanges_lt_of_record hexec
      exact hlt
    · rw [if_neg hfull] at hexec
      exact nchanges_lt_of_record hexec

/-- A commit reads the log, and leaves it as it was. -/
theorem commit_linked (h : Linked table log) (nevents : ℤ) (timeout : Option Timespec)
    (answer : ℤ) :
    (kqueueTableCommit table nevents timeout answer).1.seen answer =
        log.commit table.kq nevents timeout answer ∧
      Linked (kqueueTableCommit table nevents timeout answer).2.2 log := by
  refine ⟨?_, ⟨h.eventlist, h.nchanges, h.live, h.list, h.intact, h.lost⟩⟩
  have hreads : (kqueueTableCommit table nevents timeout answer).1.reads =
      if log.lost = true ∧ log.recorded ≠ [] then none
      else some (log.recorded.map some) := by
    rw [kqueueTableCommit, Request.reads]
    cases hlist : table.changes.changelist with
    | none =>
        rcases h.list.mp hlist with hlost | hempty
        · by_cases hempty : log.recorded = [] <;> simp [h.nchanges, hlost, hempty]
        · simp [h.nchanges, hempty]
    | some block =>
        have hsome : ¬ (log.lost = true ∨ log.recorded = []) := by
          rw [← h.list, hlist]
          simp
        have hlost : log.lost = false := by simpa using fun hlost => hsome (Or.inl hlost)
        obtain ⟨hbounded, -⟩ := h.intact hlost
        have hlen := hbounded.length
        have hentries := hbounded.entries
        have hle := hbounded.le
        simp only [Table.entries, hlist, Option.getD_some] at hlen hentries hle
        simp only [hlost, Bool.false_eq_true, false_and, if_false]
        rw [if_pos (by omega), hentries]
  rw [Request.seen, hreads, Log.commit]
  simp [kqueueTableCommit, h.eventlist]

/-! ## Runs -/

/-- One call: the table faults exactly where the log stops, and else they show the
same and stay linked. -/
theorem exec_linked (h : Linked table log) (op : Op) :
    match log.exec table.kq op with
    | none => ∀ r, table.exec op ≠ .ok r
    | some (seen, log') => ∃ table', table.exec op = .ok (seen, table') ∧
        table'.kq = table.kq ∧ Linked table' log' := by
  cases op with
  | commit nevents timeout answer =>
      obtain ⟨hseen, hnext⟩ := commit_linked h nevents timeout answer
      refine ⟨_, ?_, ?_, hnext⟩
      · rw [← hseen]
        rfl
      · rfl
  | change call =>
      have hchange := change_linked h call
      rw [Log.exec]
      cases hlog : log.change call with
      | none =>
          rw [hlog] at hchange
          rintro r hok
          obtain ⟨a, hexec, -⟩ := Exec.bind_eq_ok.mp hok
          exact hchange a hexec
      | some step =>
          obtain ⟨code, log'⟩ := step
          rw [hlog] at hchange
          obtain ⟨kt, hexec, hnext⟩ := hchange
          refine ⟨table.changed kt, ?_, rfl, hnext⟩
          rw [KqueueTable.exec, hexec]
          rfl

/-- `kqueue_table_destroy` gives back the list, unless it was lost. -/
theorem destroy_linked (h : Linked table log) : kqueueTableDestroy table = log.leaks := by
  have hlist := h.list
  have hlive := h.live
  rw [kqueueTableDestroy, h.eventlist, Log.leaks]
  by_cases hempty : log.recorded = []
  · simp [free, hlist, hlive, hempty]
  · cases hlost : log.lost <;> simp [free, hlist, hlive, hempty, hlost]

/-- From linked states on, a run of calls and the destroy behind it show what the
run of the log shows. -/
theorem run_linked (ops : List Op) {kq : ℤ} (h : Linked table log) (hkq : table.kq = kq) :
    (table.run ops).toOption.map (fun r => (r.1, kqueueTableDestroy r.2)) =
      (log.run kq ops).map fun r => (r.1, r.2.leaks) := by
  induction ops generalizing table log with
  | nil => simp [KqueueTable.run, Log.run, Except.toOption, destroy_linked h]
  | cons op ops ih =>
      have hstep := exec_linked h op
      rw [hkq] at hstep
      rw [KqueueTable.run, Log.run]
      cases hlog : log.exec kq op with
      | none =>
          rw [hlog] at hstep
          cases hexec : table.exec op with
          | error e => rfl
          | ok r => exact absurd hexec (hstep r)
      | some step =>
          obtain ⟨seen, log'⟩ := step
          rw [hlog] at hstep
          obtain ⟨table', hexec, hkq', hnext⟩ := hstep
          have hrest := ih hnext hkq'
          rw [hexec]
          cases hrun : table'.run ops with
          | error e =>
              rw [hrun] at hrest
              have hnone : log'.run kq ops = none := by
                simpa [Except.toOption] using hrest.symm
              simp [hnone, hrun, Except.toOption]
          | ok r =>
              rw [hrun] at hrest
              cases hlogrun : log'.run kq ops with
              | none => simp [hlogrun, Except.toOption] at hrest
              | some q =>
                  rw [hlogrun] at hrest
                  simp only [Except.toOption, Option.map_some, Option.some.injEq,
                    Prod.mk.injEq] at hrest
                  simp [hrun, hlogrun, Except.toOption, hrest]

/-- From `kqueue_table_init` on, whatever calls are made, whatever `realloc` finds
and `kevent` answers: the table faults exactly where the log stops, every change
and commit shows what the log shows, and `kqueue_table_destroy` leaves exactly the
blocks that the log leaks. -/
theorem kqueueTable_run_eq (kq : ℤ) (ops : List Op) :
    ((KqueueTable.init kq).run ops).toOption.map
        (fun r => (r.1, kqueueTableDestroy r.2)) =
      (Log.run kq { recorded := [], lost := false } ops).map
        fun r => (r.1, r.2.leaks) := by
  refine run_linked ops ⟨rfl, rfl, rfl, ?_, fun _ => ⟨?_, ?_⟩, ?_⟩ rfl
  · simp [KqueueTable.init, kqueueTableInit]
  · exact ⟨⟨Nat.le_refl 0, rfl, rfl⟩, Nat.two_pow_pos 31, Nat.two_pow_pos 32⟩
  · exact ⟨0, rfl, fun j hj => absurd hj (Nat.not_lt_zero j)⟩
  · simp

/-- The third change finds no memory: the commit behind it reads through a null
pointer, and the list of the first two is never given back. -/
example :
    let call (granted : Bool) : Op := .change ⟨granted, keventSet 1 0 0 0 0 0⟩
    let ops := [call true, call true, .commit 0 none 0, call false, .commit 0 none (-1)]
    ((KqueueTable.init 3).run ops).toOption.map
        (fun r => (r.1, kqueueTableDestroy r.2)) =
      some ([.changed 0, .changed 0,
        .committed 3 (some (List.replicate 2 (some (keventSet 1 0 0 0 0 0)))) none 0 none 0,
        .changed ENOMEM, .committed 3 none none 0 none (-1)], 1) := by
  decide

end Hlibc.Kqueue
