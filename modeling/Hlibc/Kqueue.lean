import Hlibc.Errno
import Hlibc.Support.Exec

/-!
# `kqueue.c`

The list of changes that a `struct kqueue_table` records.  `kqueue_table_change` makes the list
longer when it is full.  It stores the new capacity and the new pointer before it knows that
`realloc` has found memory, so a refusal loses the list.
-/

set_option autoImplicit false

namespace Hlibc.Kqueue

/-! ## The functions of the source -/

/-- `struct kevent`; pointers are addresses. -/
structure Kevent where
  ident : UInt64
  filter : Int16
  flags : UInt16
  fflags : UInt32
  data : Int64
  udata : UInt64
  deriving DecidableEq

/-- `sizeof(struct kevent)`, the sum of the sizes of its members. -/
def sizeofKevent : ℕ := 32

/-- The entries of an allocated object; one that nothing was written to is `none`. -/
abbrev Block := List (Option Kevent)

/-- The members of `struct kqueue_table` that record changes. -/
structure Table where
  nchanges : ℕ
  changelist : Option Block
  changelistCap : ℕ
  deriving DecidableEq

/-- `kevent_set`. -/
def keventSet (ident : UInt64) (filter : Int16) (flags : UInt16) (fflags : UInt32)
    (data : Int64) (udata : UInt64) : Kevent where
  ident := ident
  filter := filter
  flags := flags
  fflags := fflags
  data := data
  udata := udata

/-- `kqueue_table_init`, where `kqueue` succeeds. -/
def kqueueTableInit : Table where
  nchanges := 0
  changelist := none
  changelistCap := 0

/-- `realloc` to `size` bytes, which finds memory or not. -/
def realloc (granted : Bool) (ptr : Option Block) (size : ℕ) : Option Block :=
  if granted then
    let entries := ptr.getD []
    let n := size / sizeofKevent
    some (entries.take n ++ List.replicate (n - entries.length) none)
  else none

/-- `kevent_set(kt->changelist + kt->nchanges++, …)`, and the return behind it. -/
def record (kt : Table) (event : Kevent) : Exec (ℤ × Table) := do
  let nchanges ← incInt kt.nchanges
  match kt.changelist with
  | none => .error .null
  | some block =>
      if kt.nchanges < block.length then
        let block := block.set kt.nchanges (some event)
        .ok (0, { kt with nchanges := nchanges, changelist := some block })
      else .error .write

/-- `kqueue_table_change`, where `realloc` finds memory if `granted`. -/
def kqueueTableChange (granted : Bool) (kt : Table) (ident : UInt64) (filter : Int16)
    (flags : UInt16) (fflags : UInt32) (data : Int64) (udata : UInt64) : Exec (ℤ × Table) :=
  let event := keventSet ident filter flags fflags data udata
  if kt.changelistCap = kt.nchanges then
    let kt := { kt with changelistCap := max (kt.changelistCap * 3 % 2 ^ 64 / 2) 2 }
    let size := kt.changelistCap * sizeofKevent % 2 ^ 64
    let kt := { kt with changelist := realloc granted kt.changelist size }
    if kt.changelist = none then .ok (ENOMEM, kt) else record kt event
  else record kt event

/-! ## Calls and what they promise -/

/-- A call, and whether `realloc` would find memory in it. -/
structure Call where
  granted : Bool
  event : Kevent

/-- What a call does to the table. -/
def Call.exec (call : Call) (kt : Table) : Exec (ℤ × Table) :=
  kqueueTableChange call.granted kt call.event.ident call.event.filter call.event.flags
    call.event.fflags call.event.data call.event.udata

/-- The table, and the changes of the calls that returned 0. -/
structure State where
  recorded : List Kevent
  table : Table

/-- The state behind a call that returned `code`. -/
def State.next (st : State) (call : Call) (code : ℤ) (kt : Table) : State where
  recorded := if code = 0 then st.recorded ++ [call.event] else st.recorded
  table := kt

/-- The entries of the list; a null pointer has none. -/
def Table.entries (kt : Table) : Block := kt.changelist.getD []

/-- The list has as many entries as its capacity says, and the changes recorded are in front. -/
structure Consistent (st : State) : Prop where
  le : st.table.nchanges ≤ st.table.changelistCap
  length : st.table.entries.length = st.table.changelistCap
  entries : st.table.entries.take st.table.nchanges = st.recorded.map some

/-- From a state on, every call returns, a call that returns `ENOMEM` changes nothing, and every
state is consistent. -/
def Holds : State → List Call → Prop
  | st, [] => Consistent st
  | st, call :: calls =>
      Consistent st ∧ ∃ code kt, call.exec st.table = .ok (code, kt) ∧
        (code = ENOMEM → kt = st.table) ∧ Holds (st.next call code kt) calls

/-- `realloc` finds memory if the table is full, and the counter has room. -/
def Meets (kt : Table) (call : Call) : Prop :=
  (kt.changelistCap = kt.nchanges → call.granted = true) ∧ kt.nchanges < 2 ^ 31 - 1

/-- From a state on, every call meets the condition. -/
def Supplied : State → List Call → Prop
  | _, [] => True
  | st, call :: calls =>
      Meets st.table call ∧
        ∀ code kt, call.exec st.table = .ok (code, kt) → Supplied (st.next call code kt) calls

/-! ## One call -/

/-- Consistent, with numbers of the sizes that the calls reach. -/
structure Bounded (st : State) : Prop extends Consistent st where
  nchanges_lt : st.table.nchanges < 2 ^ 31
  cap_lt : st.table.changelistCap < 2 ^ 32

variable {st : State} {call : Call} {kt : Table} {block : Block} {event : Kevent}

/-- The table with a longer list. -/
def Table.grow (kt : Table) : Table where
  nchanges := kt.nchanges
  changelist := realloc true kt.changelist
    (max (kt.changelistCap * 3 % 2 ^ 64 / 2) 2 * sizeofKevent % 2 ^ 64)
  changelistCap := max (kt.changelistCap * 3 % 2 ^ 64 / 2) 2

/-- The table that a refusal leaves. -/
def Table.lose (kt : Table) : Table where
  nchanges := kt.nchanges
  changelist := none
  changelistCap := max (kt.changelistCap * 3 % 2 ^ 64 / 2) 2

/-- A full table grows, unless it is refused; then the change is recorded. -/
theorem exec_eq (call : Call) (kt : Table) :
    call.exec kt =
      if kt.changelistCap = kt.nchanges then
        if call.granted = true then record kt.grow call.event else .ok (ENOMEM, kt.lose)
      else record kt call.event := by
  rw [Call.exec, kqueueTableChange]
  by_cases hfull : kt.changelistCap = kt.nchanges
  · rw [if_pos hfull, if_pos hfull]
    cases call.granted with
    | false => rfl
    | true =>
        have hsome : kt.grow.changelist ≠ none := by simp [Table.grow, realloc]
        exact if_neg hsome
  · rw [if_neg hfull, if_neg hfull]
    rfl

theorem record_eq (hblock : kt.changelist = some block) (hroom : kt.nchanges < block.length)
    (hint : kt.nchanges < 2 ^ 31 - 1) :
    record kt event = .ok (0, {
      kt with
      nchanges := kt.nchanges + 1
      changelist := some (block.set kt.nchanges (some event)) }) := by
  rw [record, incInt_of_lt hint, Exec.ok_bind, hblock]
  exact if_pos hroom

theorem take_succ_set {n : ℕ} (h : n < block.length) (x : Option Kevent) :
    (block.set n x).take (n + 1) = block.take n ++ [x] := by
  have hlen : (block.take n ++ [x]).length = n + 1 := by
    rw [List.length_append, List.length_take_of_le (Nat.le_of_lt h), List.length_singleton]
  rw [List.set_eq_take_append_cons_drop, if_pos h, List.append_cons, List.take_left' hlen]

theorem record_bounded (h : Bounded st) (hroom : st.table.nchanges < st.table.changelistCap)
    (hint : st.table.nchanges < 2 ^ 31 - 1) :
    ∃ kt, record st.table call.event = .ok (0, kt) ∧ Bounded (st.next call 0 kt) := by
  have hlen := h.length
  have hentries := h.entries
  cases hblock : st.table.changelist with
  | none =>
      simp only [Table.entries, hblock, Option.getD_none, List.length_nil] at hlen
      omega
  | some block =>
      simp only [Table.entries, hblock, Option.getD_some] at hlen hentries
      refine ⟨_, record_eq hblock (by omega) hint, ⟨hroom, ?_, ?_⟩, ?_, h.cap_lt⟩
      · simpa [State.next, Table.entries] using hlen
      · simp only [State.next, Table.entries, Option.getD_some, if_true, List.map_append]
        rw [take_succ_set (by omega), hentries]
        rfl
      · simp only [State.next]
        omega

/-- Half as many entries again, and two at least, are more than before. -/
theorem grow_cap {n : ℕ} (hn : n < 2 ^ 31) :
    n < max (n * 3 % 2 ^ 64 / 2) 2 ∧ max (n * 3 % 2 ^ 64 / 2) 2 < 2 ^ 32 := by
  rw [Nat.mod_eq_of_lt (by omega)]
  omega

/-- A longer list keeps the changes and makes room. -/
theorem grow_bounded (h : Bounded st) (hfull : st.table.changelistCap = st.table.nchanges) :
    Bounded { st with table := st.table.grow } ∧
      st.table.grow.nchanges < st.table.grow.changelistCap := by
  have hcap : st.table.nchanges < st.table.grow.changelistCap ∧
      st.table.grow.changelistCap < 2 ^ 32 := by
    rw [Table.grow, hfull]
    exact grow_cap h.nchanges_lt
  have hlen := h.length
  have hgrown : st.table.grow.entries = st.table.entries ++
      List.replicate (st.table.grow.changelistCap - st.table.entries.length) none := by
    have hsize : st.table.grow.changelistCap * sizeofKevent % 2 ^ 64 / sizeofKevent =
        st.table.grow.changelistCap := by
      rw [sizeofKevent]
      omega
    have hrealloc : st.table.grow.changelist = realloc true st.table.changelist
        (st.table.grow.changelistCap * sizeofKevent % 2 ^ 64) := rfl
    rw [Table.entries, hrealloc, realloc, hsize]
    simp only [if_true, Option.getD_some]
    rw [List.take_of_length_le]
    · rfl
    · rw [Table.entries] at hlen
      omega
  refine ⟨⟨⟨Nat.le_of_lt hcap.1, ?_, ?_⟩, h.nchanges_lt, hcap.2⟩, hcap.1⟩
  · simp only [hgrown, List.length_append, List.length_replicate]
    omega
  · have hentries := h.entries
    have hle : st.table.nchanges ≤ st.table.entries.length := by omega
    change st.table.grow.entries.take st.table.nchanges = _
    rw [hgrown, List.take_append_of_le_length hle, hentries]

/-- A call that meets the condition records its change. -/
theorem exec_bounded (h : Bounded st) (hmeets : Meets st.table call) :
    ∃ kt, call.exec st.table = .ok (0, kt) ∧ Bounded (st.next call 0 kt) := by
  obtain ⟨hgranted, hint⟩ := hmeets
  rw [exec_eq]
  by_cases hfull : st.table.changelistCap = st.table.nchanges
  · obtain ⟨hgrow, hroom⟩ := grow_bounded h hfull
    rw [if_pos hfull, if_pos (hgranted hfull)]
    exact record_bounded hgrow hroom hint
  · have hle := h.le
    rw [if_neg hfull]
    exact record_bounded h (by omega) hint

theorem nchanges_lt_of_record {code : ℤ} {kt' : Table} (h : record kt event = .ok (code, kt')) :
    kt.nchanges < 2 ^ 31 - 1 := by
  obtain ⟨n, hinc, -⟩ := Exec.bind_eq_ok.mp h
  by_contra hlarge
  rw [incInt, if_neg hlarge] at hinc
  cases hinc

/-- A call that returns and, if it returns `ENOMEM`, changes nothing, meets the condition. -/
theorem meets_of_exec (h : Bounded st) {code : ℤ} (hexec : call.exec st.table = .ok (code, kt))
    (hsame : code = ENOMEM → kt = st.table) : Meets st.table call := by
  rw [exec_eq] at hexec
  by_cases hfull : st.table.changelistCap = st.table.nchanges
  · rw [if_pos hfull] at hexec
    by_cases hgranted : call.granted = true
    · rw [if_pos hgranted] at hexec
      have hint : st.table.grow.nchanges < 2 ^ 31 - 1 := nchanges_lt_of_record hexec
      exact ⟨fun _ => hgranted, hint⟩
    · rw [if_neg hgranted] at hexec
      obtain ⟨rfl, rfl⟩ := Prod.mk.inj (Except.ok.inj hexec)
      have hcap := congrArg Table.changelistCap (hsame rfl)
      have hlt := (grow_cap h.nchanges_lt).1
      rw [Table.lose, hfull] at hcap
      exact absurd hcap (Nat.ne_of_gt hlt)
  · rw [if_neg hfull] at hexec
    exact ⟨fun h => absurd h hfull, nchanges_lt_of_record hexec⟩

/-! ## Runs of calls -/

theorem holds_iff (calls : List Call) (h : Bounded st) : Holds st calls ↔ Supplied st calls := by
  induction calls generalizing st with
  | nil => exact iff_of_true h.toConsistent trivial
  | cons call calls ih =>
      constructor
      · rintro ⟨-, code, kt, hexec, hsame, hrest⟩
        have hmeets := meets_of_exec h hexec hsame
        obtain ⟨kt', hexec', hnext⟩ := exec_bounded h hmeets
        obtain ⟨rfl, rfl⟩ := Prod.mk.inj (Except.ok.inj (hexec.symm.trans hexec'))
        refine ⟨hmeets, fun code' kt' hexec'' => ?_⟩
        obtain ⟨rfl, rfl⟩ := Prod.mk.inj (Except.ok.inj (hexec.symm.trans hexec''))
        exact (ih hnext).mp hrest
      · rintro ⟨hmeets, hrest⟩
        obtain ⟨kt, hexec, hnext⟩ := exec_bounded h hmeets
        exact ⟨h.toConsistent, 0, kt, hexec, fun h => absurd h (by decide),
          (ih hnext).mpr (hrest 0 kt hexec)⟩

/-- The state that `kqueue_table_init` leaves. -/
def initial : State where
  recorded := []
  table := kqueueTableInit

/-- The calls keep their promise exactly if `realloc` finds memory in every call that finds the
table full, and the counter has room in every call. -/
theorem kqueueTableChange_holds_iff (calls : List Call) :
    Holds initial calls ↔ Supplied initial calls :=
  holds_iff calls ⟨⟨Nat.le_refl 0, rfl, rfl⟩, by decide, by decide⟩

/-- A first call that finds no memory changes the capacity. -/
theorem kqueueTableChange_loses : ¬ ∀ calls : List Call, Holds initial calls := by
  intro hall
  obtain ⟨-, code, kt, hexec, hsame, -⟩ := hall
    [{ granted := false, event := keventSet 0 0 0 0 0 0 }]
  obtain ⟨rfl, rfl⟩ := Prod.mk.inj (Except.ok.inj hexec)
  exact absurd (congrArg Table.changelistCap (hsame rfl)) (by decide)

end Hlibc.Kqueue
