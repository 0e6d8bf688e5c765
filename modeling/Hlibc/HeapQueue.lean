import Hlibc.Heap

/-!
# The heap as a priority queue

`heapify`, `heap_add` and `heap_pop` over any sequence of calls, against a
multiset of elements from which a least one is taken.  The byte-wise exchange
counts with an `int`, so elements of 2^31 bytes and more are handled only as
long as none has to move.
-/

set_option autoImplicit false

namespace Hlibc.Heap

open MinHeap

variable {size : ℕ} {less : Buffer size → Buffer size → Bool}

/-! ## `heapify` -/

/-- Elements can be exchanged, or the array is in order already. -/
def HeapifyMeets (less : Buffer size → Buffer size → Bool) (obj : List UInt8) (n : ℕ) :
    Prop :=
  size < 2 ^ 31 ∨ Ordered (Less less) (slot size obj) n

section Heapify

variable {obj : List UInt8} {n : ℕ} (hn : size * n ≤ obj.length) (hint : n < 2 ^ 31)

include hn

theorem prefix_le {i : ℕ} (hi : i < n) : size * (i + 1) ≤ obj.length :=
  (Nat.mul_le_mul_left size hi).trans hn

include hint

/-- Elements of less than 2^31 bytes are rearranged into a heap. -/
theorem heapify_spec (hsize : size < 2 ^ 31) (hless : StrictWeak (Less less)) :
    ∃ obj', heapify less obj n = .ok obj' ∧ Rearranged size obj obj' n ∧
      Ordered (Less less) (slot size obj') n := by
  let I : ℕ × List UInt8 → Prop := fun st =>
    st.1 ≤ n ∧ Rearranged size obj st.2 n ∧ Ordered (Less less) (slot size st.2) st.1
  let Q : List UInt8 → Prop := fun cur =>
    Rearranged size obj cur n ∧ Ordered (Less less) (slot size cur) n
  have hpass : ∀ st, I st →
      (∃ r, heapifyPass less n st = .ok (.done r) ∧ Q r) ∨
        ∃ st', heapifyPass less n st = .ok (.next st') ∧ I st' ∧ n - st'.1 < n - st.1 := by
    rintro ⟨i, cur⟩ ⟨hi, hmoved, hcur⟩
    by_cases hlt : i < n
    · right
      have hroom : size * (i + 1) ≤ cur.length := by
        rw [hmoved.length_eq]
        exact prefix_le hn hlt
      obtain ⟨j, next, hup, -, hnext, hordered, -⟩ := heapUp_spec (Nat.lt_succ_self i) hroom
        hsize hless hcur.upReady
      refine ⟨(i + 1, next), ?_, ⟨hlt, hmoved.trans (hnext.mono hlt), hordered⟩, by
        simp only
        omega⟩
      simp only [heapifyPass, if_pos hlt, hup, Exec.ok_bind,
        incInt_of_lt (by omega : i < 2 ^ 31 - 1)]
    · left
      obtain rfl : i = n := Nat.le_antisymm hi (Nat.le_of_not_lt hlt)
      exact ⟨cur, if_neg hlt, hmoved, hcur⟩
  obtain ⟨obj', hloop, hmoved, hordered⟩ := loop_total
    (fun st : ℕ × List UInt8 => n - st.1) hpass (n + 1) (0, obj)
    ⟨Nat.zero_le n, Rearranged.refl obj, fun i _ h => absurd h (Nat.not_lt_zero i)⟩
    (Nat.lt_succ_of_le (Nat.sub_le n 0))
  exact ⟨obj', hloop, hmoved, hordered⟩

/-- An array in order is left alone, whatever the size of its elements. -/
theorem heapify_stay (hordered : Ordered (Less less) (slot size obj) n) :
    heapify less obj n = .ok obj := by
  let I : ℕ × List UInt8 → Prop := fun st => st.1 ≤ n ∧ st.2 = obj
  have hpass : ∀ st, I st →
      (∃ r, heapifyPass less n st = .ok (.done r) ∧ r = obj) ∨
        ∃ st', heapifyPass less n st = .ok (.next st') ∧ I st' ∧ n - st'.1 < n - st.1 := by
    rintro ⟨i, cur⟩ ⟨hi, hcur⟩
    simp only at hcur
    subst hcur
    by_cases hlt : i < n
    · right
      have hstop : i = 0 ∨ ¬ Less less (slot size cur i) (slot size cur (parent i)) := by
        rcases Nat.eq_zero_or_pos i with hzero | hpos
        · exact Or.inl hzero
        · exact Or.inr (hordered i hpos hlt)
      have hup := heapUp_stop (Nat.lt_succ_self i) (prefix_le hn hlt) hstop
      refine ⟨(i + 1, cur), ?_, ⟨hlt, rfl⟩, by
        simp only
        omega⟩
      simp only [heapifyPass, if_pos hlt, hup, Exec.ok_bind,
        incInt_of_lt (by omega : i < 2 ^ 31 - 1)]
    · left
      exact ⟨cur, if_neg hlt, rfl⟩
  obtain ⟨obj', hloop, rfl⟩ := loop_total
    (fun st : ℕ × List UInt8 => n - st.1) hpass (n + 1) (0, obj) ⟨Nat.zero_le n, rfl⟩
    (Nat.lt_succ_of_le (Nat.sub_le n 0))
  exact hloop

omit hint

/-- If nothing can be exchanged, `heapify` returns on arrays in order only. -/
theorem ordered_of_heapify (hsize : 2 ^ 31 ≤ size) {obj' : List UInt8}
    (hrun : heapify less obj n = .ok obj') : Ordered (Less less) (slot size obj) n := by
  let I : ℕ × List UInt8 → Prop := fun st =>
    st.2 = obj ∧ st.1 ≤ n ∧ Ordered (Less less) (slot size obj) st.1
  let Q : List UInt8 → Prop := fun _ => Ordered (Less less) (slot size obj) n
  have hnext : ∀ st st', I st → heapifyPass less n st = .ok (.next st') → I st' := by
    rintro ⟨i, cur⟩ st' ⟨hcur, hi, hordered⟩ hpass
    simp only at hcur
    subst hcur
    by_cases hlt : i < n
    · by_cases hstop : i = 0 ∨ ¬ Less less (slot size cur i) (slot size cur (parent i))
      · have hup := heapUp_stop (Nat.lt_succ_self i) (prefix_le hn hlt) hstop
        simp only [heapifyPass, if_pos hlt, hup, Exec.ok_bind] at hpass
        obtain ⟨k, hk, hst⟩ := Exec.bind_eq_ok.mp hpass
        obtain rfl : (k, cur) = st' := Pass.next.inj (Except.ok.inj hst)
        have hik : k = i + 1 := by
          unfold incInt at hk
          split at hk
          · exact (Except.ok.inj hk).symm
          · exact absurd hk (by simp)
        refine ⟨rfl, by simp only; omega, ?_⟩
        simp only [hik]
        exact hordered.upReady.stop hstop
      · push Not at hstop
        have hup := heapUp_overflow (Nat.lt_succ_self i) (prefix_le hn hlt) hsize
          (Nat.pos_of_ne_zero hstop.1) hstop.2
        simp only [heapifyPass, if_pos hlt, hup, Exec.error_bind] at hpass
        exact absurd hpass (by simp)
    · simp only [heapifyPass, if_neg hlt] at hpass
      exact absurd hpass (by simp)
  have hdone : ∀ st r, I st → heapifyPass less n st = .ok (.done r) → Q r := by
    rintro ⟨i, cur⟩ r ⟨hcur, hi, hordered⟩ hpass
    simp only at hcur
    subst hcur
    by_cases hlt : i < n
    · simp only [heapifyPass, if_pos hlt] at hpass
      obtain ⟨up, -, hrest⟩ := Exec.bind_eq_ok.mp hpass
      obtain ⟨k, -, hst⟩ := Exec.bind_eq_ok.mp hrest
      exact absurd hst (by simp)
    · obtain rfl : i = n := Nat.le_antisymm hi (Nat.le_of_not_lt hlt)
      exact hordered
  exact loop_partial hnext hdone (n + 1) (0, obj) obj'
    ⟨rfl, Nat.zero_le n, fun i _ h => absurd h (Nat.not_lt_zero i)⟩ hrun

end Heapify

/-! ## `heap_add` and `heap_pop` -/

/-- Elements can be exchanged, or the added one is in order where it is put. -/
def AddMeets (less : Buffer size → Buffer size → Bool) (elem : Buffer size)
    (obj : List UInt8) (n : ℕ) : Prop :=
  size < 2 ^ 31 ∨ n = 0 ∨ ¬ Less less elem (slot size obj (parent n))

/-- Elements can be exchanged, or the last one is in order at the root. -/
def PopMeets (less : Buffer size → Buffer size → Bool) (obj : List UInt8) (n : ℕ) : Prop :=
  size < 2 ^ 31 ∨ ∀ c, 0 < c → c < n - 1 → parent c = 0 →
    ¬ Less less (slot size obj c) (slot size obj (n - 1))

section Operations

variable {obj : List UInt8} {n : ℕ}

/-- The element is written behind the heap, and `heap_up` is called on it. -/
theorem heapAdd_write (less : Buffer size → Buffer size → Bool)
    (hroom : size * (n + 1) ≤ obj.length) (elem : Buffer size) :
    ∃ cur, cur.length = obj.length ∧
      slot size cur = Function.update (slot size obj) n elem ∧
      heapAdd less elem obj n = heapUp less n cur := by
  have hn : size * n + size ≤ obj.length := by rwa [Nat.mul_succ] at hroom
  obtain ⟨cur, hwrite, hlen, hslots⟩ := writeBytes_slots hn elem
  refine ⟨cur, hlen, hslots, ?_⟩
  rw [heapAdd, Nat.mul_comm n, hwrite, Exec.ok_bind]

/-- `heap_add` on a heap with room for one more element. -/
theorem heapAdd_spec (hless : StrictWeak (Less less)) (hroom : size * (n + 1) ≤ obj.length)
    (hordered : Ordered (Less less) (slot size obj) n) {elem : Buffer size}
    (hmeets : AddMeets less elem obj n) :
    ∃ j obj', heapAdd less elem obj n = .ok (size * j, obj') ∧ j < n + 1 ∧
      obj'.length = obj.length ∧
      contents (slot size obj') (n + 1) = elem ::ₘ contents (slot size obj) n ∧
      Ordered (Less less) (slot size obj') (n + 1) ∧ slot size obj' j = elem := by
  obtain ⟨cur, hlen, hslots, hrun⟩ := heapAdd_write less hroom elem
  have hroom' : size * (n + 1) ≤ cur.length := by rwa [hlen]
  have hsame : ∀ k < n, slot size cur k = slot size obj k := by
    intro k hk
    rw [hslots, Function.update_of_ne (Nat.ne_of_lt hk)]
  have helem : slot size cur n = elem := by rw [hslots, Function.update_self]
  have hcur : Ordered (Less less) (slot size cur) n := by
    intro i hi hin
    rw [hsame i hin, hsame _ ((parent_lt hi).trans hin)]
    exact hordered i hi hin
  have hcontents : contents (slot size cur) (n + 1) =
      elem ::ₘ contents (slot size obj) n := by
    rw [contents_succ, helem, contents_congr hsame]
  rcases hmeets with hsize | hstop
  · obtain ⟨j, obj', hup, hj, hmoved, hordered', hslot⟩ := heapUp_spec (Nat.lt_succ_self n)
      hroom' hsize hless hcur.upReady
    refine ⟨j, obj', hrun.trans hup, hj, hmoved.length_eq.trans hlen, ?_, hordered', ?_⟩
    · rw [hmoved.contents_eq, hcontents]
    · rw [hslot, helem]
  · have hstop' : n = 0 ∨ ¬ Less less (slot size cur n) (slot size cur (parent n)) := by
      rcases Nat.eq_zero_or_pos n with hzero | hpos
      · exact Or.inl hzero
      · right
        rw [helem, hsame _ (parent_lt hpos)]
        exact hstop.resolve_left (Nat.ne_of_gt hpos)
    refine ⟨n, cur, ?_, Nat.lt_succ_self n, hlen, hcontents, hcur.upReady.stop hstop', helem⟩
    rw [hrun, heapUp_stop (Nat.lt_succ_self n) hroom' hstop']

/-- Where the condition fails, `heap_add` runs into the counter of `memswap`. -/
theorem heapAdd_overflow (hroom : size * (n + 1) ≤ obj.length) {elem : Buffer size}
    (hmeets : ¬ AddMeets less elem obj n) :
    heapAdd less elem obj n = .error .overflow := by
  unfold AddMeets at hmeets
  push Not at hmeets
  obtain ⟨hsize, hpos, hlt⟩ := hmeets
  obtain ⟨cur, hlen, hslots, hrun⟩ := heapAdd_write less hroom elem
  have hparent := parent_lt (Nat.pos_of_ne_zero hpos)
  rw [hrun]
  apply heapUp_overflow (Nat.lt_succ_self n) (by rwa [hlen]) hsize (Nat.pos_of_ne_zero hpos)
  rw [hslots, Function.update_self, Function.update_of_ne (Nat.ne_of_lt hparent)]
  exact hlt

/-- The last element is written over the root, and `heap_down` is called. -/
theorem heapPop_write (less : Buffer size → Buffer size → Bool) (copy : Bool) (hn : 1 < n)
    (hroom : size * n ≤ obj.length) :
    ∃ cur, cur.length = obj.length ∧
      slot size cur = Function.update (slot size obj) 0 (slot size obj (n - 1)) ∧
      heapPop less copy obj n =
        (heapDown less 0 cur (n - 1) >>= fun obj' =>
          .ok (if copy then some (slot size obj 0) else none, obj')) := by
  have hfirst := slot_le (Nat.lt_of_succ_lt hn) hroom
  have hlast := slot_le (Nat.sub_lt (Nat.lt_of_succ_lt hn) Nat.one_pos) hroom
  obtain ⟨cur, hwrite, hlen, hslots⟩ := writeBytes_slots hfirst (slot size obj (n - 1))
  have hread := readElem_slot hlast
  have hread0 := readElem_slot hfirst
  rw [Nat.mul_zero] at hread0 hwrite
  rw [Nat.mul_comm] at hread
  refine ⟨cur, hlen, hslots, ?_⟩
  have hne : n ≠ 0 := by omega
  have hne' : n - 1 ≠ 0 := by omega
  cases copy with
  | false =>
      simp only [heapPop, if_neg hne, if_neg hne', hread, hwrite, Exec.ok_bind]
      rfl
  | true =>
      simp only [heapPop, if_neg hne, if_neg hne', hread0, hread, hwrite, Exec.ok_bind,
        Exec.map_ok, if_true]

theorem heapPop_spec (hpos : 0 < size) (hless : StrictWeak (Less less)) (copy : Bool)
    (hn : 0 < n) (hroom : size * n ≤ obj.length)
    (hordered : Ordered (Less less) (slot size obj) n) (hmeets : PopMeets less obj n) :
    ∃ obj', heapPop less copy obj n =
        .ok (if copy then some (slot size obj 0) else none, obj') ∧
      obj'.length = obj.length ∧
      contents (slot size obj) n = slot size obj 0 ::ₘ contents (slot size obj') (n - 1) ∧
      Ordered (Less less) (slot size obj') (n - 1) := by
  by_cases hone : n = 1
  · subst hone
    have hread := readElem_slot (slot_le hn hroom)
    rw [Nat.mul_zero] at hread
    refine ⟨obj, ?_, rfl, ?_, fun i _ h => absurd h (Nat.not_lt_zero i)⟩
    · cases copy with
      | false => rfl
      | true =>
          simp only [heapPop, if_neg Nat.one_ne_zero, if_true, hread, Exec.map_ok,
            Exec.ok_bind, Nat.sub_self]
    · rw [contents_succ]
  · have hmany : 1 < n := by omega
    obtain ⟨cur, hlen, hslots, hrun⟩ := heapPop_write less copy hmany hroom
    have hlt : 0 < n - 1 := by omega
    have hsame : ∀ k, 0 < k → slot size cur k = slot size obj k := by
      intro k hk
      rw [hslots, Function.update_of_ne (Nat.ne_of_gt hk)]
    have hroot : slot size cur 0 = slot size obj (n - 1) := by
      rw [hslots, Function.update_self]
    have hroom' : size * (n - 1) ≤ cur.length := by
      rw [hlen]
      exact (Nat.mul_le_mul_left size (Nat.sub_le n 1)).trans hroom
    have hready : DownReady (Less less) (slot size cur) (n - 1) 0 :=
      hordered.downReady (Nat.sub_le n 1) fun k hk _ => hsame k hk
    have hcontents : contents (slot size obj) n =
        slot size obj 0 ::ₘ contents (slot size cur) (n - 1) := by
      have hswap : contents (swapAt (slot size obj) 0 (n - 1)) n =
          contents (slot size obj) n := contents_swapAt _ hn (by omega)
      have hrest : contents (swapAt (slot size obj) 0 (n - 1)) (n - 1) =
          contents (slot size cur) (n - 1) := by
        apply contents_congr
        intro k hk
        rcases Nat.eq_zero_or_pos k with rfl | hk0
        · rw [swapAt_left, hroot]
        · rw [swapAt_of_ne _ (Nat.ne_of_gt hk0) (Nat.ne_of_lt hk), hsame k hk0]
      obtain ⟨m, rfl⟩ : ∃ m, n = m + 1 := ⟨n - 1, by omega⟩
      rw [Nat.add_sub_cancel] at hswap hrest ⊢
      rw [← hswap, contents_succ, swapAt_right, hrest]
    rcases hmeets with hsize | hstop
    · obtain ⟨obj', hdown, hmoved, hordered'⟩ := heapDown_spec hlt hroom' hpos hsize hless hready
      refine ⟨obj', ?_, hmoved.length_eq.trans hlen, ?_, hordered'⟩
      · rw [hrun, hdown, Exec.ok_bind]
      · rw [hmoved.contents_eq, hcontents]
    · have hstop' : ∀ c, 0 < c → c < n - 1 → parent c = 0 →
          ¬ Less less (slot size cur c) (slot size cur 0) := by
        intro c hc hcn hparent
        rw [hsame c hc, hroot]
        exact hstop c hc hcn hparent
      refine ⟨cur, ?_, hlen, hcontents, hready.stop hstop'⟩
      rw [hrun, heapDown_stop hlt hroom' hpos hless hstop', Exec.ok_bind]

/-- Where the condition fails, `heap_pop` runs into the counter of `memswap`. -/
theorem heapPop_overflow (hless : StrictWeak (Less less)) (copy : Bool)
    (hroom : size * n ≤ obj.length) (hmeets : ¬ PopMeets less obj n) :
    heapPop less copy obj n = .error .overflow := by
  unfold PopMeets at hmeets
  push Not at hmeets
  obtain ⟨hsize, c, hc, hcn, hparent, hlt⟩ := hmeets
  obtain ⟨cur, hlen, hslots, hrun⟩ := heapPop_write less copy (by omega) hroom
  have hroom' : size * (n - 1) ≤ cur.length := by
    rw [hlen]
    exact (Nat.mul_le_mul_left size (Nat.sub_le n 1)).trans hroom
  have hdown : heapDown less 0 cur (n - 1) = .error .overflow := by
    apply heapDown_overflow (by omega) hroom' hsize hless hc hcn hparent
    rw [hslots, Function.update_self, Function.update_of_ne (Nat.ne_of_gt hc)]
    exact hlt
  rw [hrun, hdown, Exec.error_bind]

end Operations

/-! ## Runs -/

/-- The array and the number of elements, which the caller keeps. -/
structure State where
  obj : List UInt8
  n : ℕ

/-- A call of `heap_add`, or of `heap_pop` with or without a place to copy to. -/
inductive Call (size : ℕ) where
  | add (elem : Buffer size)
  | pop (copy : Bool)

/-- What a call returns: the address from `heap_add`, the copy from `heap_pop`. -/
inductive Reply (size : ℕ) where
  | address (off : ℕ)
  | copied (elem : Option (Buffer size))

/-- One call, with the caller's count. -/
def step (less : Buffer size → Buffer size → Bool) (st : State) :
    Call size → Exec (State × Reply size)
  | .add elem => do
      let (off, obj) ← heapAdd less elem st.obj st.n
      .ok ({ obj := obj, n := st.n + 1 }, .address off)
  | .pop copy => do
      let (copied, obj) ← heapPop less copy st.obj st.n
      .ok ({ obj := obj, n := st.n - 1 }, .copied copied)

/-- The heap holds the multiset, in order. -/
structure Represents (less : Buffer size → Buffer size → Bool) (st : State)
    (queue : Multiset (Buffer size)) : Prop where
  contents_eq : contents (slot size st.obj) st.n = queue
  ordered : Ordered (Less less) (slot size st.obj) st.n

/-- A call on a priority queue: `add` puts an element in, and its address is
that of a slot that holds it; `pop` takes out an element than which no other is
less, and copies it if it is asked to. -/
def Answers (less : Buffer size → Buffer size → Bool) (queue : Multiset (Buffer size)) :
    Call size → Reply size → State → Multiset (Buffer size) → Prop
  | .add elem, .address off, st, queue' =>
      queue' = elem ::ₘ queue ∧ ∃ j < st.n, off = size * j ∧ slot size st.obj j = elem
  | .pop copy, .copied elem, _, queue' =>
      (queue = 0 ∧ queue' = 0 ∧ elem = none) ∨
        ∃ x, queue = x ::ₘ queue' ∧ (∀ y ∈ queue, ¬ Less less y x) ∧
          elem = if copy then some x else none
  | _, _, _, _ => False

/-- A run that simulates a priority queue: every call returns, answers as the
queue does, and leaves a heap that holds the queue. -/
def Simulates (less : Buffer size → Buffer size → Bool) :
    State → Multiset (Buffer size) → List (Call size) → Prop
  | st, queue, [] => Represents less st queue
  | st, queue, call :: calls =>
      Represents less st queue ∧ ∃ st' reply queue', step less st call = .ok (st', reply) ∧
        Answers less queue call reply st' queue' ∧ Simulates less st' queue' calls

/-- The array has `cap` places, and every `heap_add` finds one free. -/
def HasRoom (cap : ℕ) : ℕ → List (Call size) → Prop
  | _, [] => True
  | n, .add _ :: calls => n + 1 ≤ cap ∧ HasRoom cap (n + 1) calls
  | n, .pop _ :: calls => HasRoom cap (n - 1) calls

/-- The condition on one call, in the state it finds. -/
def StepMeets (less : Buffer size → Buffer size → Bool) (st : State) : Call size → Prop
  | .add elem => AddMeets less elem st.obj st.n
  | .pop _ => PopMeets less st.obj st.n

/-- Every call of a run meets the condition in the state it finds. -/
def RunMeets (less : Buffer size → Buffer size → Bool) : State → List (Call size) → Prop
  | _, [] => True
  | st, call :: calls =>
      StepMeets less st call ∧
        ∀ st' reply, step less st call = .ok (st', reply) → RunMeets less st' calls

section Run

variable (hpos : 0 < size) (hless : StrictWeak (Less less)) {cap : ℕ}

/-- A run that simulates starts from a heap that holds the queue. -/
theorem Simulates.represents {st : State} {queue : Multiset (Buffer size)}
    {calls : List (Call size)} (h : Simulates less st queue calls) :
    Represents less st queue := by
  cases calls with
  | nil => exact h
  | cons call calls => exact h.1

include hpos hless

/-- A call that meets the condition, on a heap that holds the queue. -/
theorem step_spec {st : State} {queue : Multiset (Buffer size)} {call : Call size}
    {calls : List (Call size)} (hcap : size * cap ≤ st.obj.length) (hn : st.n ≤ cap)
    (hroom : HasRoom cap st.n (call :: calls)) (hst : Represents less st queue)
    (hmeets : StepMeets less st call) :
    ∃ st' reply queue', step less st call = .ok (st', reply) ∧
      Answers less queue call reply st' queue' ∧ Represents less st' queue' ∧
      st'.obj.length = st.obj.length ∧ st'.n ≤ cap ∧ HasRoom cap st'.n calls := by
  obtain ⟨hcontents, hordered⟩ := hst
  cases call with
  | add elem =>
      obtain ⟨hfree, hrest⟩ := hroom
      obtain ⟨j, obj', hrun, hj, hlen, hcontents', hordered', hslot⟩ := heapAdd_spec hless
        ((Nat.mul_le_mul_left size hfree).trans hcap) hordered hmeets
      refine ⟨⟨obj', st.n + 1⟩, .address (size * j), elem ::ₘ queue, ?_,
        ⟨rfl, j, hj, rfl, hslot⟩, ⟨?_, hordered'⟩, hlen, hfree, hrest⟩
      · rw [step, hrun, Exec.ok_bind]
      · rw [hcontents', hcontents]
  | pop copy =>
      rcases Nat.eq_zero_or_pos st.n with hzero | hsome
      · have hqueue : queue = 0 := by
          rw [← hcontents, hzero]
          rfl
        have hrun : heapPop less copy st.obj st.n = .ok (none, st.obj) := if_pos hzero
        refine ⟨⟨st.obj, st.n - 1⟩, .copied none, 0, ?_, Or.inl ⟨hqueue, rfl, rfl⟩,
          ⟨?_, ?_⟩, rfl, (Nat.sub_le _ _).trans hn, hroom⟩
        · rw [step, hrun, Exec.ok_bind]
        · rw [hzero]
          rfl
        · rw [hzero]
          exact fun i _ h => absurd h (Nat.not_lt_zero i)
      · obtain ⟨obj', hrun, hlen, hcontents', hordered'⟩ := heapPop_spec hpos hless copy hsome
          ((Nat.mul_le_mul_left size hn).trans hcap) hordered hmeets
        refine ⟨⟨obj', st.n - 1⟩, .copied _, contents (slot size obj') (st.n - 1), ?_,
          Or.inr ⟨slot size st.obj 0, ?_, ?_, rfl⟩, ⟨rfl, hordered'⟩, hlen,
          (Nat.sub_le _ _).trans hn, hroom⟩
        · rw [step, hrun, Exec.ok_bind]
        · rw [← hcontents, hcontents']
        · intro y hy
          rw [← hcontents] at hy
          obtain ⟨i, hi, rfl⟩ := mem_contents.mp hy
          exact hordered.root hless hi

omit hpos in
/-- A call that does not meet the condition does not return. -/
theorem step_overflow {st : State} {call : Call size} {calls : List (Call size)}
    (hcap : size * cap ≤ st.obj.length) (hn : st.n ≤ cap)
    (hroom : HasRoom cap st.n (call :: calls)) (hmeets : ¬ StepMeets less st call) :
    step less st call = .error .overflow := by
  cases call with
  | add elem =>
      have hrun := heapAdd_overflow ((Nat.mul_le_mul_left size hroom.1).trans hcap) hmeets
      rw [step, hrun, Exec.error_bind]
  | pop copy =>
      have hrun := heapPop_overflow hless copy ((Nat.mul_le_mul_left size hn).trans hcap) hmeets
      rw [step, hrun, Exec.error_bind]

/-- From a heap that holds the queue, a run simulates the queue exactly when
every call meets the condition. -/
theorem simulates_iff {st : State} {queue : Multiset (Buffer size)}
    {calls : List (Call size)} (hcap : size * cap ≤ st.obj.length) (hn : st.n ≤ cap)
    (hroom : HasRoom cap st.n calls) (hst : Represents less st queue) :
    Simulates less st queue calls ↔ RunMeets less st calls := by
  induction calls generalizing st queue with
  | nil => exact ⟨fun _ => trivial, fun _ => hst⟩
  | cons call calls ih =>
      constructor
      · rintro ⟨-, st₁, reply₁, queue₁, hrun₁, -, hsim⟩
        have hmeets : StepMeets less st call := by
          by_contra hnot
          rw [step_overflow hless hcap hn hroom hnot] at hrun₁
          exact absurd hrun₁ (by simp)
        obtain ⟨st', reply, queue', hrun, -, -, hlen, hn', hroom'⟩ :=
          step_spec hpos hless hcap hn hroom hst hmeets
        rw [hrun] at hrun₁
        obtain ⟨rfl, rfl⟩ := Prod.mk.inj (Except.ok.inj hrun₁)
        refine ⟨hmeets, fun st₂ reply₂ hrun₂ => ?_⟩
        rw [hrun] at hrun₂
        obtain ⟨rfl, rfl⟩ := Prod.mk.inj (Except.ok.inj hrun₂)
        exact (ih (by rwa [hlen]) hn' hroom' hsim.represents).mp hsim
      · rintro ⟨hmeets, hrest⟩
        obtain ⟨st', reply, queue', hrun, hanswers, hst', hlen, hn', hroom'⟩ :=
          step_spec hpos hless hcap hn hroom hst hmeets
        exact ⟨hst, st', reply, queue', hrun, hanswers,
          (ih (by rwa [hlen]) hn' hroom' hst').mpr (hrest st' reply hrun)⟩

end Run

/-- `heapify` and then the calls: a run that simulates the queue of the elements
that the array held. -/
def HeapSimulates (less : Buffer size → Buffer size → Bool) (obj : List UInt8) (n : ℕ)
    (calls : List (Call size)) : Prop :=
  ∃ obj', heapify less obj n = .ok obj' ∧
    Simulates less ⟨obj', n⟩ (contents (slot size obj) n) calls

/-- `heapify` and every call meet the condition in the state they find. -/
def HeapMeets (less : Buffer size → Buffer size → Bool) (obj : List UInt8) (n : ℕ)
    (calls : List (Call size)) : Prop :=
  HeapifyMeets less obj n ∧
    ∀ obj', heapify less obj n = .ok obj' → RunMeets less ⟨obj', n⟩ calls

/-- Where its condition holds, `heapify` makes a heap of the same elements. -/
theorem heapify_represents {obj : List UInt8} {n : ℕ} (hless : StrictWeak (Less less))
    (hn : size * n ≤ obj.length) (hint : n < 2 ^ 31) (hmeets : HeapifyMeets less obj n) :
    ∃ obj', heapify less obj n = .ok obj' ∧ obj'.length = obj.length ∧
      Represents less ⟨obj', n⟩ (contents (slot size obj) n) := by
  rcases hmeets with hsize | hordered
  · obtain ⟨obj', hrun, hmoved, hordered⟩ := heapify_spec hn hint hsize hless
    exact ⟨obj', hrun, hmoved.length_eq, hmoved.contents_eq, hordered⟩
  · exact ⟨obj, heapify_stay hn hint hordered, rfl, rfl, hordered⟩

/-- For every strict weak order and every size of the elements, a run from an
array on which `heapify` was called simulates a priority queue exactly when
every call meets the condition. -/
theorem heapSimulates_iff (hpos : 0 < size) (hless : StrictWeak (Less less))
    {obj : List UInt8} {n cap : ℕ} {calls : List (Call size)} (hint : n < 2 ^ 31)
    (hcap : size * cap ≤ obj.length) (hn : n ≤ cap) (hroom : HasRoom cap n calls) :
    HeapSimulates less obj n calls ↔ HeapMeets less obj n calls := by
  have hfits : size * n ≤ obj.length := (Nat.mul_le_mul_left size hn).trans hcap
  constructor
  · rintro ⟨obj', hrun, hsim⟩
    have hmeets : HeapifyMeets less obj n := by
      rcases Nat.lt_or_ge size (2 ^ 31) with hsize | hsize
      · exact Or.inl hsize
      · exact Or.inr (ordered_of_heapify hfits hsize hrun)
    obtain ⟨made, hmade, hlen, hst⟩ := heapify_represents hless hfits hint hmeets
    refine ⟨hmeets, fun obj'' hrun' => ?_⟩
    rw [hrun] at hmade hrun'
    obtain rfl := Except.ok.inj hmade
    obtain rfl := Except.ok.inj hrun'
    exact (simulates_iff hpos hless (by rwa [hlen]) hn hroom hst).mp hsim
  · rintro ⟨hmeets, hrest⟩
    obtain ⟨obj', hrun, hlen, hst⟩ := heapify_represents hless hfits hint hmeets
    exact ⟨obj', hrun,
      (simulates_iff hpos hless (by rwa [hlen]) hn hroom hst).mpr (hrest obj' hrun)⟩

/-- The comparison of elements by their first byte. -/
def byteLess (x y : Buffer size) : Bool :=
  decide ((x.bytes.getD 0 0).toNat < (y.bytes.getD 0 0).toNat)

theorem byteLess_strictWeak :
    StrictWeak (Less (byteLess : Buffer size → Buffer size → Bool)) := by
  have hkey : Less (byteLess : Buffer size → Buffer size → Bool) =
      fun x y => (x.bytes.getD 0 0).toNat < (y.bytes.getD 0 0).toNat := by
    funext x y
    exact propext decide_eq_true_iff
  rw [hkey]
  exact StrictWeak.of_key _

/-- Two elements of one byte, to which one is added and one taken out. -/
theorem heapSimulates_bytes :
    HeapSimulates byteLess [7, 3, 0] 2 [.add ⟨[5], rfl⟩, .pop true] := by
  have hsmall : 1 < 2 ^ 31 := by decide
  have hmeets : HeapMeets byteLess [7, 3, 0] 2 [.add ⟨[5], rfl⟩, .pop true] :=
    ⟨Or.inl hsmall, fun _ _ =>
      ⟨Or.inl hsmall, fun _ _ _ => ⟨Or.inl hsmall, fun _ _ _ => trivial⟩⟩⟩
  have hcap : 1 * 3 ≤ [(7 : UInt8), 3, 0].length := by decide
  have hroom : HasRoom 3 2 [Call.add (⟨[5], rfl⟩ : Buffer 1), .pop true] :=
    ⟨by decide, trivial⟩
  exact (heapSimulates_iff Nat.one_pos byteLess_strictWeak (by decide) hcap (by decide)
    hroom).mpr hmeets

/-- Two elements of `size` bytes, the second less than the first. -/
def twoElements (size : ℕ) : List UInt8 := List.replicate size 1 ++ List.replicate size 0

theorem slot_twoElements (size : ℕ) :
    (slot size (twoElements size) 0).bytes = List.replicate size 1 ∧
      (slot size (twoElements size) 1).bytes = List.replicate size 0 := by
  have hone : (List.replicate size (1 : UInt8)).length = size := List.length_replicate
  have hzero : (List.replicate size (0 : UInt8)).length = size := List.length_replicate
  have hlen : (twoElements size).length = size + size := by
    rw [twoElements, List.length_append, hone, hzero]
  constructor
  · rw [slot, dif_pos (by omega)]
    change List.take size (List.drop (size * 0) _) = _
    rw [Nat.mul_zero, List.drop_zero, twoElements, List.take_left' hone]
  · rw [slot, dif_pos (by omega)]
    change List.take size (List.drop (size * 1) _) = _
    rw [Nat.mul_one, twoElements, List.drop_left' hone, List.take_of_length_le (by omega)]

theorem twoElements_less (hpos : 0 < size) :
    Less byteLess (slot size (twoElements size) 1) (slot size (twoElements size) 0) := by
  obtain ⟨hfirst, hsecond⟩ := slot_twoElements size
  have hget : ∀ b : UInt8, (List.replicate size b).getD 0 0 = b := by
    intro b
    rw [List.getD_eq_getElem _ _ (by rwa [List.length_replicate]), List.getElem_replicate]
  rw [Less, byteLess, hfirst, hsecond, hget, hget]
  decide

/-- Two elements of 2^31 bytes that `heapify` would have to exchange. -/
theorem heapify_largeElements :
    ¬ ∀ (size n cap : ℕ) (less : Buffer size → Buffer size → Bool) (obj : List UInt8)
        (calls : List (Call size)), 0 < size → StrictWeak (Less less) → n < 2 ^ 31 →
      size * cap ≤ obj.length → n ≤ cap → HasRoom cap n calls →
        HeapSimulates less obj n calls := by
  intro h
  obtain ⟨size, hsize⟩ : ∃ size : ℕ, 2 ^ 31 ≤ size := ⟨2 ^ 31, Nat.le_refl _⟩
  have hpos : 0 < size := Nat.lt_of_lt_of_le (by decide) hsize
  have hlen : size * 2 ≤ (twoElements size).length := by
    rw [twoElements, List.length_append, List.length_replicate, List.length_replicate]
    omega
  obtain ⟨obj', hrun, -⟩ := h size 2 2 byteLess (twoElements size) [] hpos byteLess_strictWeak
    (by decide) hlen (Nat.le_refl 2) trivial
  have hordered := ordered_of_heapify hlen hsize hrun
  exact hordered 1 Nat.one_pos (by decide) (twoElements_less hpos)

end Hlibc.Heap
