import Hlibc.HeapQueue

/-!
# Sorting with the heap

`heapify` once and `heap_pop` again and again: what is copied out comes in order, and what has
not been copied yet is still a heap.
-/

set_option autoImplicit false

namespace Hlibc.Heap

open MinHeap

variable {size : ℕ} {less : Buffer size → Buffer size → Bool}

/-- `k` calls of `heap_pop`, each with a place to copy to, and the count kept by the caller. -/
def heapPops (less : Buffer size → Buffer size → Bool) :
    ℕ → State → Exec (List (Option (Buffer size)) × State)
  | 0, st => .ok ([], st)
  | k + 1, st => do
      let (copied, obj) ← heapPop less true st.obj st.n
      let (rest, st) ← heapPops less k { obj := obj, n := st.n - 1 }
      .ok (copied :: rest, st)

theorem heapPops_succ {k n : ℕ} {obj obj' : List UInt8} {copied : Option (Buffer size)}
    {rest : List (Option (Buffer size))} {st : State}
    (hrun : heapPop less true obj n = .ok (copied, obj'))
    (hrest : heapPops less k ⟨obj', n - 1⟩ = .ok (rest, st)) :
    heapPops less (k + 1) ⟨obj, n⟩ = .ok (copied :: rest, st) := by
  simp only [heapPops, hrun, hrest, Exec.ok_bind]

theorem heapPops_empty (k : ℕ) (obj : List UInt8) :
    heapPops less k ⟨obj, 0⟩ = .ok (List.replicate k none, ⟨obj, 0⟩) := by
  induction k with
  | zero => rfl
  | succ k ih => exact heapPops_succ (if_pos rfl) ih

/-- The elements that are copied out of a heap come in order, none of those that are left is
less than one of them, and those that are left are a heap. -/
theorem heapPops_spec (hpos : 0 < size) (hsize : size < 2 ^ 31) (hless : StrictWeak (Less less))
    {n : ℕ} {obj : List UInt8} {queue : Multiset (Buffer size)} (k : ℕ)
    (hroom : size * n ≤ obj.length) (hst : Represents less ⟨obj, n⟩ queue) :
    ∃ (out : List (Buffer size)) (st : State),
      heapPops less k ⟨obj, n⟩ = .ok (out.map some ++ List.replicate (k - n) none, st) ∧
      st.n = n - k ∧ out.length = min k n ∧
      queue = ↑out + contents (slot size st.obj) st.n ∧
      out.Pairwise (fun x y => ¬ Less less y x) ∧
      (∀ x ∈ out, ∀ y ∈ contents (slot size st.obj) st.n, ¬ Less less y x) ∧
      Ordered (Less less) (slot size st.obj) st.n := by
  obtain ⟨hcontents, hordered⟩ := hst
  induction k generalizing n obj queue with
  | zero =>
      exact ⟨[], ⟨obj, n⟩, by simp [heapPops], rfl, by simp, by simpa using hcontents.symm,
        List.Pairwise.nil, by simp, hordered⟩
  | succ k ih =>
      rcases Nat.eq_zero_or_pos n with rfl | hn
      · refine ⟨[], ⟨obj, 0⟩, by simpa using heapPops_empty (k + 1) obj, by simp, by simp, ?_,
          List.Pairwise.nil, by simp, hordered⟩
        simpa using hcontents.symm
      · obtain ⟨obj', hrun, hlen, hparts, hordered'⟩ := heapPop_spec hpos hless true hn hroom
          hordered (Or.inl hsize)
        have hroom' : size * (n - 1) ≤ obj'.length := by
          rw [hlen]
          exact (Nat.mul_le_mul_left size (Nat.sub_le n 1)).trans hroom
        obtain ⟨out, st, hruns, hcount, houtlen, hqueue, hsorted, hleft, hheap⟩ :=
          ih hroom' rfl hordered'
        have hroot : ∀ y ∈ contents (slot size obj') (n - 1), ¬ Less less y (slot size obj 0) := by
          intro y hy
          have hmem : y ∈ contents (slot size obj) n := by
            rw [hparts]
            exact Multiset.mem_cons_of_mem hy
          obtain ⟨i, hi, rfl⟩ := mem_contents.mp hmem
          exact hordered.root hless hi
        rw [hqueue] at hroot
        refine ⟨slot size obj 0 :: out, st, ?_, by omega, ?_, ?_, ?_, ?_, hheap⟩
        · have hsub : k + 1 - n = k - (n - 1) := by omega
          rw [hsub]
          exact heapPops_succ (by simpa using hrun) hruns
        · rw [List.length_cons, houtlen]
          omega
        · rw [← hcontents, hparts, hqueue, ← Multiset.cons_coe, Multiset.cons_add]
        · refine List.pairwise_cons.mpr ⟨fun y hy => hroot y ?_, hsorted⟩
          exact Multiset.mem_add.mpr (Or.inl (Multiset.mem_coe.mpr hy))
        · intro x hx y hy
          rcases List.mem_cons.mp hx with rfl | hx
          · exact hroot y (Multiset.mem_add.mpr (Or.inr hy))
          · exact hleft x hx y hy

/-- After `heapify`, `k` calls of `heap_pop` copy out the `k` least elements in order, or all
elements and then nothing; and what is left in the array is a heap of the others. -/
theorem heapify_heapPops_sorted {obj : List UInt8} {n : ℕ} (k : ℕ) (hpos : 0 < size)
    (hsize : size < 2 ^ 31) (hless : StrictWeak (Less less)) (hint : n < 2 ^ 31)
    (hroom : size * n ≤ obj.length) :
    ∃ (heap : List UInt8) (out : List (Buffer size)) (st : State),
      heapify less obj n = .ok heap ∧
      heapPops less k ⟨heap, n⟩ = .ok (out.map some ++ List.replicate (k - n) none, st) ∧
      out.length = min k n ∧
      contents (slot size obj) n = ↑out + contents (slot size st.obj) (n - k) ∧
      out.Pairwise (fun x y => ¬ Less less y x) ∧
      (∀ x ∈ out, ∀ y ∈ contents (slot size st.obj) (n - k), ¬ Less less y x) ∧
      Ordered (Less less) (slot size st.obj) (n - k) := by
  obtain ⟨heap, hrun, hlen, hst⟩ := heapify_represents hless hroom hint (Or.inl hsize)
  obtain ⟨out, st, hruns, hcount, hout, hqueue, hsorted, hleft, hheap⟩ :=
    heapPops_spec hpos hsize hless k (by rwa [hlen]) hst
  rw [hcount] at hqueue hleft hheap
  exact ⟨heap, out, st, hrun, hruns, hout, hqueue, hsorted, hleft, hheap⟩

/-- Of three bytes the two least ones are copied out in order, and the greatest is left. -/
theorem heapify_heapPops_sorted_bytes :
    ∃ (heap : List UInt8) (out : List (Buffer 1)) (st : State),
      heapify (byteLess : Buffer 1 → Buffer 1 → Bool) [9, 3, 7] 3 = .ok heap ∧
      heapPops byteLess 2 ⟨heap, 3⟩ = .ok (out.map some, st) ∧ out.length = 2 ∧
      out.Pairwise (fun x y => ¬ Less byteLess y x) := by
  obtain ⟨heap, out, st, hrun, hruns, hout, -, hsorted, -, -⟩ :=
    heapify_heapPops_sorted 2 Nat.one_pos (by decide) byteLess_strictWeak (by decide)
      (show 1 * 3 ≤ ([9, 3, 7] : List UInt8).length by decide)
  exact ⟨heap, out, st, hrun, by simpa using hruns, hout, hsorted⟩

end Hlibc.Heap
