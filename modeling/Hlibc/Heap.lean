import Hlibc.Support.MinHeap
import Hlibc.Support.Memory
import Mathlib.Data.List.GetD

/-!
# `heap.c`

A heap of elements of `size` bytes each in one byte object, ordered by a
comparison of two elements.  Addresses are offsets into the object.
-/

set_option autoImplicit false

namespace Hlibc.Heap

/-! ## The functions of the source -/

/-- One pass of the loop of `memswap`, whose counter is an `int`. -/
def memswapPass (a b n : ℕ) (st : ℕ × List UInt8) :
    Exec (Pass (ℕ × List UInt8) (List UInt8)) :=
  let (i, obj) := st
  if i < n then do
    let tmp ← readByte obj (a + i)
    let byte ← readByte obj (b + i)
    let obj ← writeByte obj (a + i) byte
    let obj ← writeByte obj (b + i) tmp
    let i ← incInt i
    .ok (.next (i, obj))
  else .ok (.done obj)

/-- `memswap` of `n` bytes at `a` and `b` in one object. -/
def memswap (obj : List UInt8) (a b n : ℕ) : Exec (List UInt8) :=
  loop (memswapPass a b n) (n + 1) (0, obj)

/-- `PARENT(i)`. -/
def parentIndex (i : ℕ) : ℕ := (i - 1) >>> 1

/-- `LEFT(i)`. -/
def leftIndex (i : ℕ) : ℕ := i <<< 1 + 1

/-- `RIGHT(i)`. -/
def rightIndex (i : ℕ) : ℕ := i <<< 1 + 2

/-- The element at an address, as a call of `less` reads it. -/
def readElem (size : ℕ) (obj : List UInt8) (off : ℕ) : Exec (Buffer size) :=
  if h : off + size ≤ obj.length then
    .ok ⟨(obj.drop off).take size, by
      rw [List.length_take, List.length_drop]
      omega⟩
  else .error .read

section Functions

variable {size : ℕ} (less : Buffer size → Buffer size → Bool)

/-- One pass of the loop of `heap_up`. -/
def heapUpPass (st : ℕ × List UInt8) :
    Exec (Pass (ℕ × List UInt8) (ℕ × List UInt8)) :=
  let (i, obj) := st
  if i > 0 then do
    let pos := size * i
    let parent := size * parentIndex i
    let x ← readElem size obj pos
    let y ← readElem size obj parent
    if !less x y then .ok (.done (i, obj)) else
    let obj ← memswap obj pos parent size
    .ok (.next (parentIndex i, obj))
  else .ok (.done (i, obj))

/-- `heap_up`: the address returned, and the object. -/
def heapUp (target : ℕ) (obj : List UInt8) : Exec (ℕ × List UInt8) := do
  let (i, obj) ← loop (heapUpPass less) (target + 1) (target, obj)
  .ok (size * i, obj)

/-- Exchange the element at place `child` with the one at `i`, if it is less. -/
def descend (child i : ℕ) (obj : List UInt8) : Exec (ℕ × List UInt8) := do
  let x ← readElem size obj (size * child)
  let y ← readElem size obj (size * i)
  if less x y then do
    let obj ← memswap obj (size * child) (size * i) size
    .ok (child, obj)
  else .ok (i, obj)

/-- One pass of the loop of `heap_down`. -/
def heapDownPass (n : ℕ) (st : ℕ × List UInt8) :
    Exec (Pass (ℕ × List UInt8) (List UInt8)) :=
  let (i, obj) := st
  if i < n then do
    let prev := i
    let left := size * leftIndex i
    let right := size * rightIndex i
    let (i, obj) ← (
      if right < n * size then do
        let l ← readElem size obj left
        let r ← readElem size obj right
        if less l r then descend less (leftIndex i) i obj
        else descend less (rightIndex i) i obj
      else if left < n * size then descend less (leftIndex i) i obj
      else .ok (i, obj) : Exec (ℕ × List UInt8))
    if prev = i then .ok (.done obj) else .ok (.next (i, obj))
  else .ok (.done obj)

/-- `heap_down` on the first `n` elements. -/
def heapDown (target : ℕ) (obj : List UInt8) (n : ℕ) : Exec (List UInt8) :=
  loop (heapDownPass less n) (n + 1) (target, obj)

/-- One pass of the loop of `heapify`, whose counter is an `int`. -/
def heapifyPass (n : ℕ) (st : ℕ × List UInt8) :
    Exec (Pass (ℕ × List UInt8) (List UInt8)) :=
  let (i, obj) := st
  if i < n then do
    let (_, obj) ← heapUp less i obj
    let i ← incInt i
    .ok (.next (i, obj))
  else .ok (.done obj)

def heapify (obj : List UInt8) (n : ℕ) : Exec (List UInt8) :=
  loop (heapifyPass less n) (n + 1) (0, obj)

/-- `heap_add`: the address returned, and the object. -/
def heapAdd (elem : Buffer size) (obj : List UInt8) (n : ℕ) :
    Exec (ℕ × List UInt8) := do
  let obj ← writeBytes obj (n * size) elem.bytes
  heapUp less n obj

/-- `heap_pop`: what it wrote to `copy`, if it is called with one and writes to
it, and the object. -/
def heapPop (copy : Bool) (obj : List UInt8) (n : ℕ) :
    Exec (Option (Buffer size) × List UInt8) :=
  if n = 0 then .ok (none, obj) else do
    let copied ← if copy then some <$> readElem size obj 0 else .ok none
    let n := n - 1
    if n = 0 then .ok (copied, obj) else do
      let last ← readElem size obj (n * size)
      let obj ← writeBytes obj 0 last.bytes
      let obj ← heapDown less 0 obj n
      .ok (copied, obj)

/-- `LEFT(i)`, where `i` is an `int`. -/
def leftInt (i : ℕ) : Exec ℕ :=
  if leftIndex i < 2 ^ 31 then .ok (leftIndex i) else .error .overflow

/-- `RIGHT(i)`, where `i` is an `int`. -/
def rightInt (i : ℕ) : Exec ℕ :=
  if rightIndex i < 2 ^ 31 then .ok (rightIndex i) else .error .overflow

/-- `child < end && !less(pos, child)`. -/
def childFails (obj : List UInt8) (n pos child : ℕ) : Exec Bool :=
  if child < n * size then do
    let x ← readElem size obj pos
    let y ← readElem size obj child
    .ok (!less x y)
  else .ok false

/-- One pass of the loop of `is_minheap`, whose counter is an `int`. -/
def isMinheapPass (obj : List UInt8) (n i : ℕ) : Exec (Pass ℕ Bool) :=
  if i < n then do
    let pos := size * i
    let left ← leftInt i
    let right ← rightInt i
    let fails ← orElse (childFails less obj n pos (size * left))
      (childFails less obj n pos (size * right))
    if fails then .ok (.done false) else
    let i ← incInt i
    .ok (.next i)
  else .ok (.done true)

/-- `is_minheap` on the first `n` elements. -/
def isMinheap (obj : List UInt8) (n : ℕ) : Exec Bool :=
  loop (isMinheapPass less obj n) (n + 1) 0

end Functions

/-! ## Exchanging bytes -/

/-- The object after `i` passes of `memswap`. -/
def swapped (obj : List UInt8) (a b : ℕ) : ℕ → List UInt8
  | 0 => obj
  | i + 1 =>
      let cur := swapped obj a b i
      (cur.set (a + i) (cur.getD (b + i) 0)).set (b + i) (cur.getD (a + i) 0)

@[simp] theorem length_swapped (obj : List UInt8) (a b i : ℕ) :
    (swapped obj a b i).length = obj.length := by
  induction i with
  | zero => rfl
  | succ i ih => simp [swapped, ih]

/-- Byte by byte: two stretches that do not overlap have changed places. -/
theorem getElem?_swapped {obj : List UInt8} {a b i : ℕ} (ha : a + i ≤ obj.length)
    (hb : b + i ≤ obj.length) (hdisj : a + i ≤ b ∨ b + i ≤ a) (k : ℕ) :
    (swapped obj a b i)[k]? =
      if a ≤ k ∧ k < a + i then obj[b + (k - a)]?
      else if b ≤ k ∧ k < b + i then obj[a + (k - b)]? else obj[k]? := by
  induction i generalizing k with
  | zero =>
      rw [swapped, if_neg (by omega), if_neg (by omega)]
  | succ i ih =>
      have hcur := ih (by omega) (by omega) (by omega)
      have hgeta : (swapped obj a b i).getD (a + i) 0 = obj.getD (a + i) 0 := by
        rw [List.getD_eq_getElem?_getD, hcur, if_neg (by omega), if_neg (by omega),
          List.getD_eq_getElem?_getD]
      have hgetb : (swapped obj a b i).getD (b + i) 0 = obj.getD (b + i) 0 := by
        rw [List.getD_eq_getElem?_getD, hcur, if_neg (by omega), if_neg (by omega),
          List.getD_eq_getElem?_getD]
      have hsome : ∀ j, j < obj.length → some (obj.getD j 0) = obj[j]? := by
        intro j hj
        rw [List.getD_eq_getElem _ _ hj, List.getElem?_eq_getElem hj]
      simp only [swapped, hgeta, hgetb, List.getElem?_set, List.length_set,
        length_swapped]
      by_cases hkb : b + i = k
      · subst hkb
        rw [if_pos rfl, if_pos (by omega), if_neg (by omega), if_pos (by omega),
          hsome _ (by omega), Nat.add_sub_cancel_left]
      · by_cases hka : a + i = k
        · subst hka
          rw [if_neg hkb, if_pos rfl, if_pos (by omega), if_pos (by omega),
            hsome _ (by omega), Nat.add_sub_cancel_left]
        · rw [if_neg hkb, if_neg hka, hcur]
          by_cases hina : a ≤ k ∧ k < a + i
          · rw [if_pos hina, if_pos (by omega)]
          · by_cases hinb : b ≤ k ∧ k < b + i
            · rw [if_neg hina, if_pos hinb, if_neg (by omega), if_pos (by omega)]
            · rw [if_neg hina, if_neg hinb, if_neg (by omega), if_neg (by omega)]

section Memswap

variable {obj : List UInt8} {a b n : ℕ} (ha : a + n ≤ obj.length)
  (hb : b + n ≤ obj.length)

include ha hb

/-- A pass of `memswap` exchanges one byte and counts it, if the counter has
room. -/
theorem memswapPass_step {i : ℕ} (hi : i < n) :
    memswapPass a b n (i, swapped obj a b i) =
      (incInt i >>= fun j => .ok (.next (j, swapped obj a b (i + 1)))) := by
  have hlen := length_swapped obj a b i
  simp only [memswapPass, if_pos hi]
  rw [readByte_of_lt (by omega), Exec.ok_bind, readByte_of_lt (by omega), Exec.ok_bind,
    writeByte_of_lt (by omega), Exec.ok_bind,
    writeByte_of_lt (by rw [List.length_set]; omega), Exec.ok_bind, swapped,
    List.getD_eq_getElem _ _ (by omega), List.getD_eq_getElem _ _ (by omega)]

/-- Where the counter has room, `memswap` gets to any pass. -/
theorem memswap_reach {i : ℕ} (hi : i ≤ n) (hint : i ≤ 2 ^ 31 - 1) (budget : ℕ) :
    loop (memswapPass a b n) (budget + i) (0, obj) =
      loop (memswapPass a b n) budget (i, swapped obj a b i) := by
  induction i generalizing budget with
  | zero => rfl
  | succ i ih =>
      have hstep := memswapPass_step ha hb (i := i) (by omega)
      rw [incInt_of_lt (by omega), Exec.ok_bind] at hstep
      have hshift : budget + (i + 1) = budget + 1 + i := by omega
      rw [hshift, ih (by omega) (by omega), loop_next hstep]

theorem memswap_ok (hint : n < 2 ^ 31) :
    memswap obj a b n = .ok (swapped obj a b n) := by
  have hreach := memswap_reach ha hb (Nat.le_refl n) (by omega) 1
  have hdone : memswapPass a b n (n, swapped obj a b n) =
      .ok (.done (swapped obj a b n)) := if_neg (Nat.lt_irrefl n)
  rw [memswap, Nat.add_comm n 1, hreach, loop_done hdone]

/-- The counter of `memswap` overflows on 2^31 bytes and more. -/
theorem memswap_overflow (hint : 2 ^ 31 ≤ n) :
    memswap obj a b n = .error .overflow := by
  have hreach := memswap_reach ha hb (i := 2 ^ 31 - 1) (by omega) (Nat.le_refl _)
    (n + 1 - (2 ^ 31 - 1))
  have hstep := memswapPass_step ha hb (i := 2 ^ 31 - 1) (by omega)
  have hfull : incInt (2 ^ 31 - 1) = .error .overflow := if_neg (Nat.lt_irrefl _)
  rw [hfull, Exec.error_bind] at hstep
  rw [Nat.sub_add_cancel (by omega)] at hreach
  obtain ⟨budget, hbudget⟩ : ∃ k, n + 1 - (2 ^ 31 - 1) = k + 1 :=
    ⟨n + 1 - (2 ^ 31 - 1) - 1, by omega⟩
  rw [memswap, hreach, hbudget, loop_error hstep]

end Memswap

/-! ## Elements -/

open MinHeap

/-- The element at place `i` of an object that is long enough. -/
def slot (size : ℕ) (obj : List UInt8) (i : ℕ) : Buffer size :=
  if h : size * i + size ≤ obj.length then
    ⟨(obj.drop (size * i)).take size, by
      rw [List.length_take, List.length_drop]
      omega⟩
  else ⟨List.replicate size 0, List.length_replicate⟩

section Slots

variable {size : ℕ} {obj : List UInt8} {i j n : ℕ}

theorem slot_le (hi : i < n) (hn : size * n ≤ obj.length) :
    size * i + size ≤ obj.length := by
  have hle : size * (i + 1) ≤ size * n := Nat.mul_le_mul_left size hi
  rw [Nat.mul_succ] at hle
  omega

theorem readElem_slot (hi : size * i + size ≤ obj.length) :
    readElem size obj (size * i) = .ok (slot size obj i) := by
  rw [readElem, slot, dif_pos hi, dif_pos hi]

/-- Two places are apart by at least the size of an element. -/
theorem slot_apart (size : ℕ) (hne : i ≠ j) :
    size * i + size ≤ size * j ∨ size * j + size ≤ size * i := by
  rcases Nat.lt_or_gt_of_ne hne with hlt | hlt
  · left
    have hle : size * (i + 1) ≤ size * j := Nat.mul_le_mul_left size hlt
    rwa [Nat.mul_succ] at hle
  · right
    have hle : size * (j + 1) ≤ size * i := Nat.mul_le_mul_left size hlt
    rwa [Nat.mul_succ] at hle

/-- The elements of two objects are equal where their bytes are. -/
theorem slot_congr {obj' : List UInt8} (hlen : obj'.length = obj.length)
    (hi : size * i + size ≤ obj.length) (hj : size * j + size ≤ obj.length)
    (hbytes : ∀ k < size, obj'[size * i + k]? = obj[size * j + k]?) :
    slot size obj' i = slot size obj j := by
  have hi' : size * i + size ≤ obj'.length := by rwa [hlen]
  rw [slot, slot, dif_pos hi', dif_pos hj, Buffer.mk.injEq]
  apply List.ext_getElem?
  intro k
  rw [List.getElem?_take, List.getElem?_take]
  by_cases hk : k < size
  · rw [if_pos hk, if_pos hk, List.getElem?_drop, List.getElem?_drop, hbytes k hk]
  · rw [if_neg hk, if_neg hk]

theorem slot_of_lt {obj' : List UInt8} (hlen : obj'.length = obj.length)
    (hbytes : ∀ k < size, obj'[size * i + k]? = obj[size * i + k]?) :
    slot size obj' i = slot size obj i := by
  by_cases hi : size * i + size ≤ obj.length
  · exact slot_congr hlen hi hi hbytes
  · rw [slot, slot, dif_neg hi, dif_neg (by rwa [hlen])]

/-- Exchanging the bytes of two elements exchanges the elements. -/
theorem slot_swapped (hne : i ≠ j) (hi : size * i + size ≤ obj.length)
    (hj : size * j + size ≤ obj.length) :
    slot size (swapped obj (size * i) (size * j) size) =
      swapAt (slot size obj) i j := by
  have hlen := length_swapped obj (size * i) (size * j) size
  have hbyte := getElem?_swapped hi hj (slot_apart size hne)
  funext k
  by_cases hki : k = i
  · subst hki
    rw [swapAt_left]
    refine slot_congr hlen hi hj fun t ht => ?_
    rw [hbyte, if_pos (by omega), Nat.add_sub_cancel_left]
  by_cases hkj : k = j
  · subst hkj
    rw [swapAt_right]
    refine slot_congr hlen hj hi fun t ht => ?_
    have hapart := slot_apart size hne
    rw [hbyte, if_neg (by omega), if_pos (by omega), Nat.add_sub_cancel_left]
  · rw [swapAt_of_ne _ hki hkj]
    refine slot_of_lt hlen fun t ht => ?_
    have hi' := slot_apart size hki
    have hj' := slot_apart size hkj
    rw [hbyte, if_neg (by omega), if_neg (by omega)]

/-- An exchange of two elements of less than 2^31 bytes. -/
theorem memswap_slots (hsize : size < 2 ^ 31) (hne : i ≠ j)
    (hi : size * i + size ≤ obj.length) (hj : size * j + size ≤ obj.length) :
    ∃ obj', memswap obj (size * i) (size * j) size = .ok obj' ∧
      obj'.length = obj.length ∧ slot size obj' = swapAt (slot size obj) i j :=
  ⟨_, memswap_ok hi hj hsize, length_swapped _ _ _ _, slot_swapped hne hi hj⟩

theorem writeBytes_slots (hi : size * i + size ≤ obj.length) (elem : Buffer size) :
    ∃ obj', writeBytes obj (size * i) elem.bytes = .ok obj' ∧
      obj'.length = obj.length ∧
      slot size obj' = Function.update (slot size obj) i elem := by
  have hsize := elem.length_bytes
  have hroom : size * i + elem.bytes.length ≤ obj.length := by rwa [hsize]
  have hlen : (obj.take (size * i) ++ elem.bytes ++
      obj.drop (size * i + elem.bytes.length)).length = obj.length := by
    simp only [List.length_append, List.length_take, List.length_drop]
    omega
  refine ⟨_, writeBytes_of_le hroom, hlen, ?_⟩
  funext k
  by_cases hk : k = i
  · subst hk
    have hfront : (obj.take (size * k)).length = size * k := by
      rw [List.length_take]
      omega
    rw [Function.update_self, slot, dif_pos (by rwa [hlen])]
    ext1
    change List.take size (List.drop (size * k) _) = _
    rw [List.append_assoc, List.drop_left' hfront, List.take_left' hsize]
  · rw [Function.update_of_ne hk]
    refine slot_of_lt hlen fun t ht => getElem?_overwrite hroom ?_
    have hapart := slot_apart size hk
    omega

end Slots

/-- The first `n` elements are rearranged, and nothing else changes. -/
structure Rearranged (size : ℕ) (obj obj' : List UInt8) (n : ℕ) : Prop where
  length_eq : obj'.length = obj.length
  contents_eq : contents (slot size obj') n = contents (slot size obj) n
  rest_eq : ∀ k, n ≤ k → slot size obj' k = slot size obj k

namespace Rearranged

variable {size n : ℕ} {obj obj' obj'' : List UInt8}

theorem refl (obj : List UInt8) : Rearranged size obj obj n :=
  ⟨rfl, rfl, fun _ _ => rfl⟩

theorem trans (h : Rearranged size obj obj' n) (h' : Rearranged size obj' obj'' n) :
    Rearranged size obj obj'' n :=
  ⟨h'.length_eq.trans h.length_eq, h'.contents_eq.trans h.contents_eq,
    fun k hk => (h'.rest_eq k hk).trans (h.rest_eq k hk)⟩

theorem swap {i j : ℕ} (hi : i < n) (hj : j < n) (hlen : obj'.length = obj.length)
    (hslots : slot size obj' = swapAt (slot size obj) i j) : Rearranged size obj obj' n :=
  ⟨hlen, by rw [hslots, contents_swapAt _ hi hj],
    fun k hk => by rw [hslots, swapAt_of_ne _ (by omega) (by omega)]⟩

theorem mono {m : ℕ} (h : Rearranged size obj obj' m) (hm : m ≤ n) :
    Rearranged size obj obj' n := by
  refine ⟨h.length_eq, ?_, fun k hk => h.rest_eq k (hm.trans hk)⟩
  induction n, hm using Nat.le_induction with
  | base => exact h.contents_eq
  | succ k hk ih => rw [contents_succ, contents_succ, ih, h.rest_eq k hk]

end Rearranged

/-! ## `heap_up` -/

theorem parentIndex_eq (i : ℕ) : parentIndex i = parent i := by
  rw [parentIndex, parent, Nat.shiftRight_eq_div_pow]

theorem leftIndex_eq (i : ℕ) : leftIndex i = 2 * i + 1 := by
  rw [leftIndex, Nat.shiftLeft_eq]
  omega

theorem rightIndex_eq (i : ℕ) : rightIndex i = 2 * i + 2 := by
  rw [rightIndex, Nat.shiftLeft_eq]
  omega

/-- The order that a comparison function decides. -/
def Less {size : ℕ} (less : Buffer size → Buffer size → Bool) (x y : Buffer size) : Prop :=
  less x y = true

section Up

variable {size : ℕ} {less : Buffer size → Buffer size → Bool} {obj : List UInt8}
  {i n : ℕ} (hi : i < n) (hn : size * n ≤ obj.length)

include hi hn

/-- A pass that finds the element in order leaves the loop. -/
theorem heapUpPass_stop
    (hstop : i = 0 ∨ ¬ Less less (slot size obj i) (slot size obj (parent i))) :
    heapUpPass less (i, obj) = .ok (.done (i, obj)) := by
  rcases Nat.eq_zero_or_pos i with rfl | hpos
  · rfl
  · have hout : less (slot size obj i) (slot size obj (parent i)) = false :=
      Bool.eq_false_iff.mpr (hstop.resolve_left (Nat.ne_of_gt hpos))
    have hx := readElem_slot (slot_le hi hn)
    have hy := readElem_slot (slot_le ((parent_lt hpos).trans hi) hn)
    simp only [heapUpPass, if_pos hpos, hx, parentIndex_eq, hy, Exec.ok_bind, hout]
    rfl

/-- A pass that finds it less than its parent exchanges the two. -/
theorem heapUpPass_swap (hpos : 0 < i)
    (hlt : Less less (slot size obj i) (slot size obj (parent i))) :
    heapUpPass less (i, obj) =
      (memswap obj (size * i) (size * parent i) size >>= fun obj' =>
        .ok (.next (parent i, obj'))) := by
  have hx := readElem_slot (slot_le hi hn)
  have hy := readElem_slot (slot_le ((parent_lt hpos).trans hi) hn)
  have hlt' : less (slot size obj i) (slot size obj (parent i)) = true := hlt
  simp only [heapUpPass, if_pos hpos, hx, parentIndex_eq, hy, Exec.ok_bind, hlt']
  rfl

theorem heapUp_stop
    (hstop : i = 0 ∨ ¬ Less less (slot size obj i) (slot size obj (parent i))) :
    heapUp less i obj = .ok (size * i, obj) := by
  rw [heapUp, loop_done (heapUpPass_stop hi hn hstop), Exec.ok_bind]

theorem heapUp_overflow (hsize : 2 ^ 31 ≤ size) (hpos : 0 < i)
    (hlt : Less less (slot size obj i) (slot size obj (parent i))) :
    heapUp less i obj = .error .overflow := by
  have hpass := heapUpPass_swap hi hn hpos hlt
  rw [memswap_overflow (slot_le hi hn) (slot_le ((parent_lt hpos).trans hi) hn) hsize,
    Exec.error_bind] at hpass
  rw [heapUp, loop_error hpass, Exec.error_bind]

/-- From a heap in order but for `i`, `heap_up` restores the order and returns
the address to which the element went. -/
theorem heapUp_spec (hsize : size < 2 ^ 31) (hless : StrictWeak (Less less))
    (hready : UpReady (Less less) (slot size obj) n i) :
    ∃ j obj', heapUp less i obj = .ok (size * j, obj') ∧ j < n ∧
      Rearranged size obj obj' n ∧ Ordered (Less less) (slot size obj') n ∧
      slot size obj' j = slot size obj i := by
  let I : ℕ × List UInt8 → Prop := fun st =>
    st.1 < n ∧ Rearranged size obj st.2 n ∧
      UpReady (Less less) (slot size st.2) n st.1 ∧
      slot size st.2 st.1 = slot size obj i
  let Q : ℕ × List UInt8 → Prop := fun st =>
    st.1 < n ∧ Rearranged size obj st.2 n ∧ Ordered (Less less) (slot size st.2) n ∧
      slot size st.2 st.1 = slot size obj i
  have hpass : ∀ st, I st →
      (∃ r, heapUpPass less st = .ok (.done r) ∧ Q r) ∨
        ∃ st', heapUpPass less st = .ok (.next st') ∧ I st' ∧ st'.1 < st.1 := by
    rintro ⟨k, cur⟩ ⟨hk, hmoved, hcur, hslot⟩
    have hn' : size * n ≤ cur.length := by
      rw [hmoved.length_eq]
      exact hn
    by_cases hstop : k = 0 ∨ ¬ Less less (slot size cur k) (slot size cur (parent k))
    · left
      exact ⟨_, heapUpPass_stop hk hn' hstop, hk, hmoved, hcur.stop hstop, hslot⟩
    · right
      obtain ⟨hpos, hlt⟩ : 0 < k ∧ Less less (slot size cur k) (slot size cur (parent k)) := by
        push Not at hstop
        exact ⟨Nat.pos_of_ne_zero hstop.1, hstop.2⟩
      have hp := parent_lt hpos
      obtain ⟨next, hswap, hlen, hslots⟩ := memswap_slots hsize (Nat.ne_of_gt hp)
        (slot_le hk hn') (slot_le (hp.trans hk) hn')
      refine ⟨(parent k, next), ?_, ⟨hp.trans hk, ?_, ?_, ?_⟩, hp⟩
      · rw [heapUpPass_swap hk hn' hpos hlt, hswap, Exec.ok_bind]
      · exact hmoved.trans (Rearranged.swap hk (hp.trans hk) hlen hslots)
      · rw [hslots]
        exact hcur.swap hless hpos hk hlt
      · rw [hslots, swapAt_right]
        exact hslot
  obtain ⟨⟨j, obj'⟩, hloop, hj, hmoved, hordered, hslot⟩ := loop_total
    (fun st : ℕ × List UInt8 => st.1) hpass (i + 1) (i, obj)
    ⟨hi, Rearranged.refl obj, hready, rfl⟩ (Nat.lt_succ_self i)
  refine ⟨j, obj', ?_, hj, hmoved, hordered, hslot⟩
  rw [heapUp, hloop, Exec.ok_bind]

end Up

/-! ## `heap_down` -/

section Down

variable {size : ℕ} {less : Buffer size → Buffer size → Bool} {obj : List UInt8}
  {i n : ℕ} (hi : i < n) (hn : size * n ≤ obj.length)

/-- What a pass does once it has chosen a child. -/
def afterDescend (i : ℕ) (st : ℕ × List UInt8) :
    Exec (Pass (ℕ × List UInt8) (List UInt8)) :=
  if i = st.1 then .ok (.done st.2) else .ok (.next st)

theorem offset_lt (hpos : 0 < size) (c n : ℕ) : size * c < n * size ↔ c < n := by
  rw [Nat.mul_comm n]
  exact Nat.mul_lt_mul_left hpos

include hi

theorem heapDownPass_leaf (hpos : 0 < size) (hleaf : n ≤ 2 * i + 1) :
    heapDownPass less n (i, obj) = .ok (.done obj) := by
  have hright : ¬ size * rightIndex i < n * size := by
    rw [offset_lt hpos, rightIndex_eq]
    omega
  have hleft : ¬ size * leftIndex i < n * size := by
    rw [offset_lt hpos, leftIndex_eq]
    omega
  simp only [heapDownPass, if_pos hi, if_neg hright, if_neg hleft, Exec.ok_bind, if_true]

include hn

/-- With children, a pass turns to one than which no other is less. -/
theorem heapDownPass_child (hpos : 0 < size) (hless : StrictWeak (Less less))
    (hchild : 2 * i + 1 < n) :
    ∃ c, 0 < c ∧ c < n ∧ parent c = i ∧
      (∀ d, 0 < d → d < n → parent d = i →
        ¬ Less less (slot size obj d) (slot size obj c)) ∧
      heapDownPass less n (i, obj) = (descend less c i obj >>= afterDescend i) := by
  have hparent : ∀ {d}, 0 < d → (parent d = i ↔ d = 2 * i + 1 ∨ d = 2 * i + 2) :=
    fun hd => parent_eq_iff hd
  by_cases hboth : 2 * i + 2 < n
  · have hright : size * (2 * i + 2) < n * size := (offset_lt hpos _ n).mpr hboth
    have hl := readElem_slot (slot_le hchild hn)
    have hr := readElem_slot (slot_le hboth hn)
    by_cases hlr : Less less (slot size obj (2 * i + 1)) (slot size obj (2 * i + 2))
    · refine ⟨2 * i + 1, by omega, hchild, (hparent (by omega)).mpr (Or.inl rfl), ?_, ?_⟩
      · intro d hd _ hdi
        rcases (hparent hd).mp hdi with rfl | rfl
        · exact hless.irrefl _
        · exact hless.asymm hlr
      · have hlr' : less (slot size obj (2 * i + 1)) (slot size obj (2 * i + 2)) = true := hlr
        simp only [heapDownPass, if_pos hi, if_pos hright, leftIndex_eq, rightIndex_eq, hl, hr,
          Exec.ok_bind, if_pos hlr']
        rfl
    · refine ⟨2 * i + 2, by omega, hboth, (hparent (by omega)).mpr (Or.inr rfl), ?_, ?_⟩
      · intro d hd _ hdi
        rcases (hparent hd).mp hdi with rfl | rfl
        · exact hlr
        · exact hless.irrefl _
      · have hlr' : ¬ less (slot size obj (2 * i + 1)) (slot size obj (2 * i + 2)) = true := hlr
        simp only [heapDownPass, if_pos hi, if_pos hright, leftIndex_eq, rightIndex_eq, hl, hr,
          Exec.ok_bind, if_neg hlr']
        rfl
  · have hright : ¬ size * (2 * i + 2) < n * size := by rwa [offset_lt hpos]
    have hleft : size * (2 * i + 1) < n * size := (offset_lt hpos _ n).mpr hchild
    refine ⟨2 * i + 1, by omega, hchild, (hparent (by omega)).mpr (Or.inl rfl), ?_, ?_⟩
    · intro d hd hdn hdi
      rcases (hparent hd).mp hdi with rfl | rfl
      · exact hless.irrefl _
      · exact absurd hdn hboth
    · simp only [heapDownPass, if_pos hi, leftIndex_eq, rightIndex_eq, if_neg hright,
        if_pos hleft]
      rfl

/-- `descend` stays where the element is in order. -/
theorem descend_stay {c : ℕ} (hc : c < n)
    (hle : ¬ Less less (slot size obj c) (slot size obj i)) :
    descend less c i obj = .ok (i, obj) := by
  have hx := readElem_slot (slot_le hc hn)
  have hy := readElem_slot (slot_le hi hn)
  have hle' : less (slot size obj c) (slot size obj i) = false := Bool.eq_false_iff.mpr hle
  simp only [descend, hx, hy, Exec.ok_bind, hle']
  rfl

theorem descend_swap {c : ℕ} (hc : c < n)
    (hlt : Less less (slot size obj c) (slot size obj i)) :
    descend less c i obj =
      (memswap obj (size * c) (size * i) size >>= fun obj' => .ok (c, obj')) := by
  have hx := readElem_slot (slot_le hc hn)
  have hy := readElem_slot (slot_le hi hn)
  have hlt' : less (slot size obj c) (slot size obj i) = true := hlt
  simp only [descend, hx, hy, Exec.ok_bind, hlt']
  rfl

theorem heapDownPass_stop (hpos : 0 < size) (hless : StrictWeak (Less less))
    (hstop : ∀ c, 0 < c → c < n → parent c = i →
      ¬ Less less (slot size obj c) (slot size obj i)) :
    heapDownPass less n (i, obj) = .ok (.done obj) := by
  by_cases hchild : 2 * i + 1 < n
  · obtain ⟨c, hc, hcn, hci, -, hpass⟩ := heapDownPass_child hi hn hpos hless hchild
    rw [hpass, descend_stay hi hn hcn (hstop c hc hcn hci), Exec.ok_bind]
    exact if_pos rfl
  · exact heapDownPass_leaf hi hpos (Nat.le_of_not_lt hchild)

/-- Some child is less: a pass exchanges the element with a least child. -/
theorem heapDownPass_swap (hpos : 0 < size) (hless : StrictWeak (Less less)) {d : ℕ}
    (hd : 0 < d) (hdn : d < n) (hdi : parent d = i)
    (hlt : Less less (slot size obj d) (slot size obj i)) :
    ∃ c, 0 < c ∧ c < n ∧ parent c = i ∧
      (∀ d, 0 < d → d < n → parent d = i →
        ¬ Less less (slot size obj d) (slot size obj c)) ∧
      Less less (slot size obj c) (slot size obj i) ∧
      heapDownPass less n (i, obj) =
        (memswap obj (size * c) (size * i) size >>= fun obj' => .ok (.next (c, obj'))) := by
  have hchild : 2 * i + 1 < n := by
    rcases (parent_eq_iff hd).mp hdi with rfl | rfl
    · exact hdn
    · omega
  obtain ⟨c, hc, hcn, hci, hmin, hpass⟩ := heapDownPass_child hi hn hpos hless hchild
  have hcless : Less less (slot size obj c) (slot size obj i) := by
    by_contra hnot
    exact hless.not_lt_trans hnot (hmin d hd hdn hdi) hlt
  have hne : i ≠ c := hci ▸ Nat.ne_of_lt (parent_lt hc)
  refine ⟨c, hc, hcn, hci, hmin, hcless, ?_⟩
  rw [hpass, descend_swap hi hn hcn hcless, bind_assoc]
  congr 1
  funext obj'
  exact if_neg hne

theorem heapDown_stop (hpos : 0 < size) (hless : StrictWeak (Less less))
    (hstop : ∀ c, 0 < c → c < n → parent c = i →
      ¬ Less less (slot size obj c) (slot size obj i)) :
    heapDown less i obj n = .ok obj := by
  rw [heapDown, loop_done (heapDownPass_stop hi hn hpos hless hstop)]

theorem heapDown_overflow (hsize : 2 ^ 31 ≤ size) (hless : StrictWeak (Less less)) {d : ℕ}
    (hd : 0 < d) (hdn : d < n) (hdi : parent d = i)
    (hlt : Less less (slot size obj d) (slot size obj i)) :
    heapDown less i obj n = .error .overflow := by
  obtain ⟨c, -, hcn, -, -, -, hpass⟩ := heapDownPass_swap hi hn (by omega) hless hd hdn hdi hlt
  rw [memswap_overflow (slot_le hcn hn) (slot_le hi hn) hsize, Exec.error_bind] at hpass
  rw [heapDown, loop_error hpass]

/-- From a heap in order but for the pairs below `i`, `heap_down` restores the
order. -/
theorem heapDown_spec (hpos : 0 < size) (hsize : size < 2 ^ 31)
    (hless : StrictWeak (Less less))
    (hready : DownReady (Less less) (slot size obj) n i) :
    ∃ obj', heapDown less i obj n = .ok obj' ∧ Rearranged size obj obj' n ∧
      Ordered (Less less) (slot size obj') n := by
  let I : ℕ × List UInt8 → Prop := fun st =>
    st.1 < n ∧ Rearranged size obj st.2 n ∧ DownReady (Less less) (slot size st.2) n st.1
  let Q : List UInt8 → Prop := fun cur =>
    Rearranged size obj cur n ∧ Ordered (Less less) (slot size cur) n
  have hpass : ∀ st, I st →
      (∃ r, heapDownPass less n st = .ok (.done r) ∧ Q r) ∨
        ∃ st', heapDownPass less n st = .ok (.next st') ∧ I st' ∧ n - st'.1 < n - st.1 := by
    rintro ⟨k, cur⟩ ⟨hk, hmoved, hcur⟩
    have hn' : size * n ≤ cur.length := by
      rw [hmoved.length_eq]
      exact hn
    by_cases hstop : ∀ c, 0 < c → c < n → parent c = k →
        ¬ Less less (slot size cur c) (slot size cur k)
    · left
      exact ⟨cur, heapDownPass_stop hk hn' hpos hless hstop, hmoved, hcur.stop hstop⟩
    · right
      push Not at hstop
      obtain ⟨d, hd, hdn, hdk, hlt⟩ := hstop
      obtain ⟨c, hc, hcn, hck, hmin, hcless, hrun⟩ :=
        heapDownPass_swap hk hn' hpos hless hd hdn hdk hlt
      have hkc : k < c := by
        have hp := parent_lt hc
        rwa [hck] at hp
      obtain ⟨next, hswap, hlen, hslots⟩ := memswap_slots hsize (Nat.ne_of_gt hkc)
        (slot_le hcn hn') (slot_le hk hn')
      refine ⟨(c, next), ?_, ⟨hcn, ?_, ?_⟩, Nat.sub_lt_sub_left hk hkc⟩
      · rw [hrun, hswap, Exec.ok_bind]
      · exact hmoved.trans (Rearranged.swap hcn hk hlen hslots)
      · rw [hslots]
        exact hcur.swap hless hc hcn hck hcless hmin
  obtain ⟨obj', hloop, hmoved, hordered⟩ := loop_total
    (fun st : ℕ × List UInt8 => n - st.1) hpass (n + 1) (i, obj)
    ⟨hi, Rearranged.refl obj, hready⟩ (Nat.lt_succ_of_le (Nat.sub_le n i))
  exact ⟨obj', hloop, hmoved, hordered⟩

end Down

end Hlibc.Heap
