import Hlibc.Support.Exec

/-!
# Byte objects

A C object of bytes is the list of its bytes, and a pointer into it is an
offset.  Reads and writes are checked against the length of the object, so that
an execution that returns has stayed inside its objects.
-/

set_option autoImplicit false

namespace Hlibc

/-- The byte of a character of the source. -/
def chr (c : Char) : UInt8 := UInt8.ofNat c.toNat

/-- The bytes of a string literal of the source, without its terminator. -/
def ascii (s : String) : List UInt8 := s.toList.map chr

/-- Read the byte at `off`. -/
def readByte (src : List UInt8) (off : ℕ) : Exec UInt8 :=
  match src[off]? with
  | some b => .ok b
  | none => .error .read

/-- Read `n` bytes from `off` on. -/
def readBytes (src : List UInt8) (off n : ℕ) : Exec (List UInt8) :=
  if off + n ≤ src.length then .ok ((src.drop off).take n) else .error .read

/-- Overwrite the bytes from `off` on. -/
def writeBytes (dst : List UInt8) (off : ℕ) (bs : List UInt8) :
    Exec (List UInt8) :=
  if off + bs.length ≤ dst.length then
    .ok (dst.take off ++ bs ++ dst.drop (off + bs.length))
  else .error .write

/-- Overwrite the byte at `off`. -/
def writeByte (dst : List UInt8) (off : ℕ) (b : UInt8) : Exec (List UInt8) :=
  writeBytes dst off [b]

/-- `memcpy` between two objects that do not overlap. -/
def memcpy (dst : List UInt8) (dstOff : ℕ) (src : List UInt8) (srcOff n : ℕ) :
    Exec (List UInt8) := do
  let bs ← readBytes src srcOff n
  writeBytes dst dstOff bs

/-- `memset` of `n` bytes to zero. -/
def memzero (dst : List UInt8) (off n : ℕ) : Exec (List UInt8) :=
  writeBytes dst off (List.replicate n 0)

theorem readByte_of_lt {src : List UInt8} {off : ℕ} (h : off < src.length) :
    readByte src off = .ok src[off] := by
  simp [readByte, h]

theorem readByte_eq_ok {src : List UInt8} {off : ℕ} {b : UInt8} :
    readByte src off = .ok b ↔ src[off]? = some b := by
  cases h : src[off]? with
  | none => simp [readByte, h]
  | some c => simp [readByte, h]

@[simp] theorem readByte_append_add (pre src : List UInt8) (k : ℕ) :
    readByte (pre ++ src) (pre.length + k) = readByte src k := by
  simp [readByte, List.getElem?_append_right]

@[simp] theorem readByte_cons_zero (b : UInt8) (src : List UInt8) :
    readByte (b :: src) 0 = .ok b := by
  simp [readByte]

@[simp] theorem readByte_cons_succ (b : UInt8) (src : List UInt8) (k : ℕ) :
    readByte (b :: src) (k + 1) = readByte src k := by
  simp [readByte]

theorem readByte_zero_eq_ok {src : List UInt8} {b : UInt8} :
    readByte src 0 = .ok b ↔ ∃ rest, src = b :: rest := by
  cases src with
  | nil => simp [readByte]
  | cons c rest => simp

theorem readByte_length_eq_ok {pre src : List UInt8} {b : UInt8} :
    readByte (pre ++ src) pre.length = .ok b ↔ ∃ rest, src = b :: rest := by
  rw [← readByte_zero_eq_ok, ← readByte_append_add pre src 0, Nat.add_zero]

/-- The byte at `pos`, where the bytes from there on are known. -/
theorem readByte_of_drop {src w : List UInt8} {pos : ℕ} {c : UInt8}
    (h : src.drop pos = c :: w) : readByte src pos = .ok c := by
  rw [readByte_eq_ok, ← Nat.add_zero pos, ← List.getElem?_drop, h]
  rfl

theorem drop_of_append {src x w : List UInt8} {pos : ℕ} (h : src.drop pos = x ++ w) :
    src.drop (pos + x.length) = w := by
  rw [← List.drop_drop, h, List.drop_left]

theorem drop_of_cons {src w : List UInt8} {pos : ℕ} {c : UInt8} (h : src.drop pos = c :: w) :
    src.drop (pos + 1) = w :=
  drop_of_append (x := [c]) h

/-- What is read inside an object is read there in a longer one. -/
theorem readByte_extends (src rest : List UInt8) (off : ℕ) :
    Exec.Extends (readByte src off) (readByte (src ++ rest) off) := by
  intro b hb
  rw [readByte_eq_ok] at hb ⊢
  obtain ⟨hlt, -⟩ := List.getElem?_eq_some_iff.mp hb
  rw [List.getElem?_append_left hlt, hb]

theorem readByte_length (src : List UInt8) : readByte src src.length = .error .read := by
  simp [readByte]

/-- A null byte stands at `pos` or behind it. -/
def Terminated (src : List UInt8) (pos : ℕ) : Prop := 0 ∈ src.drop pos

theorem string_unique {x y r r' : List UInt8} (hx : 0 ∉ x) (hy : 0 ∉ y)
    (h : x ++ 0 :: r = y ++ 0 :: r') : x = y := by
  have hfront : ∀ z t : List UInt8, 0 ∉ z → (z ++ 0 :: t).takeWhile (· != 0) = z := by
    intro z t hz
    have hne : ∀ c ∈ z, (c != 0) = true := by
      intro c hc
      rw [bne_iff_ne]
      rintro rfl
      exact hz hc
    rw [List.takeWhile_append_of_pos hne, List.takeWhile_cons_of_neg (by simp), List.append_nil]
  rw [← hfront x r hx, h, hfront y r' hy]

theorem terminated_append (pre text tail : List UInt8) :
    Terminated (pre ++ (text ++ 0 :: tail)) pre.length := by
  simp [Terminated]

theorem Terminated.exists_string {src : List UInt8} {pos : ℕ} (h : Terminated src pos) :
    ∃ pre text tail, src = pre ++ (text ++ 0 :: tail) ∧ pos = pre.length := by
  obtain ⟨text, tail, hdrop⟩ := List.append_of_mem h
  refine ⟨src.take pos, text, tail, ?_, ?_⟩
  · rw [← hdrop, List.take_append_drop]
  · have hlen := congrArg List.length hdrop
    rw [List.length_drop, List.length_append, List.length_cons] at hlen
    rw [List.length_take]
    omega

theorem Terminated.read {src : List UInt8} {pos : ℕ} (h : Terminated src pos) :
    ∃ c, readByte src pos = .ok c ∧ (c ≠ 0 → Terminated src (pos + 1)) := by
  have hlt : pos < src.length := by
    by_contra hge
    rw [Terminated, List.drop_eq_nil_of_le (by omega)] at h
    exact List.not_mem_nil h
  refine ⟨src[pos], readByte_of_lt hlt, fun hc => ?_⟩
  rw [Terminated, List.drop_eq_getElem_cons hlt] at h
  rcases List.mem_cons.mp h with h0 | hrest
  · exact absurd h0.symm hc
  · exact hrest

theorem readBytes_of_le {src : List UInt8} {off n : ℕ}
    (h : off + n ≤ src.length) :
    readBytes src off n = .ok ((src.drop off).take n) :=
  if_pos h

theorem writeBytes_of_le {dst bs : List UInt8} {off : ℕ}
    (h : off + bs.length ≤ dst.length) :
    writeBytes dst off bs =
      .ok (dst.take off ++ bs ++ dst.drop (off + bs.length)) :=
  if_pos h

theorem length_of_writeBytes {dst out bs : List UInt8} {off : ℕ}
    (h : writeBytes dst off bs = .ok out) : out.length = dst.length := by
  by_cases hroom : off + bs.length ≤ dst.length
  · rw [writeBytes_of_le hroom] at h
    rw [← Except.ok.inj h]
    simp only [List.length_append, List.length_take, List.length_drop]
    omega
  · rw [writeBytes, if_neg hroom] at h
    cases h

/-- Writing right behind a finished prefix extends the prefix. -/
theorem writeBytes_append {done rest bs : List UInt8} {off : ℕ}
    (hoff : off = done.length) (h : bs.length ≤ rest.length) :
    writeBytes (done ++ rest) off bs =
      .ok (done ++ bs ++ rest.drop bs.length) := by
  subst hoff
  rw [writeBytes_of_le (by simpa using h)]
  simp [List.drop_append]

/-- Writing right behind what replaced the front of an object. -/
theorem writeBytes_drop {done dest bs : List UInt8} {off : ℕ} (hoff : off = done.length)
    (h : off + bs.length ≤ dest.length) :
    writeBytes (done ++ dest.drop off) off bs =
      .ok (done ++ bs ++ dest.drop (off + bs.length)) := by
  rw [writeBytes_append hoff (by rw [List.length_drop]; omega), List.drop_drop]

theorem writeByte_append {done rest : List UInt8} {off : ℕ} (hoff : off = done.length)
    (a b : UInt8) : writeByte (done ++ a :: rest) off b = .ok (done ++ b :: rest) := by
  have hroom : [b].length ≤ (a :: rest).length := Nat.le_add_left 1 rest.length
  rw [writeByte, writeBytes_append hoff hroom, List.append_assoc]
  rfl

theorem getElem?_overwrite {dst bs : List UInt8} {off k : ℕ}
    (h : off + bs.length ≤ dst.length) (hk : k < off ∨ off + bs.length ≤ k) :
    (dst.take off ++ bs ++ dst.drop (off + bs.length))[k]? = dst[k]? := by
  have hfront : (dst.take off).length = off := by
    rw [List.length_take]
    omega
  rcases hk with hk | hk
  · rw [List.append_assoc, List.getElem?_append_left (by omega), List.getElem?_take,
      if_pos hk]
  · rw [List.getElem?_append_right (by rw [List.length_append]; omega), List.length_append,
      hfront, List.getElem?_drop, Nat.add_sub_cancel' hk]

theorem writeByte_of_lt {dst : List UInt8} {off : ℕ} (h : off < dst.length) (b : UInt8) :
    writeByte dst off b = .ok (dst.set off b) := by
  rw [writeByte, writeBytes_of_le (by rw [List.length_singleton]; omega),
    List.length_singleton, List.append_assoc, List.singleton_append,
    List.set_eq_take_append_cons_drop, if_pos h]

theorem writeBytes_nil {dst : List UInt8} {off : ℕ} (h : off ≤ dst.length) :
    writeBytes dst off [] = .ok dst := by
  rw [writeBytes_of_le (by simpa using h)]
  simp

theorem writeBytes_cons {dst bs : List UInt8} {off : ℕ} (h : off < dst.length) (b : UInt8) :
    writeBytes dst off (b :: bs) = writeBytes (dst.set off b) (off + 1) bs := by
  obtain ⟨front, c, back, rfl, rfl⟩ : ∃ front c back, dst = front ++ c :: back ∧
      front.length = off := by
    refine ⟨dst.take off, dst[off], dst.drop (off + 1), ?_, List.length_take_of_le (by omega)⟩
    rw [List.getElem_cons_drop, List.take_append_drop]
  have hset : (front ++ c :: back).set front.length b = (front ++ [b]) ++ back := by
    simp
  have hlen : front.length + 1 = (front ++ [b]).length := by
    simp
  have hdrop : ∀ x : UInt8, (front ++ x :: back).drop (front.length + (bs.length + 1)) =
      back.drop bs.length := by
    intro x
    rw [List.drop_length_add_append, List.drop_succ_cons]
  rw [hset, hlen, writeBytes, writeBytes, List.take_left, List.take_left' rfl,
    List.length_cons, hdrop, ← hlen, Nat.add_assoc, Nat.add_comm 1]
  simp [hdrop]

/-! ## Arrays of a fixed length -/

/-- An array of `n` bytes, such as a member of a structure. -/
@[ext] structure Buffer (n : ℕ) where
  bytes : List UInt8
  length_bytes : bytes.length = n
  deriving DecidableEq

namespace Buffer

variable {n : ℕ}

theorem length_overwrite {old bs : List UInt8} {off : ℕ} (hold : old.length = n)
    (h : off + bs.length ≤ n) :
    (old.take off ++ bs ++ old.drop (off + bs.length)).length = n := by
  simp only [List.length_append, List.length_take, List.length_drop]
  omega

/-- Overwrite the bytes from `off` on. -/
def write (b : Buffer n) (off : ℕ) (bs : List UInt8) : Exec (Buffer n) :=
  if h : off + bs.length ≤ n then
    .ok ⟨b.bytes.take off ++ bs ++ b.bytes.drop (off + bs.length),
      length_overwrite b.length_bytes h⟩
  else .error .write

/-- `memcpy` of `k` bytes into the array. -/
def copy (b : Buffer n) (off : ℕ) (src : List UInt8) (srcOff k : ℕ) :
    Exec (Buffer n) := do
  let bs ← readBytes src srcOff k
  b.write off bs

/-- `memzero` of `k` bytes of the array. -/
def zero (b : Buffer n) (off k : ℕ) : Exec (Buffer n) :=
  b.write off (List.replicate k 0)

theorem bytes_eq_of_take {b : Buffer n} {l : List UInt8} (h : b.bytes.take n = l) :
    b.bytes = l := by
  rwa [List.take_of_length_le (Nat.le_of_eq b.length_bytes)] at h

theorem copy_of_le {b : Buffer n} {src : List UInt8} {off srcOff k : ℕ}
    (hsrc : srcOff + k ≤ src.length) (hroom : off + k ≤ n) :
    ∃ b' : Buffer n, b.copy off src srcOff k = .ok b' ∧
      b'.bytes = b.bytes.take off ++ (src.drop srcOff).take k ++ b.bytes.drop (off + k) := by
  have hlen : ((src.drop srcOff).take k).length = k := by
    rw [List.length_take, List.length_drop]
    omega
  have hfit : off + ((src.drop srcOff).take k).length ≤ n := by rwa [hlen]
  have hwrite : b.write off ((src.drop srcOff).take k) = .ok _ := dif_pos hfit
  rw [copy, readBytes_of_le hsrc, Exec.ok_bind]
  exact ⟨_, hwrite, by simp only [hlen]⟩

/-- Writing right behind a prefix extends the prefix. -/
theorem write_append {b : Buffer n} {done bs : List UInt8} {off : ℕ}
    (hdone : b.bytes.take off = done) (hoff : off ≤ n) (h : off + bs.length ≤ n) :
    ∃ b' : Buffer n, b.write off bs = .ok b' ∧
      b'.bytes.take (off + bs.length) = done ++ bs := by
  refine ⟨_, dif_pos h, ?_⟩
  have hlen : (b.bytes.take off ++ bs).length = off + bs.length := by
    rw [List.length_append, List.length_take, b.length_bytes, Nat.min_eq_left hoff]
  simp only
  rw [List.take_left' hlen, hdone]

theorem zero_append {b : Buffer n} {done : List UInt8} {off k : ℕ}
    (hdone : b.bytes.take off = done) (hoff : off ≤ n) (h : off + k ≤ n) :
    ∃ b' : Buffer n, b.zero off k = .ok b' ∧
      b'.bytes.take (off + k) = done ++ List.replicate k 0 := by
  have hlen : (List.replicate k (0 : UInt8)).length = k := List.length_replicate
  obtain ⟨b', hwrite, hbytes⟩ := write_append hdone hoff (by rwa [hlen])
  rw [hlen] at hbytes
  exact ⟨b', hwrite, hbytes⟩

end Buffer

end Hlibc
