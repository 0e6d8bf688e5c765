import Hlibc.String.Base64
import Mathlib.Tactic.Ring

/-!
# What `b64_decode` accepts

The decoder on any string: the characters of the alphabet in front are read in
groups of four, and what stands behind them decides.
-/

set_option autoImplicit false

namespace Hlibc.Base64

/-! ## Texts and their bytes -/

/-- A character of the alphabet. -/
def InAlphabet (c : UInt8) : Prop := 0 ≤ b64Val c

instance : DecidablePred InAlphabet := fun c => inferInstanceAs (Decidable (0 ≤ b64Val c))

/-- What may stand behind so many characters of the alphabet. -/
def PadFor (k : ℕ) (pad : List UInt8) : Prop :=
  match k % 4 with
  | 0 => pad = []
  | 1 => False
  | 2 => pad = [] ∨ pad = [chr '=', chr '=']
  | _ => pad = [] ∨ pad = [chr '=']

/-- A string of characters of the alphabet and the padding behind them, which may be
missing. -/
def IsText (s cs : List UInt8) : Prop :=
  (∀ c ∈ cs, InAlphabet c) ∧ ∃ pad, PadFor cs.length pad ∧ s = cs ++ pad

/-- The six bits of the value of a character, from the highest. -/
def sextetBits (c : UInt8) : List Bool :=
  (List.range 6).map fun i => (b64Val c).toNat.testBit (5 - i)

/-- The number with these bits, from the highest. -/
def bitsValue (bits : List Bool) : ℕ := bits.foldl (fun v b => 2 * v + b.toNat) 0

/-- The bytes whose bits, from the highest, are given; bits that fill no byte are
dropped. -/
def wholeBytes : List Bool → List UInt8
  | b0 :: b1 :: b2 :: b3 :: b4 :: b5 :: b6 :: b7 :: rest =>
      UInt8.ofNat (bitsValue [b0, b1, b2, b3, b4, b5, b6, b7]) :: wholeBytes rest
  | _ => []

/-- The bytes of the concatenated values of characters. -/
def bytesOf (cs : List UInt8) : List UInt8 := wholeBytes (cs.flatMap sextetBits)

/-- With room for as many bytes as there are characters, `b64_decode` returns 0 and the
bytes of a text, and `EINVAL` for any other string. -/
def Classifies (s : List UInt8) : Prop :=
  ∀ dest : List UInt8, s.length ≤ dest.length →
    (∀ cs, IsText s cs → b64Decode (s ++ [0]) dest dest.length =
      .ok (0, bytesOf cs ++ dest.drop (bytesOf cs).length)) ∧
    ((¬ ∃ cs, IsText s cs) → ∃ out, b64Decode (s ++ [0]) dest dest.length = .ok (EINVAL, out))

/-- With any capacity, `b64_decode` reads no byte behind the terminator and writes none
behind the destination. -/
def StaysInside (s : List UInt8) : Prop :=
  ∀ (dest : List UInt8) (e : Fault), b64Decode (s ++ [0]) dest dest.length = .error e →
    e ≠ .read ∧ e ≠ .write

/-! ## Groups of characters -/

/-- The bytes that the decoder makes of characters. -/
def decodeGroups : List UInt8 → List UInt8
  | a :: b :: c :: d :: rest =>
      firstByte (b64Val a) (b64Val b) :: secondByte (b64Val b) (b64Val c) ::
        thirdByte (b64Val c) (b64Val d) :: decodeGroups rest
  | [a, b, c] => [firstByte (b64Val a) (b64Val b), secondByte (b64Val b) (b64Val c)]
  | [a, b] => [firstByte (b64Val a) (b64Val b)]
  | [_] => []
  | [] => []

theorem length_decodeGroups (cs : List UInt8) :
    (decodeGroups cs).length = 6 * cs.length / 8 := by
  fun_induction decodeGroups cs with
  | case1 a b c d rest ih =>
      simp only [List.length_cons, ih]
      omega
  | case2 a b c => simp
  | case3 a b => simp
  | case4 a => simp
  | case5 => simp

theorem b64Val_lt (c : UInt8) : (b64Val c).toNat < 64 := by
  have hentries : ∀ entry ∈ b64Entries, entry.2 < 64 := by decide
  rw [b64Val]
  split
  next entry hfound =>
      have hlt := hentries entry (List.mem_of_find?_eq_some hfound)
      omega
  · decide

theorem bitsValue_append (high low : List Bool) :
    bitsValue (high ++ low) = bitsValue high * 2 ^ low.length + bitsValue low := by
  have hfrom : ∀ (low : List Bool) (v : ℕ), low.foldl (fun v b => 2 * v + b.toNat) v =
      v * 2 ^ low.length + bitsValue low := by
    intro low
    induction low with
    | nil => simp [bitsValue]
    | cons b low ih =>
        intro v
        rw [bitsValue, List.foldl_cons, List.foldl_cons, ih, ih, List.length_cons]
        ring
  rw [bitsValue, List.foldl_append, hfrom]
  rfl

/-- The numbers that runs of the bits of a value are. -/
theorem bitsValue_sextet : ∀ p < 64,
    bitsValue [p.testBit 5, p.testBit 4] = p / 16 ∧
      bitsValue [p.testBit 5, p.testBit 4, p.testBit 3, p.testBit 2] = p / 4 ∧
      bitsValue [p.testBit 3, p.testBit 2, p.testBit 1, p.testBit 0] = p % 16 ∧
      bitsValue [p.testBit 1, p.testBit 0] = p % 4 ∧
      bitsValue [p.testBit 5, p.testBit 4, p.testBit 3, p.testBit 2, p.testBit 1,
        p.testBit 0] = p := by
  decide

theorem ofNat_eq_of_mod {m n : ℕ} (h : m % 256 = n % 256) : UInt8.ofNat m = UInt8.ofNat n := by
  apply UInt8.toNat_inj.mp
  rw [UInt8.toNat_ofNat', UInt8.toNat_ofNat']
  exact h

section Bits

variable {p q : ℕ} (hp : p < 64) (hq : q < 64)

include hp hq

/-- The first byte of a group has the bits of its first value and two of the second. -/
theorem firstByte_bits :
    UInt8.ofNat (bitsValue [p.testBit 5, p.testBit 4, p.testBit 3, p.testBit 2, p.testBit 1,
      p.testBit 0, q.testBit 5, q.testBit 4]) = UInt8.ofNat (p <<< 2 ||| q >>> 4) := by
  have hvalue := bitsValue_append [p.testBit 5, p.testBit 4, p.testBit 3, p.testBit 2,
    p.testBit 1, p.testBit 0] [q.testBit 5, q.testBit 4]
  obtain ⟨-, -, -, -, hhigh⟩ := bitsValue_sextet p hp
  obtain ⟨hlow, -⟩ := bitsValue_sextet q hq
  rw [hhigh, hlow] at hvalue
  rw [Nat.shiftRight_eq_div_pow, ← Nat.shiftLeft_add_eq_or_of_lt (by omega), Nat.shiftLeft_eq]
  exact congrArg UInt8.ofNat hvalue

theorem secondByte_bits :
    UInt8.ofNat (bitsValue [p.testBit 3, p.testBit 2, p.testBit 1, p.testBit 0, q.testBit 5,
      q.testBit 4, q.testBit 3, q.testBit 2]) = UInt8.ofNat (p <<< 4 ||| q >>> 2) := by
  have hvalue := bitsValue_append [p.testBit 3, p.testBit 2, p.testBit 1, p.testBit 0]
    [q.testBit 5, q.testBit 4, q.testBit 3, q.testBit 2]
  obtain ⟨-, -, hhigh, -⟩ := bitsValue_sextet p hp
  obtain ⟨-, hlow, -⟩ := bitsValue_sextet q hq
  rw [hhigh, hlow] at hvalue
  rw [Nat.shiftRight_eq_div_pow, ← Nat.shiftLeft_add_eq_or_of_lt (by omega), Nat.shiftLeft_eq]
  refine (congrArg UInt8.ofNat hvalue).trans (ofNat_eq_of_mod ?_)
  simp only [List.length_cons, List.length_nil]
  omega

theorem thirdByte_bits :
    UInt8.ofNat (bitsValue [p.testBit 1, p.testBit 0, q.testBit 5, q.testBit 4, q.testBit 3,
      q.testBit 2, q.testBit 1, q.testBit 0]) = UInt8.ofNat (p <<< 6 ||| q >>> 0) := by
  have hvalue := bitsValue_append [p.testBit 1, p.testBit 0] [q.testBit 5, q.testBit 4,
    q.testBit 3, q.testBit 2, q.testBit 1, q.testBit 0]
  obtain ⟨-, -, -, hhigh, -⟩ := bitsValue_sextet p hp
  obtain ⟨-, -, -, -, hlow⟩ := bitsValue_sextet q hq
  rw [hhigh, hlow] at hvalue
  rw [Nat.shiftRight_zero, ← Nat.shiftLeft_add_eq_or_of_lt (by omega), Nat.shiftLeft_eq]
  refine (congrArg UInt8.ofNat hvalue).trans (ofNat_eq_of_mod ?_)
  simp only [List.length_cons, List.length_nil]
  omega

end Bits

/-- The decoder makes the bytes of the concatenated values. -/
theorem decodeGroups_eq (cs : List UInt8) : decodeGroups cs = bytesOf cs := by
  fun_induction decodeGroups cs with
  | case1 a b c d rest ih =>
      rw [firstByte, secondByte, thirdByte, ← firstByte_bits (b64Val_lt a) (b64Val_lt b),
        ← secondByte_bits (b64Val_lt b) (b64Val_lt c),
        ← thirdByte_bits (b64Val_lt c) (b64Val_lt d), ih]
      rfl
  | case2 a b c =>
      rw [firstByte, secondByte, ← firstByte_bits (b64Val_lt a) (b64Val_lt b),
        ← secondByte_bits (b64Val_lt b) (b64Val_lt c)]
      rfl
  | case3 a b =>
      rw [firstByte, ← firstByte_bits (b64Val_lt a) (b64Val_lt b)]
      rfl
  | case4 a => rfl
  | case5 => rfl

/-! ## Reading characters -/

theorem nextVal_of_read {src : List UInt8} {i : ℕ} {x : UInt8} (hread : readByte src i = .ok x)
    (hi : i < 2 ^ 31 - 1) : nextVal src i = .ok (b64Val x, i + 1) := by
  rw [nextVal, hread, Exec.ok_bind, incInt_of_lt hi, Exec.ok_bind]

/-- Behind the last character of the type `int`, the counter has no room. -/
theorem nextVal_overflow {src : List UInt8} {i : ℕ} {x : UInt8}
    (hread : readByte src i = .ok x) (hi : 2 ^ 31 - 1 ≤ i) :
    nextVal src i = .error .overflow := by
  rw [nextVal, hread, Exec.ok_bind, incInt, if_neg (by omega)]
  rfl

/-- How `b64_decode` ends on characters of the alphabet, with `r` behind them, into a
destination whose first bytes are `done` and whose remaining ones are `room`; `full` says
that the counter leaves its type. -/
inductive Outcome (done room cs r : List UInt8) (full : Prop) : Exec (ℤ × List UInt8) → Prop where
  | noMemory (out : List UInt8) (hroom : room.length < (decodeGroups cs).length) :
      Outcome done room cs r full (.ok (ENOMEM, out))
  | overflow (hfull : full) : Outcome done room cs r full (.error .overflow)
  | invalid (out : List UInt8) (hfull : ¬ full) (hpad : ¬ PadFor cs.length r) :
      Outcome done room cs r full (.ok (EINVAL, out))
  | decoded (hfull : ¬ full) (hpad : PadFor cs.length r)
      (hroom : (decodeGroups cs).length ≤ room.length) :
      Outcome done room cs r full
        (.ok (0, done ++ decodeGroups cs ++ room.drop (decodeGroups cs).length))

theorem padFor_add_four (k : ℕ) (pad : List UInt8) : PadFor (k + 4) pad ↔ PadFor k pad := by
  rw [PadFor, PadFor, Nat.add_mod_right]

/-- A group decoded, and then the rest behind it. -/
theorem Outcome.group {done room cs r : List UInt8} {full : Prop} {a b c d : UInt8}
    {res : Exec (ℤ × List UInt8)} (hroom : 3 ≤ room.length)
    (h : Outcome (done ++ [firstByte (b64Val a) (b64Val b), secondByte (b64Val b) (b64Val c),
      thirdByte (b64Val c) (b64Val d)]) (room.drop 3) cs r full res) :
    Outcome done room (a :: b :: c :: d :: cs) r full res := by
  have hlen : (decodeGroups (a :: b :: c :: d :: cs)).length = (decodeGroups cs).length + 3 :=
    rfl
  have hpad : PadFor (a :: b :: c :: d :: cs).length r ↔ PadFor cs.length r :=
    padFor_add_four cs.length r
  cases h with
  | noMemory out hless =>
      rw [List.length_drop] at hless
      exact .noMemory out (by omega)
  | overflow hfull => exact .overflow hfull
  | invalid out hfull hbad => exact .invalid out hfull (mt hpad.mp hbad)
  | decoded hfull hgood hfits =>
      rw [List.length_drop] at hfits
      have hres := @Outcome.decoded done room _ r full hfull (hpad.mpr hgood) (by omega)
      rw [hlen] at hres
      rw [List.drop_drop, Nat.add_comm 3, List.append_assoc]
      rw [List.append_assoc] at hres
      simpa [decodeGroups] using hres

/-! ## The padding -/

section Padding

variable {src r : List UInt8} {off : ℕ} (hr : 0 ∉ r)
  (hread : ∀ k, readByte src (off + k) = readByte (r ++ [0]) k)

include hr hread

theorem padTest_two :
    andThen (differs src off 0) (orElse (differs src off (chr '='))
        (orElse (differs src (off + 1) (chr '=')) (differs src (off + 2) 0))) =
      .ok (decide ¬ (r = [] ∨ r = [chr '=', chr '='])) := by
  have hequals : chr '=' ≠ 0 := by decide
  have hfirst := hread 0
  rw [Nat.add_zero] at hfirst
  simp only [differs, hfirst, hread]
  match r, hr with
  | [], _ => simp [andThen]
  | [x], hr =>
      have hx : x ≠ 0 := fun h => hr (by simp [h])
      by_cases hpad : x = chr '='
      · simp [andThen, orElse, hpad, hequals, hequals.symm]
      · simp [andThen, orElse, hpad, hx]
  | [x, y], hr =>
      have hx : x ≠ 0 := fun h => hr (by simp [h])
      by_cases hpad : x = chr '='
      · by_cases hpad' : y = chr '='
        · simp [andThen, orElse, hpad, hpad']
        · simp [andThen, orElse, hpad, hpad', hequals]
      · simp [andThen, orElse, hpad, hx]
  | x :: y :: z :: r, hr =>
      have hx : x ≠ 0 := fun h => hr (by simp [h])
      have hz : z ≠ 0 := fun h => hr (by simp [h])
      by_cases hpad : x = chr '='
      · by_cases hpad' : y = chr '='
        · simp [andThen, orElse, hpad, hpad', hequals, hz]
        · simp [andThen, orElse, hpad, hpad', hequals]
      · simp [andThen, orElse, hpad, hx]

theorem padTest_three :
    andThen (differs src off 0) (orElse (differs src off (chr '='))
        (differs src (off + 1) 0)) =
      .ok (decide ¬ (r = [] ∨ r = [chr '='])) := by
  have hequals : chr '=' ≠ 0 := by decide
  have hfirst := hread 0
  rw [Nat.add_zero] at hfirst
  simp only [differs, hfirst, hread]
  match r, hr with
  | [], _ => simp [andThen]
  | [x], hr =>
      have hx : x ≠ 0 := fun h => hr (by simp [h])
      by_cases hpad : x = chr '='
      · simp [andThen, orElse, hpad]
      · simp [andThen, orElse, hpad, hx]
  | x :: y :: r, hr =>
      have hx : x ≠ 0 := fun h => hr (by simp [h])
      have hy : y ≠ 0 := fun h => hr (by simp [h])
      by_cases hpad : x = chr '='
      · simp [andThen, orElse, hpad, hequals, hy]
      · simp [andThen, orElse, hpad, hx]

end Padding

/-! ## Runs -/

theorem Outcome.store {done room cs r : List UInt8} {full : Prop} {k : ℕ} (hfull : ¬ full)
    (hk : (decodeGroups cs).length = k + 1) (hpad : PadFor cs.length r) :
    Outcome done room cs r full
      (if done.length + room.length ≤ done.length + k then .ok (ENOMEM, done ++ room)
      else writeBytes (done ++ room) done.length (decodeGroups cs) >>= fun dest =>
        .ok (0, dest)) := by
  by_cases hless : done.length + room.length ≤ done.length + k
  · rw [if_pos hless]
    exact .noMemory _ (by omega)
  · rw [if_neg hless, writeBytes_append rfl (by omega)]
    exact .decoded hfull hpad (by omega)

section Runs

variable {pre done room r : List UInt8} {st : DecodeState} {budget total : ℕ}
  (hpre : pre.length % 4 = 0) (hint : pre.length < 2 ^ 31) (hi : st.i = pre.length)
  (hout : st.out = done.length) (hdest : st.dest = done ++ room) (hr : 0 ∉ r)
  (hstop : ∀ x ∈ (r ++ [0]).head?, b64Val x < 0)

include hpre hint hi hdest hr hstop

theorem outcome_none :
    Outcome done room [] r (2 ^ 31 ≤ pre.length + 1)
      (loop (decodePass (pre ++ (r ++ [0])) (done.length + room.length)) (budget + 1) st >>=
        decodeExit (pre ++ (r ++ [0])) (done.length + room.length)) := by
  obtain ⟨x, rest, hx⟩ : ∃ x rest, r ++ [0] = x :: rest := List.exists_cons_of_ne_nil (by simp)
  have hneg : b64Val x < 0 := hstop x (by rw [hx]; rfl)
  have hread : readByte (pre ++ (r ++ [0])) pre.length = .ok x :=
    readByte_length_eq_ok.mpr ⟨rest, hx⟩
  have hpass : decodePass (pre ++ (r ++ [0])) (done.length + room.length) st =
      .ok (.done (.stopped { st with i := pre.length + 1, a := b64Val x })) := by
    simp only [decodePass, hi, nextVal_of_read hread (by omega), Exec.ok_bind, if_pos hneg]
  have hempty : r = [] ↔ x = 0 := by
    cases r with
    | nil =>
        obtain ⟨rfl, -⟩ := List.cons.inj hx
        simp
    | cons y r =>
        obtain ⟨rfl, -⟩ := List.cons.inj hx
        refine iff_of_false (by simp) fun h => hr (by simp [h])
  rw [loop_done hpass, Exec.ok_bind]
  simp only [decodeExit, decodeTail, Nat.add_sub_cancel, hpre, Nat.sub_zero, differs, hread,
    Exec.ok_bind, hdest]
  by_cases hzero : x = 0
  · have hres := @Outcome.decoded done room [] r (2 ^ 31 ≤ pre.length + 1) (by omega)
      (hempty.mpr hzero) (Nat.zero_le _)
    simpa [hzero, decodeGroups] using hres
  · rw [if_pos (by simpa using hzero)]
    exact .invalid _ (by omega) (mt hempty.mp hzero)

omit hdest hr in
theorem outcome_one {a : UInt8} (ha : InAlphabet a) :
    Outcome done room [a] r (2 ^ 31 ≤ pre.length + 1 + 1)
      (loop (decodePass (pre ++ ([a] ++ (r ++ [0]))) (done.length + room.length)) (budget + 1)
        st >>= decodeExit (pre ++ ([a] ++ (r ++ [0]))) (done.length + room.length)) := by
  obtain ⟨x, rest, hx⟩ : ∃ x rest, r ++ [0] = x :: rest := List.exists_cons_of_ne_nil (by simp)
  have hneg : b64Val x < 0 := hstop x (by rw [hx]; rfl)
  have hread : ∀ k, readByte (pre ++ ([a] ++ (r ++ [0]))) (pre.length + k) =
      readByte ([a] ++ (r ++ [0])) k := readByte_append_add pre _
  have hv0 := nextVal_of_read (i := pre.length) (hread 0) (by omega)
  have hv1 := nextVal_of_read (i := pre.length + 1) ((hread 1).trans (by rw [hx]; rfl))
    (by omega : _ < 2 ^ 31 - 1)
  have hpass : decodePass (pre ++ ([a] ++ (r ++ [0]))) (done.length + room.length) st =
      .ok (.done (.stopped { st with
        i := pre.length + 2, a := b64Val a, b := b64Val x })) := by
    simp only [decodePass, hi, hv0, hv1, Exec.ok_bind, if_neg (Int.not_lt.mpr ha), if_pos hneg]
  have hmod : (pre.length + 1) % 4 = 1 := by omega
  rw [loop_done hpass, Exec.ok_bind]
  simp only [decodeExit, decodeTail, Nat.add_one_sub_one, hmod]
  exact .invalid _ (by omega) id

include hout

theorem outcome_two {a b : UInt8} (ha : InAlphabet a) (hb : InAlphabet b) :
    Outcome done room [a, b] r (2 ^ 31 ≤ pre.length + 2 + 1)
      (loop (decodePass (pre ++ ([a, b] ++ (r ++ [0]))) (done.length + room.length)) (budget + 1)
        st >>= decodeExit (pre ++ ([a, b] ++ (r ++ [0]))) (done.length + room.length)) := by
  obtain ⟨x, rest, hx⟩ : ∃ x rest, r ++ [0] = x :: rest := List.exists_cons_of_ne_nil (by simp)
  have hneg : b64Val x < 0 := hstop x (by rw [hx]; rfl)
  have hread : ∀ k, readByte (pre ++ ([a, b] ++ (r ++ [0]))) (pre.length + k) =
      readByte ([a, b] ++ (r ++ [0])) k := readByte_append_add pre _
  have hv0 := nextVal_of_read (i := pre.length) (hread 0) (by omega)
  have hv1 := nextVal_of_read (i := pre.length + 1) (hread 1) (by omega)
  have hv2 := nextVal_of_read (i := pre.length + 2) ((hread 2).trans (by rw [hx]; rfl))
    (by omega : _ < 2 ^ 31 - 1)
  have hpass : decodePass (pre ++ ([a, b] ++ (r ++ [0]))) (done.length + room.length) st =
      .ok (.done (.stopped { st with
        i := pre.length + 3, a := b64Val a, b := b64Val b, c := b64Val x })) := by
    simp only [decodePass, hi, hv0, hv1, hv2, Exec.ok_bind, if_neg (Int.not_lt.mpr ha),
      if_neg (Int.not_lt.mpr hb), if_pos hneg]
  have hmod : (pre.length + 2) % 4 = 2 := by omega
  have hback : ∀ k, readByte (pre ++ ([a, b] ++ (r ++ [0]))) (pre.length + 2 + k) =
      readByte (r ++ [0]) k := by
    intro k
    rw [Nat.add_assoc, hread, Nat.add_comm 2 k]
    rfl
  have hpad := padTest_two hr hback
  rw [loop_done hpass, Exec.ok_bind]
  simp only [decodeExit, decodeTail, Nat.add_one_sub_one, hmod, Nat.add_sub_cancel, hpad,
    Exec.ok_bind, hout, hdest]
  by_cases hgood : r = [] ∨ r = [chr '=', chr '=']
  · rw [decide_eq_false (not_not.mpr hgood), if_neg Bool.false_ne_true]
    exact .store (k := 0) (by omega) rfl hgood
  · rw [decide_eq_true hgood, if_pos rfl]
    exact .invalid _ (by omega) hgood

theorem outcome_three {a b c : UInt8} (ha : InAlphabet a) (hb : InAlphabet b)
    (hc : InAlphabet c) :
    Outcome done room [a, b, c] r (2 ^ 31 ≤ pre.length + 3 + 1)
      (loop (decodePass (pre ++ ([a, b, c] ++ (r ++ [0]))) (done.length + room.length))
        (budget + 1) st >>=
        decodeExit (pre ++ ([a, b, c] ++ (r ++ [0]))) (done.length + room.length)) := by
  obtain ⟨x, rest, hx⟩ : ∃ x rest, r ++ [0] = x :: rest := List.exists_cons_of_ne_nil (by simp)
  have hneg : b64Val x < 0 := hstop x (by rw [hx]; rfl)
  have hread : ∀ k, readByte (pre ++ ([a, b, c] ++ (r ++ [0]))) (pre.length + k) =
      readByte ([a, b, c] ++ (r ++ [0])) k := readByte_append_add pre _
  have hv0 := nextVal_of_read (i := pre.length) (hread 0) (by omega)
  have hv1 := nextVal_of_read (i := pre.length + 1) (hread 1) (by omega)
  have hv2 := nextVal_of_read (i := pre.length + 2) (hread 2) (by omega)
  have hlast : readByte (pre ++ ([a, b, c] ++ (r ++ [0]))) (pre.length + 3) = .ok x :=
    (hread 3).trans (by rw [hx]; rfl)
  by_cases hfull : 2 ^ 31 ≤ pre.length + 3 + 1
  · have hpass : decodePass (pre ++ ([a, b, c] ++ (r ++ [0]))) (done.length + room.length) st =
        .error .overflow := by
      simp only [decodePass, hi, hv0, hv1, hv2, nextVal_overflow hlast (by omega), Exec.ok_bind,
        if_neg (Int.not_lt.mpr ha), if_neg (Int.not_lt.mpr hb), if_neg (Int.not_lt.mpr hc)]
      rfl
    rw [loop_error hpass]
    exact .overflow hfull
  have hpass : decodePass (pre ++ ([a, b, c] ++ (r ++ [0]))) (done.length + room.length) st =
      .ok (.done (.stopped { st with
        i := pre.length + 4, a := b64Val a, b := b64Val b, c := b64Val c, d := b64Val x })) := by
    simp only [decodePass, hi, hv0, hv1, hv2, nextVal_of_read hlast (by omega), Exec.ok_bind,
      if_neg (Int.not_lt.mpr ha), if_neg (Int.not_lt.mpr hb), if_neg (Int.not_lt.mpr hc),
      if_pos hneg]
  have hmod : (pre.length + 3) % 4 = 3 := by omega
  have hback : ∀ k, readByte (pre ++ ([a, b, c] ++ (r ++ [0]))) (pre.length + 3 + k) =
      readByte (r ++ [0]) k := by
    intro k
    rw [Nat.add_assoc, hread, Nat.add_comm 3 k]
    rfl
  have hpad := padTest_three hr hback
  rw [loop_done hpass, Exec.ok_bind]
  simp only [decodeExit, decodeTail, Nat.add_one_sub_one, hmod, Nat.add_sub_cancel, hpad,
    Exec.ok_bind, hout, hdest]
  by_cases hgood : r = [] ∨ r = [chr '=']
  · rw [decide_eq_false (not_not.mpr hgood), if_neg Bool.false_ne_true]
    exact .store (k := 1) hfull rfl hgood
  · rw [decide_eq_true hgood, if_pos rfl]
    exact .invalid _ hfull hgood

end Runs

theorem decodePass_chars {pre : List UInt8} {a b c d : UInt8} {st : DecodeState}
    (rest : List UInt8) (size : ℕ) (hi : st.i = pre.length) (hint : pre.length + 4 < 2 ^ 31)
    (ha : InAlphabet a) (hb : InAlphabet b) (hc : InAlphabet c) (hd : InAlphabet d) :
    decodePass (pre ++ ([a, b, c, d] ++ rest)) size st =
      if size ≤ st.out + 2 then .ok (.done (.noMemory st.dest)) else
        writeBytes st.dest st.out [firstByte (b64Val a) (b64Val b),
          secondByte (b64Val b) (b64Val c), thirdByte (b64Val c) (b64Val d)] >>= fun dest =>
        .ok (.next { i := pre.length + 4, a := b64Val a, b := b64Val b, c := b64Val c,
                     d := b64Val d, out := st.out + 3, dest := dest }) := by
  have hread : ∀ k, readByte (pre ++ ([a, b, c, d] ++ rest)) (pre.length + k) =
      readByte ([a, b, c, d] ++ rest) k := readByte_append_add pre _
  have hv0 := nextVal_of_read (i := pre.length) (hread 0) (by omega)
  have hv1 := nextVal_of_read (i := pre.length + 1) (hread 1) (by omega)
  have hv2 := nextVal_of_read (i := pre.length + 2) (hread 2) (by omega)
  have hv3 := nextVal_of_read (i := pre.length + 3) (hread 3) (by omega)
  simp only [decodePass, hi, hv0, hv1, hv2, hv3, Exec.ok_bind, if_neg (Int.not_lt.mpr ha),
    if_neg (Int.not_lt.mpr hb), if_neg (Int.not_lt.mpr hc), if_neg (Int.not_lt.mpr hd)]

/-- The pass that reads the last group of the type `int`. -/
theorem decodePass_overflow {pre : List UInt8} {a b c d : UInt8} {st : DecodeState}
    (rest : List UInt8) (size : ℕ) (hi : st.i = pre.length) (hint : pre.length + 4 = 2 ^ 31)
    (ha : InAlphabet a) (hb : InAlphabet b) (hc : InAlphabet c) :
    decodePass (pre ++ ([a, b, c, d] ++ rest)) size st = .error .overflow := by
  have hread : ∀ k, readByte (pre ++ ([a, b, c, d] ++ rest)) (pre.length + k) =
      readByte ([a, b, c, d] ++ rest) k := readByte_append_add pre _
  have hv0 := nextVal_of_read (i := pre.length) (hread 0) (by omega)
  have hv1 := nextVal_of_read (i := pre.length + 1) (hread 1) (by omega)
  have hv2 := nextVal_of_read (i := pre.length + 2) (hread 2) (by omega)
  have hv3 := nextVal_overflow (i := pre.length + 3) (hread 3) (by omega)
  simp only [decodePass, hi, hv0, hv1, hv2, hv3, Exec.ok_bind, if_neg (Int.not_lt.mpr ha),
    if_neg (Int.not_lt.mpr hb), if_neg (Int.not_lt.mpr hc)]
  rfl

/-- From any state that has decoded whole groups, the characters that are left and what
stands behind them decide. -/
theorem outcome_loop {pre cs done room r : List UInt8} {st : DecodeState} {budget : ℕ}
    (hpre : pre.length % 4 = 0) (hint : pre.length < 2 ^ 31) (hi : st.i = pre.length)
    (hout : st.out = done.length) (hdest : st.dest = done ++ room) (hr : 0 ∉ r)
    (hstop : ∀ x ∈ (r ++ [0]).head?, b64Val x < 0) (hcs : ∀ c ∈ cs, InAlphabet c)
    (hbudget : cs.length ≤ budget) :
    Outcome done room cs r (2 ^ 31 ≤ pre.length + cs.length + 1)
      (loop (decodePass (pre ++ (cs ++ (r ++ [0]))) (done.length + room.length)) (budget + 1) st
        >>= decodeExit (pre ++ (cs ++ (r ++ [0]))) (done.length + room.length)) := by
  induction cs using decodeGroups.induct generalizing pre done room st budget with
  | case1 a b c d rest ih =>
      simp only [List.forall_mem_cons] at hcs
      obtain ⟨ha, hb, hc, hd, hcs⟩ := hcs
      simp only [List.length_cons] at hbudget
      obtain ⟨budget, rfl⟩ : ∃ k, budget = k + 1 := ⟨budget - 1, by omega⟩
      have hsrc : pre ++ (a :: b :: c :: d :: rest ++ (r ++ [0])) =
          pre ++ ([a, b, c, d] ++ (rest ++ (r ++ [0]))) := rfl
      by_cases hlast : pre.length + 4 = 2 ^ 31
      · have hpass := decodePass_overflow (d := d) (rest ++ (r ++ [0]))
          (done.length + room.length) hi hlast ha hb hc
        rw [hsrc, loop_error hpass]
        refine .overflow ?_
        simp only [List.length_cons]
        omega
      have hpass := decodePass_chars (rest ++ (r ++ [0])) (done.length + room.length) hi
        (by omega) ha hb hc hd
      rw [hsrc]
      by_cases hless : done.length + room.length ≤ st.out + 2
      · rw [if_pos hless] at hpass
        rw [loop_done hpass]
        refine .noMemory _ ?_
        simp only [decodeGroups, List.length_cons]
        omega
      · rw [if_neg hless, hdest, writeBytes_append hout
          (by simp only [List.length_cons, List.length_nil]; omega), Exec.ok_bind] at hpass
        have hsize : done.length + room.length = (done ++ [firstByte (b64Val a) (b64Val b),
            secondByte (b64Val b) (b64Val c), thirdByte (b64Val c) (b64Val d)]).length +
              (room.drop 3).length := by
          simp only [List.length_append, List.length_cons, List.length_nil, List.length_drop]
          omega
        have hnext : (pre ++ [a, b, c, d]).length = pre.length + 4 := List.length_append
        have hfull : (2 ^ 31 ≤ pre.length + (a :: b :: c :: d :: rest).length + 1) =
            (2 ^ 31 ≤ (pre ++ [a, b, c, d]).length + rest.length + 1) := by
          rw [hnext]
          simp only [List.length_cons]
          congr 1
          omega
        rw [loop_next hpass, hsize, hfull, ← List.append_assoc]
        refine Outcome.group (by omega)
          (ih (by omega) (by omega) hnext.symm ?_ rfl hcs (by omega))
        rw [List.length_append, hout]
        rfl
  | case2 a b c =>
      simp only [List.forall_mem_cons] at hcs
      obtain ⟨ha, hb, hc, -⟩ := hcs
      exact outcome_three hpre hint hi hout hdest hr hstop ha hb hc
  | case3 a b =>
      simp only [List.forall_mem_cons] at hcs
      obtain ⟨ha, hb, -⟩ := hcs
      exact outcome_two hpre hint hi hout hdest hr hstop ha hb
  | case4 a =>
      simp only [List.forall_mem_cons] at hcs
      exact outcome_one hpre hint hi hstop hcs.1
  | case5 => exact outcome_none hpre hint hi hdest hr hstop

/-! ## Strings -/

/-- The characters of the alphabet in front. -/
def front (s : List UInt8) : List UInt8 := s.takeWhile fun c => decide (InAlphabet c)

/-- What stands behind them. -/
def behind (s : List UInt8) : List UInt8 := s.dropWhile fun c => decide (InAlphabet c)

theorem front_append_behind (s : List UInt8) : front s ++ behind s = s :=
  List.takeWhile_append_dropWhile

theorem inAlphabet_of_mem_front {s : List UInt8} : ∀ c ∈ front s, InAlphabet c :=
  fun _ hc => of_decide_eq_true
    (List.mem_takeWhile_imp (p := fun c => decide (InAlphabet c)) hc)

theorem length_front_le (s : List UInt8) : (front s).length ≤ s.length :=
  (List.takeWhile_prefix _).length_le

/-- A character outside the alphabet, or the terminator, stands behind them. -/
theorem behind_stops (s : List UInt8) : ∀ x ∈ (behind s ++ [0]).head?, b64Val x < 0 := by
  intro x hx
  cases hb : behind s with
  | nil =>
      rw [hb] at hx
      obtain rfl := Option.some.inj hx
      rw [b64Val_zero]
      decide
  | cons y r =>
      rw [hb] at hx
      obtain rfl := Option.some.inj hx
      have hstop := List.head_dropWhile_not (fun c => decide (InAlphabet c)) (l := s)
        (by rw [← behind, hb]; exact List.cons_ne_nil y r)
      have hhead : (behind s).head (by rw [hb]; exact List.cons_ne_nil y r) = y := by
        simp [hb]
      rw [← hhead]
      exact Int.not_le.mp (of_decide_eq_false hstop)

/-- Padding starts with no character of the alphabet. -/
theorem PadFor.head {k : ℕ} {pad : List UInt8} (h : PadFor k pad) :
    pad = [] ∨ ∃ rest, pad = chr '=' :: rest := by
  unfold PadFor at h
  split at h
  · exact Or.inl h
  · exact absurd h id
  · exact h.imp_right fun heq => ⟨_, heq⟩
  · exact h.imp_right fun heq => ⟨_, heq⟩

/-- The characters of a text are those in front, and its padding is what stands behind. -/
theorem isText_iff {s cs : List UInt8} :
    IsText s cs ↔ cs = front s ∧ PadFor (front s).length (behind s) := by
  constructor
  · rintro ⟨hcs, pad, hpad, rfl⟩
    have hall : ∀ c ∈ cs, decide (InAlphabet c) = true := fun c hc => decide_eq_true (hcs c hc)
    have hequals : decide (InAlphabet (chr '=')) = false := by
      rw [decide_eq_false_iff_not, InAlphabet, b64Val_equals]
      decide
    have hsplit : front (cs ++ pad) = cs ∧ behind (cs ++ pad) = pad := by
      rw [front, behind, List.takeWhile_append_of_pos hall, List.dropWhile_append_of_pos hall]
      rcases hpad.head with rfl | ⟨rest, rfl⟩
      · simp
      · rw [List.takeWhile_cons_of_neg (by rw [hequals]; exact Bool.false_ne_true),
          List.dropWhile_cons_of_neg (by rw [hequals]; exact Bool.false_ne_true),
          List.append_nil]
        exact ⟨rfl, rfl⟩
    rw [hsplit.1, hsplit.2]
    exact ⟨rfl, hpad⟩
  · rintro ⟨rfl, hpad⟩
    exact ⟨inAlphabet_of_mem_front, behind s, hpad, (front_append_behind s).symm⟩

/-- The counter leaves its type: `b64_decode` looks at the terminator of 2^31 - 1
characters, all of the alphabet. -/
def CounterOverflows (s : List UInt8) : Prop :=
  s.length = 2 ^ 31 - 1 ∧ ∀ c ∈ s, InAlphabet c

theorem length_front_iff {s : List UInt8} (hlen : s.length < 2 ^ 31) :
    2 ^ 31 ≤ (front s).length + 1 ↔ CounterOverflows s := by
  constructor
  · intro hfull
    have hle := length_front_le s
    have hall : front s = s :=
      (List.takeWhile_prefix _).eq_of_length (by rw [← front]; omega)
    refine ⟨by omega, ?_⟩
    rw [← hall]
    exact inAlphabet_of_mem_front
  · rintro ⟨hlong, hall⟩
    have hfront : front s = s := by
      rw [front, List.takeWhile_eq_self_iff]
      exact fun c hc => decide_eq_true (hall c hc)
    rw [hfront]
    omega

theorem b64Decode_outcome {s : List UInt8} (hs : 0 ∉ s) (dest : List UInt8) :
    Outcome [] dest (front s) (behind s) (2 ^ 31 ≤ (front s).length + 1)
      (b64Decode (s ++ [0]) dest dest.length) := by
  have hle := length_front_le s
  have hr : 0 ∉ behind s := fun h => hs ((List.dropWhile_suffix _).subset h)
  have hres := @outcome_loop [] (front s) [] dest (behind s)
    { i := 0, a := 0, b := 0, c := 0, d := 0, out := 0, dest := dest } (s ++ [0]).length
    rfl (by decide) rfl rfl rfl hr (behind_stops s) inAlphabet_of_mem_front
    (by rw [List.length_append]; omega)
  have hsrc : [] ++ (front s ++ (behind s ++ [0])) = s ++ [0] := by
    rw [List.nil_append, ← List.append_assoc, front_append_behind]
  rw [hsrc, List.length_nil, Nat.zero_add, Nat.zero_add] at hres
  exact hres

/-- A string of a length that the counter can hold, decoded. -/
theorem b64Decode_outcome_short {s : List UInt8} (hs : 0 ∉ s) (hlen : s.length < 2 ^ 31)
    (dest : List UInt8) :
    Outcome [] dest (front s) (behind s) (CounterOverflows s)
      (b64Decode (s ++ [0]) dest dest.length) := by
  have hres := b64Decode_outcome hs dest
  rwa [propext (length_front_iff hlen)] at hres

/-- With room for the bytes, `b64_decode` returns if its counter keeps its type. -/
theorem Outcome.returns_iff {done room cs r : List UInt8} {full : Prop}
    {res : Exec (ℤ × List UInt8)} (h : Outcome done room cs r full res)
    (hroom : (decodeGroups cs).length ≤ room.length) : Exec.Returns res ↔ ¬ full := by
  cases h with
  | noMemory out hless => exact absurd hroom (Nat.not_le.mpr hless)
  | overflow hfull => exact iff_of_false (Exec.not_returns_error _) (not_not.mpr hfull)
  | invalid out hfull hpad => exact iff_of_true (Exec.returns_ok _) hfull
  | decoded hfull hpad hroom => exact iff_of_true (Exec.returns_ok _) hfull

theorem Classifies.returns {s : List UInt8} (h : Classifies s) :
    Exec.Returns (b64Decode (s ++ [0]) s s.length) := by
  obtain ⟨htext, hother⟩ := h s (Nat.le_refl _)
  by_cases hex : ∃ cs, IsText s cs
  · obtain ⟨cs, hcs⟩ := hex
    exact ⟨_, htext cs hcs⟩
  · obtain ⟨out, hout⟩ := hother hex
    exact ⟨_, hout⟩

/-- Room for as many bytes as there are characters is enough. -/
theorem length_decodeGroups_le {s dest : List UInt8} (hdest : s.length ≤ dest.length) :
    (decodeGroups (front s)).length ≤ dest.length := by
  have hle := length_front_le s
  rw [length_decodeGroups]
  omega

/-- `b64_decode` accepts exactly the texts, decodes them and stays inside its objects,
unless its counter leaves its type. -/
theorem b64Decode_classifies_iff {s : List UInt8} (hs : 0 ∉ s) (hlen : s.length < 2 ^ 31) :
    Classifies s ∧ StaysInside s ↔ ¬ CounterOverflows s := by
  constructor
  · rintro ⟨hclass, -⟩
    have houtcome := b64Decode_outcome_short hs hlen s
    exact (houtcome.returns_iff (length_decodeGroups_le (Nat.le_refl _))).mp hclass.returns
  · intro hkeeps
    constructor
    · intro dest hdest
      have houtcome := b64Decode_outcome_short hs hlen dest
      generalize b64Decode (s ++ [0]) dest dest.length = res at houtcome
      cases houtcome with
      | noMemory out hless =>
          exact absurd (length_decodeGroups_le hdest) (Nat.not_le.mpr hless)
      | overflow hfull => exact absurd hfull hkeeps
      | invalid out hfull hpad =>
          exact ⟨fun cs hcs => absurd (isText_iff.mp hcs).2 hpad, fun _ => ⟨out, rfl⟩⟩
      | decoded hfull hpad hroom =>
          refine ⟨fun cs hcs => ?_, fun hnone => absurd ⟨_, isText_iff.mpr ⟨rfl, hpad⟩⟩ hnone⟩
          rw [(isText_iff.mp hcs).1, ← decodeGroups_eq, List.nil_append]
    · intro dest e herror
      have houtcome := b64Decode_outcome_short hs hlen dest
      rw [herror] at houtcome
      cases houtcome with
      | overflow hfull => exact ⟨by simp, by simp⟩

/-- The string `YQ==`. -/
theorem b64Decode_classifies_oneByte :
    Classifies (ascii "YQ==") ∧ StaysInside (ascii "YQ==") ↔ ¬ CounterOverflows (ascii "YQ==") :=
  b64Decode_classifies_iff (by decide) (by decide)

/-- The longest string of the characters `A`. -/
theorem b64Decode_overflows :
    ¬ ∀ s : List UInt8, 0 ∉ s → s.length < 2 ^ 31 → Classifies s ∧ StaysInside s := by
  intro h
  obtain ⟨n, hn⟩ : ∃ n, n = 2 ^ 31 - 1 := ⟨_, rfl⟩
  have hlen : (List.replicate n (chr 'A')).length = n := List.length_replicate
  have hzero : 0 ∉ List.replicate n (chr 'A') := fun hmem =>
    absurd (List.eq_of_mem_replicate hmem) (by decide)
  have hfull : CounterOverflows (List.replicate n (chr 'A')) := by
    refine ⟨by rw [hlen, hn], fun c hc => ?_⟩
    rw [List.eq_of_mem_replicate hc, InAlphabet]
    decide
  obtain ⟨hclass, -⟩ := h _ hzero (by omega)
  have houtcome := b64Decode_outcome_short hzero (by omega) (List.replicate n (chr 'A'))
  exact (houtcome.returns_iff (length_decodeGroups_le (Nat.le_refl _))).mp hclass.returns hfull

end Hlibc.Base64
