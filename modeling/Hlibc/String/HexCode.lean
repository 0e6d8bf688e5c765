import Hlibc.Errno
import Hlibc.String.Hex
import Mathlib.Data.List.GetD
import Mathlib.Tactic.Ring

/-!
# Hexadecimal codes

`hex_encode` and `hex_decode` of `string.c`.  The decoder reads two digits a pass, and counts
the bytes it writes by an `int`.
-/

set_option autoImplicit false

namespace Hlibc.Hex

/-! ## The functions of the source -/

/-- `hex_encode_byte`, into the object `dest` from `off` on. -/
def hexEncodeByte (src : UInt8) (dest : List UInt8) (off : ℕ) : Exec (List UInt8) := do
  let high ← readByte hexCset (src.toNat >>> 4)
  let dest ← writeByte dest off high
  let low ← readByte hexCset (src.toNat &&& 15)
  writeByte dest (off + 1) low

/-- The variables of `hex_encode`. -/
structure EncodeState where
  pos : ℕ
  off : ℕ
  dest : List UInt8

/-- One pass of the loop of `hex_encode`, and the terminator behind the last one. -/
def encodePass (src : List UInt8) (n : ℕ) (st : EncodeState) :
    Exec (Pass EncodeState (List UInt8)) :=
  if st.pos < n then do
    let c ← readByte src st.pos
    let dest ← hexEncodeByte c st.dest st.off
    .ok (.next { pos := st.pos + 1, off := st.off + 2, dest := dest })
  else do
    let dest ← writeByte st.dest st.off 0
    .ok (.done dest)

/-- `hex_encode` of the first `n` bytes: the object `dest` afterwards. -/
def hexEncode (src : List UInt8) (n : ℕ) (dest : List UInt8) : Exec (List UInt8) :=
  loop (encodePass src n) (n + 1) { pos := 0, off := 0, dest := dest }

/-- The variables of `hex_decode`. -/
structure DecodeState where
  pos : ℕ
  i : ℕ
  dest : List UInt8

/-- `(a << 4) + b`, as the byte it is stored as. -/
def pairByte (a b : ℤ) : UInt8 := UInt8.ofNat ((a.toNat <<< 4) + b.toNat)

/-- One pass of the loop of `hex_decode`. -/
def decodePass (src : List UInt8) (size : ℕ) (st : DecodeState) :
    Exec (Pass DecodeState (ℤ × List UInt8)) := do
  let c ← readByte src st.pos
  if c = 0 then .ok (.done (0, st.dest)) else
  let a := hexVal c
  if a < 0 then .ok (.done (EINVAL, st.dest)) else
  let c ← readByte src (st.pos + 1)
  let b := hexVal c
  if b < 0 then .ok (.done (EINVAL, st.dest)) else
  if st.i = size then .ok (.done (ENOMEM, st.dest)) else
  let dest ← writeByte st.dest st.i (pairByte a b)
  let i ← incInt st.i
  .ok (.next { pos := st.pos + 2, i := i, dest := dest })

/-- `hex_decode` into an object of `size` bytes: the value returned and the bytes of the object
afterwards. -/
def hexDecode (src dest : List UInt8) (size : ℕ) : Exec (ℤ × List UInt8) :=
  loop (decodePass src size) (src.length + 1) { pos := 0, i := 0, dest := dest }

/-! ## Texts -/

/-- An even number of hexadecimal digits. -/
def IsHex (s : List UInt8) : Prop := s.length % 2 = 0 ∧ ∀ c ∈ s, isxdigit c = true

/-- The digits of bytes. -/
def hexText (m : List UInt8) : List UInt8 :=
  m.flatMap fun c => [hexCset.getD (c.toNat / 16) 0, hexCset.getD (c.toNat % 16) 0]

/-- The bytes of pairs of digits. -/
def hexBytes : List UInt8 → List UInt8
  | a :: b :: s => pairByte (hexVal a) (hexVal b) :: hexBytes s
  | _ => []

/-- How many pairs of digits stand in front. -/
def hexFront : List UInt8 → ℕ
  | a :: b :: s => if isxdigit a = true ∧ isxdigit b = true then hexFront s + 1 else 0
  | _ => 0

@[simp] theorem hexText_nil : hexText [] = [] := rfl

@[simp] theorem hexText_cons (c : UInt8) (m : List UInt8) :
    hexText (c :: m) =
      hexCset.getD (c.toNat / 16) 0 :: hexCset.getD (c.toNat % 16) 0 :: hexText m := rfl

@[simp] theorem length_hexText (m : List UInt8) : (hexText m).length = 2 * m.length := by
  induction m with
  | nil => rfl
  | cons c m ih =>
      rw [hexText_cons, List.length_cons, List.length_cons, ih, List.length_cons]
      omega

theorem isHex_cons_cons {a b : UInt8} {s : List UInt8} :
    IsHex (a :: b :: s) ↔ (isxdigit a = true ∧ isxdigit b = true) ∧ IsHex s := by
  simp only [IsHex, List.length_cons, List.forall_mem_cons]
  constructor
  · rintro ⟨hlen, ha, hb, hs⟩
    exact ⟨⟨ha, hb⟩, by omega, hs⟩
  · rintro ⟨⟨ha, hb⟩, hlen, hs⟩
    exact ⟨by omega, ha, hb, hs⟩

theorem not_isHex_singleton (a : UInt8) : ¬ IsHex [a] := fun h => absurd h.1 (by simp)

theorem isHex_hexText (m : List UInt8) : IsHex (hexText m) := by
  induction m with
  | nil => exact ⟨rfl, by simp⟩
  | cons c m ih =>
      obtain ⟨⟨hhigh, hlow, -⟩, -⟩ := hexCset_spec c
      exact isHex_cons_cons.mpr ⟨⟨hhigh, hlow⟩, ih⟩

theorem IsHex.zero_notMem {s : List UInt8} (h : IsHex s) : 0 ∉ s :=
  fun hmem => absurd (h.2 0 hmem) (by decide)

theorem pairByte_eq (a b : ℤ) : pairByte a b = UInt8.ofNat (16 * a.toNat + b.toNat) := by
  rw [pairByte, Nat.shiftLeft_eq, Nat.mul_comm]

theorem length_hexBytes (s : List UInt8) : (hexBytes s).length = s.length / 2 := by
  fun_induction hexBytes s with
  | case1 a b s ih =>
      simp only [List.length_cons, ih]
      omega
  | case2 s hs =>
      match s with
      | [] => rfl
      | [a] => simp
      | a :: b :: s => exact absurd rfl (hs a b s)

/-- The digits of bytes, read in pairs, give the bytes. -/
theorem hexBytes_hexText (m : List UInt8) : hexBytes (hexText m) = m := by
  induction m with
  | nil => rfl
  | cons c m ih =>
      obtain ⟨⟨-, -, hbyte⟩, -⟩ := hexCset_spec c
      rw [hexText_cons, hexBytes, ih, pairByte_eq, hbyte]

/-- The digits of the bytes of digits are these in upper case. -/
theorem hexText_hexBytes {s : List UInt8} (h : IsHex s) : hexText (hexBytes s) = s.map toupper := by
  fun_induction hexBytes s with
  | case1 a b s ih =>
      obtain ⟨⟨ha, hb⟩, hs⟩ := isHex_cons_cons.mp h
      have hlta := hexVal_lt a
      have hltb := hexVal_lt b
      have hval : (pairByte (hexVal a) (hexVal b)).toNat =
          16 * (hexVal a).toNat + (hexVal b).toNat := by
        rw [pairByte_eq, UInt8.toNat_ofNat', Nat.mod_eq_of_lt (by omega)]
      have hdiv : (pairByte (hexVal a) (hexVal b)).toNat / 16 = (hexVal a).toNat := by omega
      have hmod : (pairByte (hexVal a) (hexVal b)).toNat % 16 = (hexVal b).toNat := by omega
      rw [hexText_cons, ih hs, hdiv, hmod, (hexCset_spec a).2 ha, (hexCset_spec b).2 hb]
      rfl
  | case2 s hs =>
      match s with
      | [] => rfl
      | [a] => exact absurd h (not_isHex_singleton a)
      | a :: b :: s => exact absurd rfl (hs a b s)

theorem le_hexFront_iff {s : List UInt8} {n : ℕ} :
    n ≤ hexFront s ↔ 2 * n ≤ s.length ∧ ∀ c ∈ s.take (2 * n), isxdigit c = true := by
  fun_induction hexFront s generalizing n with
  | case1 a b s hdigits ih =>
      cases n with
      | zero => simp
      | succ n =>
          have hdouble : 2 * (n + 1) = 2 * n + 1 + 1 := by ring
          rw [Nat.add_le_add_iff_right, ih, hdouble, List.take_succ_cons, List.take_succ_cons,
            List.length_cons, List.length_cons, List.forall_mem_cons, List.forall_mem_cons]
          constructor
          · rintro ⟨hlen, htake⟩
            exact ⟨by omega, hdigits.1, hdigits.2, htake⟩
          · rintro ⟨hlen, -, -, htake⟩
            exact ⟨by omega, htake⟩
  | case2 a b s hdigits =>
      cases n with
      | zero => simp
      | succ n =>
          refine iff_of_false (by omega) fun h => hdigits ?_
          have hdouble : 2 * (n + 1) = 2 * n + 1 + 1 := by ring
          have htake := h.2
          rw [hdouble, List.take_succ_cons, List.take_succ_cons] at htake
          exact ⟨htake a (by simp), htake b (by simp)⟩
  | case3 s hs =>
      have hshort : s.length < 2 := by
        match s with
        | [] => simp
        | [a] => simp
        | a :: b :: s => exact absurd rfl (hs a b s)
      cases n with
      | zero => simp
      | succ n => exact iff_of_false (by omega) fun h => absurd h.1 (by omega)

/-! ## The encoder -/

theorem readByte_hexCset {k : ℕ} (hk : k < 16) : readByte hexCset k = .ok (hexCset.getD k 0) := by
  have hlt : k < hexCset.length := hk
  rw [readByte_of_lt hlt, List.getD_eq_getElem]

theorem hexEncodeByte_append (c : UInt8) {done room : List UInt8} (hroom : 2 ≤ room.length) :
    hexEncodeByte c (done ++ room) done.length =
      .ok (done ++ hexText [c] ++ room.drop 2) := by
  obtain ⟨x, y, room, rfl⟩ : ∃ x y rest, room = x :: y :: rest := by
    match room, hroom with
    | x :: y :: rest, _ => exact ⟨x, y, rest, rfl⟩
  have hlt := UInt8.toNat_lt c
  have hhigh : c.toNat >>> 4 = c.toNat / 16 := Nat.shiftRight_eq_div_pow c.toNat 4
  have hlow : c.toNat &&& 15 = c.toNat % 16 := Nat.and_two_pow_sub_one_eq_mod c.toNat 4
  rw [hexEncodeByte, hhigh, hlow, readByte_hexCset (by omega), Exec.ok_bind,
    writeByte_append rfl, Exec.ok_bind, readByte_hexCset (by omega), Exec.ok_bind,
    List.append_cons done, writeByte_append (by simp)]
  simp

theorem encode_loop (rest pre room : List UInt8) {budget : ℕ}
    (hbudget : rest.length < budget) (hroom : 2 * rest.length + 1 ≤ room.length) :
    loop (encodePass (pre ++ rest) (pre ++ rest).length) budget
        { pos := pre.length, off := (hexText pre).length, dest := hexText pre ++ room } =
      .ok (hexText (pre ++ rest) ++ 0 :: room.drop (2 * rest.length + 1)) := by
  induction rest generalizing pre room budget with
  | nil =>
      obtain ⟨budget, rfl⟩ : ∃ k, budget = k + 1 := ⟨budget - 1, by omega⟩
      obtain ⟨x, room, rfl⟩ : ∃ x rest, room = x :: rest :=
        List.exists_cons_of_length_pos (by omega)
      apply loop_done
      rw [List.append_nil, encodePass, if_neg (Nat.lt_irrefl _), writeByte_append rfl]
      rfl
  | cons c rest ih =>
      obtain ⟨budget, rfl⟩ : ∃ k, budget = k + 1 := ⟨budget - 1, by omega⟩
      rw [List.length_cons] at hbudget hroom
      have hread : readByte (pre ++ c :: rest) pre.length = .ok c :=
        readByte_length_eq_ok.mpr ⟨rest, rfl⟩
      have hpass : encodePass (pre ++ c :: rest) (pre ++ c :: rest).length
          { pos := pre.length, off := (hexText pre).length, dest := hexText pre ++ room } =
          .ok (.next { pos := (pre ++ [c]).length, off := (hexText (pre ++ [c])).length,
                       dest := hexText (pre ++ [c]) ++ room.drop 2 }) := by
        rw [encodePass, if_pos (by simp), hread, Exec.ok_bind,
          hexEncodeByte_append c (by omega), Exec.ok_bind]
        simp [hexText]
      have hrest := ih (pre ++ [c]) (room.drop 2) (by omega : rest.length < budget)
        (by rw [List.length_drop]; omega)
      rw [List.append_assoc, List.singleton_append] at hrest
      rw [loop_next hpass, hrest, List.drop_drop]
      congr 4
      rw [List.length_cons]
      ring

/-- `hex_encode` writes the digits and a terminator, and leaves the rest alone. -/
theorem hexEncode_eq {m room : List UInt8} (hroom : 2 * m.length + 1 ≤ room.length) :
    hexEncode m m.length room =
      .ok (hexText m ++ 0 :: room.drop (2 * m.length + 1)) :=
  encode_loop m [] room (Nat.lt_succ_self _) hroom

/-! ## The decoder -/

/-- How `hex_decode` ends on the string `s`, into a destination whose first bytes are `done` and
whose remaining ones are `room`; `full` says that the counter leaves its type. -/
inductive Outcome (done room s : List UInt8) (full : Prop) : Exec (ℤ × List UInt8) → Prop where
  | overflow (hfull : full) : Outcome done room s full (.error .overflow)
  | invalid (out : List UInt8) (hfull : ¬ full) (hhex : ¬ IsHex s) :
      Outcome done room s full (.ok (EINVAL, out))
  | noMemory (out : List UInt8) (hfull : ¬ full) (hroom : room.length < s.length / 2) :
      Outcome done room s full (.ok (ENOMEM, out))
  | decoded (hfull : ¬ full) (hhex : IsHex s) (hroom : s.length / 2 ≤ room.length) :
      Outcome done room s full (.ok (0, done ++ hexBytes s ++ room.drop (s.length / 2)))

/-- Where the decoder returns, the counter has kept its type. -/
theorem Outcome.not_full {done room s : List UInt8} {full : Prop} {res : Exec (ℤ × List UInt8)}
    (h : Outcome done room s full res) (hres : Exec.Returns res) : ¬ full := by
  cases h with
  | overflow hfull => exact absurd hres (Exec.not_returns_error _)
  | invalid out hfull => exact hfull
  | noMemory out hfull => exact hfull
  | decoded hfull => exact hfull

/-- The counter of the bytes written, from `done` on, has to pass the end of its type. -/
def Full (done room s : List UInt8) : Prop :=
  2 ^ 31 ≤ done.length + min (hexFront s) room.length

theorem not_full {done room s : List UInt8} (hdone : done.length < 2 ^ 31)
    (hfront : hexFront s = 0) : ¬ Full done room s := by
  rw [Full, hfront, Nat.zero_min]
  omega

theorem full_pair {done room s : List UInt8} {a b : UInt8} (x c : UInt8)
    (hdigits : isxdigit a = true ∧ isxdigit b = true) :
    Full done (x :: room) (a :: b :: s) ↔ Full (done ++ [c]) room s := by
  have hfront : hexFront (a :: b :: s) = hexFront s + 1 := if_pos hdigits
  rw [Full, Full, hfront, List.length_cons, Nat.add_min_add_right, List.length_append,
    List.length_singleton, Nat.add_assoc, Nat.add_comm 1]

/-- A pair of digits decoded, and then the rest behind it. -/
theorem Outcome.pair {done room s : List UInt8} {a b x : UInt8} {full : Prop}
    {res : Exec (ℤ × List UInt8)} (ha : isxdigit a = true) (hb : isxdigit b = true)
    (h : Outcome (done ++ [pairByte (hexVal a) (hexVal b)]) room s full res) :
    Outcome done (x :: room) (a :: b :: s) full res := by
  have hhex : IsHex (a :: b :: s) ↔ IsHex s := by
    rw [isHex_cons_cons, and_iff_right ⟨ha, hb⟩]
  have hlen : (a :: b :: s).length / 2 = s.length / 2 + 1 := by
    rw [List.length_cons, List.length_cons]
    omega
  cases h with
  | overflow hfull => exact .overflow hfull
  | invalid out hfull hbad => exact .invalid out hfull (mt hhex.mp hbad)
  | noMemory out hfull hless =>
      refine .noMemory out hfull ?_
      rw [hlen, List.length_cons]
      omega
  | decoded hfull hgood hfits =>
      have hres := @Outcome.decoded done (x :: room) (a :: b :: s) full hfull (hhex.mpr hgood)
        (by rw [hlen, List.length_cons]; omega)
      rw [hlen, List.drop_succ_cons, hexBytes] at hres
      rw [List.append_assoc done, List.singleton_append]
      exact hres

section Pass

variable {src dest : List UInt8} {size pos i : ℕ} {a b : UInt8}

/-- A character other than a digit, in front or behind a digit, ends the loop. -/
theorem decodePass_invalid (hread : readByte src pos = .ok a) (ha : a ≠ 0)
    (hnext : isxdigit a = true → readByte src (pos + 1) = .ok b)
    (hdigits : ¬ (isxdigit a = true ∧ isxdigit b = true)) :
    decodePass src size { pos := pos, i := i, dest := dest } = .ok (.done (EINVAL, dest)) := by
  rw [decodePass, hread, Exec.ok_bind, if_neg ha]
  by_cases hdigit : isxdigit a = true
  · have hb : hexVal b < 0 := by
      rw [hexVal_neg_iff, ← Bool.not_eq_true]
      exact fun hb => hdigits ⟨hdigit, hb⟩
    simp only [Int.not_lt.mpr (hexVal_nonneg hdigit), if_false, hnext hdigit, Exec.ok_bind, hb,
      if_true]
  · have ha' : hexVal a < 0 := by
      rw [hexVal_neg_iff, ← Bool.not_eq_true]
      exact hdigit
    simp only [ha', if_true]

section Digits

variable (hread : readByte src pos = .ok a) (hnext : readByte src (pos + 1) = .ok b)
  (ha : isxdigit a = true) (hb : isxdigit b = true)

include hread hnext ha hb

theorem decodePass_digits :
    decodePass src size { pos := pos, i := i, dest := dest } =
      if i = size then .ok (.done (ENOMEM, dest)) else (do
        let dest ← writeByte dest i (pairByte (hexVal a) (hexVal b))
        let i ← incInt i
        .ok (.next { pos := pos + 2, i := i, dest := dest })) := by
  have hzero : a ≠ 0 := by
    rintro rfl
    exact absurd ha (by decide)
  rw [decodePass, hread, Exec.ok_bind, if_neg hzero]
  simp only [Int.not_lt.mpr (hexVal_nonneg ha), if_false, hnext, Exec.ok_bind,
    Int.not_lt.mpr (hexVal_nonneg hb)]

/-- Two digits are a byte, if there is room for it and the counter keeps its type. -/
theorem decodePass_room (done room : List UInt8) (x : UInt8) :
    decodePass src (done ++ x :: room).length
        { pos := pos, i := done.length, dest := done ++ x :: room } = (do
      let i ← incInt done.length
      .ok (.next { pos := pos + 2, i := i,
                   dest := done ++ pairByte (hexVal a) (hexVal b) :: room })) := by
  rw [decodePass_digits hread hnext ha hb, if_neg (by simp), writeByte_append rfl, Exec.ok_bind]

end Digits

end Pass

theorem decode_loop (s pre done room tail : List UInt8) {budget : ℕ} (hs : 0 ∉ s)
    (hdone : done.length < 2 ^ 31) (hbudget : s.length < budget) :
    Outcome done room s (Full done room s)
      (loop (decodePass (pre ++ (s ++ 0 :: tail)) (done ++ room).length) budget
        { pos := pre.length, i := done.length, dest := done ++ room }) := by
  obtain ⟨budget, rfl⟩ : ∃ k, budget = k + 1 := ⟨budget - 1, by omega⟩
  have hread : ∀ a t, s ++ 0 :: tail = a :: t →
      readByte (pre ++ (s ++ 0 :: tail)) pre.length = .ok a :=
    fun a t hcons => readByte_length_eq_ok.mpr ⟨t, hcons⟩
  have hnext : ∀ a b t, s ++ 0 :: tail = a :: b :: t →
      readByte (pre ++ (s ++ 0 :: tail)) (pre.length + 1) = .ok b := by
    intro a b t hcons
    rw [readByte_append_add, hcons, readByte_cons_succ, readByte_cons_zero]
  match s with
  | [] =>
      have hpass : decodePass (pre ++ ([] ++ 0 :: tail)) (done ++ room).length
          { pos := pre.length, i := done.length, dest := done ++ room } =
          .ok (.done (0, done ++ room)) := by
        rw [decodePass, hread 0 tail rfl, Exec.ok_bind, if_pos rfl]
      rw [loop_done hpass]
      simpa [hexBytes] using @Outcome.decoded done room [] _ (not_full hdone rfl)
        ⟨rfl, by simp⟩ (Nat.zero_le _)
  | [a] =>
      have ha : a ≠ 0 := fun h => hs (by simp [h])
      rw [loop_done (decodePass_invalid (hread a (0 :: tail) rfl) ha
        (fun _ => hnext a 0 tail rfl) fun h => absurd h.2 (by decide))]
      exact .invalid _ (not_full hdone rfl) (not_isHex_singleton a)
  | a :: b :: s =>
      have ha : a ≠ 0 := fun h => hs (by simp [h])
      have hreada := hread a (b :: (s ++ 0 :: tail)) rfl
      have hreadb := hnext a b (s ++ 0 :: tail) rfl
      by_cases hdigits : isxdigit a = true ∧ isxdigit b = true
      · match room with
        | [] =>
            have hpass := @decodePass_digits _ done done.length _ done.length a b hreada hreadb
              hdigits.1 hdigits.2
            rw [if_pos rfl] at hpass
            rw [List.append_nil, loop_done hpass]
            refine .noMemory _ ?_ ?_
            · rw [Full, List.length_nil, Nat.min_zero]
              omega
            · simp only [List.length_nil, List.length_cons]
              omega
        | x :: room =>
            have hpass := decodePass_room hreada hreadb hdigits.1 hdigits.2 done room x
            by_cases hint : done.length < 2 ^ 31 - 1
            · rw [incInt_of_lt hint, Exec.ok_bind] at hpass
              have hbudget' : s.length < budget := by
                simp only [List.length_cons] at hbudget
                omega
              have hrest := decode_loop s (pre ++ [a, b])
                (done ++ [pairByte (hexVal a) (hexVal b)]) room tail (fun h => hs (by simp [h]))
                (by rw [List.length_append, List.length_singleton]; omega) hbudget'
              rw [propext (full_pair x _ hdigits)]
              apply Outcome.pair hdigits.1 hdigits.2
              rw [loop_next hpass]
              simpa using hrest
            · rw [incInt, if_neg hint] at hpass
              rw [loop_error hpass]
              refine .overflow ((full_pair x 0 hdigits).mpr ?_)
              rw [Full, List.length_append, List.length_singleton]
              omega
      · rw [loop_done (decodePass_invalid hreada ha (fun _ => hreadb) hdigits)]
        exact .invalid _ (not_full hdone (if_neg hdigits)) fun h =>
          hdigits (isHex_cons_cons.mp h).1

theorem hexDecode_outcome {s : List UInt8} (hs : 0 ∉ s) (tail dest : List UInt8) :
    Outcome [] dest s (Full [] dest s) (hexDecode (s ++ 0 :: tail) dest dest.length) := by
  have hlen : s.length < (s ++ 0 :: tail).length + 1 := by
    rw [List.length_append]
    omega
  exact decode_loop s [] [] dest tail hs (Nat.two_pow_pos 31) hlen

/-! ## What a call promises -/

/-- What `hex_decode` does with the string `s` and the destination `dest`.  It returns, so that
it has stayed inside both; it returns 0 exactly for an even number of digits and room for their
bytes, and the errors otherwise; and the bytes have the digits in upper case. -/
structure Decodes (s dest : List UInt8) : Prop where
  returns : Exec.Returns (hexDecode (s ++ [0]) dest dest.length)
  zero_iff : (∃ out, hexDecode (s ++ [0]) dest dest.length = .ok (0, out)) ↔
    IsHex s ∧ s.length / 2 ≤ dest.length
  invalid : ¬ IsHex s → s.length / 2 ≤ dest.length →
    ∃ out, hexDecode (s ++ [0]) dest dest.length = .ok (EINVAL, out)
  noMemory : IsHex s → dest.length < s.length / 2 →
    ∃ out, hexDecode (s ++ [0]) dest dest.length = .ok (ENOMEM, out)
  upper : ∀ out, hexDecode (s ++ [0]) dest dest.length = .ok (0, out) →
    ∀ room : List UInt8, s.length + 1 ≤ room.length →
      hexEncode (out.take (s.length / 2)) (s.length / 2) room =
        .ok (s.map toupper ++ 0 :: room.drop (s.length + 1))

/-- What `hex_encode` writes for `m`, `hex_decode` reads as `m`. -/
def RoundTrips (m : List UInt8) : Prop :=
  ∀ room dest : List UInt8, 2 * m.length + 1 ≤ room.length → m.length ≤ dest.length →
    ∃ text, hexEncode m m.length room = .ok text ∧
      hexDecode text dest dest.length = .ok (0, m ++ dest.drop m.length)

/-- The counter leaves its type: 2^31 pairs of digits stand in front, and there is room for their
bytes. -/
def CounterOverflows (s : List UInt8) (size : ℕ) : Prop :=
  2 ^ 31 ≤ size ∧ 2 ^ 32 ≤ s.length ∧ ∀ c ∈ s.take (2 ^ 32), isxdigit c = true

theorem full_iff {s dest : List UInt8} : Full [] dest s ↔ CounterOverflows s dest.length := by
  have hfront := le_hexFront_iff (s := s) (n := 2 ^ 31)
  have hdouble : 2 * 2 ^ 31 = 2 ^ 32 := by norm_num
  rw [hdouble] at hfront
  rw [Full, CounterOverflows, List.length_nil, Nat.zero_add, Nat.le_min, hfront, and_comm]

/-- A counter that keeps its type leaves one of the three results. -/
theorem decodes_of_keeps {s dest : List UInt8} (hs : 0 ∉ s)
    (hkeeps : ¬ CounterOverflows s dest.length) : Decodes s dest := by
  have houtcome := hexDecode_outcome hs [] dest
  rw [← full_iff] at hkeeps
  generalize hres : hexDecode (s ++ [0]) dest dest.length = res at houtcome
  cases houtcome with
  | overflow hfull => exact absurd hfull hkeeps
  | invalid out hfull hhex =>
      have hzero : ∀ out', hexDecode (s ++ [0]) dest dest.length ≠ .ok (0, out') := by
        simp [hres, EINVAL]
      refine ⟨⟨_, hres⟩, iff_of_false ?_ fun h => hhex h.1, fun _ _ => ⟨out, hres⟩,
        fun h => absurd h hhex, fun out' h => absurd h (hzero out')⟩
      rintro ⟨out', h⟩
      exact hzero out' h
  | noMemory out hfull hless =>
      have hzero : ∀ out', hexDecode (s ++ [0]) dest dest.length ≠ .ok (0, out') := by
        simp [hres, ENOMEM]
      refine ⟨⟨_, hres⟩, iff_of_false ?_ fun h => absurd h.2 (Nat.not_le.mpr hless),
        fun _ h => absurd h (Nat.not_le.mpr hless), fun _ _ => ⟨out, hres⟩,
        fun out' h => absurd h (hzero out')⟩
      rintro ⟨out', h⟩
      exact hzero out' h
  | decoded hfull hhex hfits =>
      refine ⟨⟨_, hres⟩, iff_of_true ⟨_, hres⟩ ⟨hhex, hfits⟩, fun h => absurd hhex h,
        fun _ h => absurd hfits (Nat.not_le.mpr h), fun out hout room hroom => ?_⟩
      obtain ⟨-, rfl⟩ := Prod.mk.inj (Except.ok.inj (hres.symm.trans hout))
      have hlen := length_hexBytes s
      have heven : 2 * (s.length / 2) = s.length := by
        have hmod := hhex.1
        omega
      have hroom' : 2 * (hexBytes s).length + 1 ≤ room.length := by omega
      have hencode := hexEncode_eq hroom'
      rw [hlen, heven, hexText_hexBytes hhex] at hencode
      rw [List.nil_append, List.take_left' hlen]
      exact hencode

/-- `hex_decode` keeps its promise exactly if its counter keeps its type, and reads what
`hex_encode` writes exactly for fewer than 2^31 bytes. -/
theorem hexDecode_decodes_iff (s dest m : List UInt8) (hs : 0 ∉ s) :
    (Decodes s dest ↔ ¬ CounterOverflows s dest.length) ∧
      (RoundTrips m ↔ m.length < 2 ^ 31) := by
  constructor
  · constructor
    · intro hdecodes hoverflows
      exact (hexDecode_outcome hs [] dest).not_full hdecodes.returns (full_iff.mpr hoverflows)
    · exact decodes_of_keeps hs
  · have hhex := isHex_hexText m
    have hlen := length_hexText m
    have hfront : m.length ≤ hexFront (hexText m) :=
      le_hexFront_iff.mpr ⟨hlen.ge, fun c hc => hhex.2 c (List.mem_of_mem_take hc)⟩
    constructor
    · intro htrips
      by_contra hlong
      obtain ⟨text, hencode, hdecode⟩ := htrips (List.replicate (2 * m.length + 1) 0) m
        (by rw [List.length_replicate]) (Nat.le_refl _)
      rw [hexEncode_eq (by rw [List.length_replicate])] at hencode
      cases hencode
      have houtcome := hexDecode_outcome hhex.zero_notMem
        ((List.replicate (2 * m.length + 1) 0).drop (2 * m.length + 1)) m
      refine houtcome.not_full ⟨_, hdecode⟩ ?_
      rw [Full, List.length_nil]
      omega
    · intro hshort room dest hroom hdest
      refine ⟨_, hexEncode_eq hroom, ?_⟩
      have houtcome := hexDecode_outcome hhex.zero_notMem (room.drop (2 * m.length + 1)) dest
      have hkeeps : ¬ Full [] dest (hexText m) := by
        intro hfull
        obtain ⟨-, hlong, -⟩ := full_iff.mp hfull
        rw [hlen] at hlong
        omega
      have hhalf : (hexText m).length / 2 = m.length := by
        rw [hlen]
        omega
      generalize hexDecode (hexText m ++ 0 :: room.drop (2 * m.length + 1)) dest dest.length = res
        at houtcome
      cases houtcome with
      | overflow hfull => exact absurd hfull hkeeps
      | invalid out hfull hbad => exact absurd hhex hbad
      | noMemory out hfull hless => exact absurd hless (by omega)
      | decoded hfull hgood hfits =>
          rw [hhalf, hexBytes_hexText, List.nil_append]

/-- Two bytes, and their digits in the other case. -/
theorem hexDecode_decodes_iff_twoBytes :
    (Decodes (ascii "abff") [0, 0] ↔ ¬ CounterOverflows (ascii "abff") 2) ∧
      (RoundTrips [0xab, 0xff] ↔ [0xab, 0xff].length < 2 ^ 31) :=
  hexDecode_decodes_iff (ascii "abff") [0, 0] [0xab, 0xff] (by decide)

/-- The digits of 2^31 bytes. -/
theorem hexDecode_overflows :
    ¬ ((∀ s dest : List UInt8, 0 ∉ s → Decodes s dest) ∧ ∀ m : List UInt8, RoundTrips m) := by
  rintro ⟨hall, -⟩
  obtain ⟨n, hn⟩ : ∃ n, n = 2 ^ 31 := ⟨_, rfl⟩
  have hhex := isHex_hexText (List.replicate n 0)
  have hreturns := (hall _ (List.replicate n 0) hhex.zero_notMem).returns
  have houtcome := hexDecode_outcome hhex.zero_notMem [] (List.replicate n 0)
  refine houtcome.not_full hreturns ?_
  rw [full_iff, CounterOverflows, length_hexText, List.length_replicate]
  exact ⟨hn.ge, by omega, fun c hc => hhex.2 c (List.mem_of_mem_take hc)⟩

end Hlibc.Hex
