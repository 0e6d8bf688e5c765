import Hlibc.Errno
import Hlibc.Support.Memory
import Mathlib.Data.List.DropRight
import Mathlib.Data.List.GetD

/-!
# Base 64

`b64_encode` and `b64_decode` of `string.c`.  Between them stand the sextets:
the encoder writes the characters of the sextets of a message.
-/

set_option autoImplicit false

namespace Hlibc.Base64

/-! ## The functions of the source -/

def b64Charset : List UInt8 :=
  ascii "ABCDEFGHIJKLMNOPQRSTUVWXYZabcdefghijklmnopqrstuvwxyz0123456789+/"

/-- The designated initialisers of `b64_table`; every other entry is -1. -/
def b64Entries : List (Char × ℤ) := [
  ('A', 0), ('B', 1), ('C', 2), ('D', 3), ('E', 4), ('F', 5), ('G', 6), ('H', 7),
  ('I', 8), ('J', 9), ('K', 10), ('L', 11), ('M', 12), ('N', 13), ('O', 14),
  ('P', 15), ('Q', 16), ('R', 17), ('S', 18), ('T', 19), ('U', 20), ('V', 21),
  ('W', 22), ('X', 23), ('Y', 24), ('Z', 25), ('a', 26), ('b', 27), ('c', 28),
  ('d', 29), ('e', 30), ('f', 31), ('g', 32), ('h', 33), ('i', 34), ('j', 35),
  ('k', 36), ('l', 37), ('m', 38), ('n', 39), ('o', 40), ('p', 41), ('q', 42),
  ('r', 43), ('s', 44), ('t', 45), ('u', 46), ('v', 47), ('w', 48), ('x', 49),
  ('y', 50), ('z', 51), ('0', 52), ('1', 53), ('2', 54), ('3', 55), ('4', 56),
  ('5', 57), ('6', 58), ('7', 59), ('8', 60), ('9', 61), ('+', 62), ('/', 63)]

def b64Val (c : UInt8) : ℤ :=
  match b64Entries.find? fun entry => chr entry.1 == c with
  | some entry => entry.2
  | none => -1

/-- The input offset and the characters written so far by `b64_encode`. -/
structure EncodeState where
  inp : ℕ
  dest : List UInt8

/-- One pass of the loop of `b64_encode`. -/
def encodePass (src : List UInt8) (n : ℕ) (st : EncodeState) :
    Exec (Pass EncodeState EncodeState) :=
  if (st.inp : ℤ) ≤ (n : ℤ) - 3 then do
    let x ← readByte src st.inp
    let y ← readByte src (st.inp + 1)
    let z ← readByte src (st.inp + 2)
    let c0 ← readByte b64Charset (x.toNat >>> 2)
    let c1 ← readByte b64Charset ((x.toNat &&& 0x3) <<< 4 ||| y.toNat >>> 4)
    let c2 ← readByte b64Charset ((y.toNat &&& 0xF) <<< 2 ||| z.toNat >>> 6)
    let c3 ← readByte b64Charset (z.toNat &&& 0x3F)
    .ok (.next { inp := st.inp + 3, dest := st.dest ++ [c0, c1, c2, c3] })
  else .ok (.done st)

/-- The switch of `b64_encode`, and the terminator. -/
def encodeTail (src : List UInt8) (n : ℕ) (st : EncodeState) :
    Exec (List UInt8) :=
  match n % 3 with
  | 1 => do
      let x ← readByte src st.inp
      let c0 ← readByte b64Charset (x.toNat >>> 2)
      let c1 ← readByte b64Charset ((x.toNat &&& 0x3) <<< 4)
      .ok (st.dest ++ [c0, c1, chr '=', chr '='] ++ [0])
  | 2 => do
      let x ← readByte src st.inp
      let y ← readByte src (st.inp + 1)
      let c0 ← readByte b64Charset (x.toNat >>> 2)
      let c1 ← readByte b64Charset ((x.toNat &&& 0x3) <<< 4 ||| y.toNat >>> 4)
      let c2 ← readByte b64Charset ((y.toNat &&& 0xF) <<< 2)
      .ok (st.dest ++ [c0, c1, c2, chr '='] ++ [0])
  | _ => .ok (st.dest ++ [0])

/-- `b64_encode` of the first `n` bytes: all characters it writes, the
terminator included. -/
def b64Encode (src : List UInt8) (n : ℕ) : Exec (List UInt8) := do
  let st ← loop (encodePass src n) (n + 1) { inp := 0, dest := [] }
  encodeTail src n st

/-- The variables of `b64_decode`; the destination object has `size` bytes, of
which `out` are written. -/
structure DecodeState where
  i : ℕ
  a : ℤ
  b : ℤ
  c : ℤ
  d : ℤ
  out : ℕ
  dest : List UInt8

/-- The loop of `b64_decode` returns `ENOMEM`, or ends at a character outside
the alphabet. -/
inductive DecodeExit where
  | noMemory (dest : List UInt8)
  | stopped (st : DecodeState)

/-- `a << 2 | b >> 4`, as the byte it is stored as. -/
def firstByte (a b : ℤ) : UInt8 := UInt8.ofNat (a.toNat <<< 2 ||| b.toNat >>> 4)

/-- `b << 4 | c >> 2`, as the byte it is stored as. -/
def secondByte (b c : ℤ) : UInt8 := UInt8.ofNat (b.toNat <<< 4 ||| c.toNat >>> 2)

/-- `c << 6 | d >> 0`, as the byte it is stored as. -/
def thirdByte (c d : ℤ) : UInt8 := UInt8.ofNat (c.toNat <<< 6 ||| d.toNat >>> 0)

/-- `b64_val(src[i++])`, with the new value of `i`. -/
def nextVal (src : List UInt8) (i : ℕ) : Exec (ℤ × ℕ) := do
  let ch ← readByte src i
  let i ← incInt i
  .ok (b64Val ch, i)

/-- One pass of the loop of `b64_decode`. -/
def decodePass (src : List UInt8) (size : ℕ) (st : DecodeState) :
    Exec (Pass DecodeState DecodeExit) := do
  let (a, i) ← nextVal src st.i
  if a < 0 then .ok (.done (.stopped { st with i := i, a := a })) else
  let (b, i) ← nextVal src i
  if b < 0 then .ok (.done (.stopped { st with i := i, a := a, b := b })) else
  let (c, i) ← nextVal src i
  if c < 0 then
    .ok (.done (.stopped { st with i := i, a := a, b := b, c := c })) else
  let (d, i) ← nextVal src i
  if d < 0 then
    .ok (.done (.stopped { st with i := i, a := a, b := b, c := c, d := d })) else
  if size ≤ st.out + 2 then .ok (.done (.noMemory st.dest)) else
  let dest ← writeBytes st.dest st.out [firstByte a b, secondByte b c, thirdByte c d]
  .ok (.next { i := i, a := a, b := b, c := c, d := d, out := st.out + 3, dest := dest })

/-- The character at `off` is not `c`. -/
def differs (src : List UInt8) (off : ℕ) (c : UInt8) : Exec Bool := do
  let b ← readByte src off
  .ok (b != c)

/-- The switch of `b64_decode`, on the last group `base` of the source. -/
def decodeTail (src : List UInt8) (size : ℕ) (st : DecodeState) :
    Exec (ℤ × List UInt8) := do
  let i := st.i - 1
  let base := i - i % 4
  match i % 4 with
  | 0 =>
      let more ← differs src base 0
      .ok (if more then EINVAL else 0, st.dest)
  | 1 => .ok (EINVAL, st.dest)
  | 2 =>
      let bad ← andThen (differs src (base + 2) 0)
        (orElse (differs src (base + 2) (chr '='))
          (orElse (differs src (base + 3) (chr '=')) (differs src (base + 4) 0)))
      if bad then .ok (EINVAL, st.dest) else
      if size ≤ st.out then .ok (ENOMEM, st.dest) else
      let dest ← writeBytes st.dest st.out [firstByte st.a st.b]
      .ok (0, dest)
  | _ =>
      let bad ← andThen (differs src (base + 3) 0)
        (orElse (differs src (base + 3) (chr '=')) (differs src (base + 4) 0))
      if bad then .ok (EINVAL, st.dest) else
      if size ≤ st.out + 1 then .ok (ENOMEM, st.dest) else
      let dest ← writeBytes st.dest st.out [firstByte st.a st.b, secondByte st.b st.c]
      .ok (0, dest)

/-- What `b64_decode` does when its loop is left. -/
def decodeExit (src : List UInt8) (size : ℕ) : DecodeExit → Exec (ℤ × List UInt8)
  | .noMemory dest => .ok (ENOMEM, dest)
  | .stopped st => decodeTail src size st

/-- `b64_decode` into an object of `size` bytes: the value returned and the
bytes of the object afterwards. -/
def b64Decode (src dest : List UInt8) (size : ℕ) : Exec (ℤ × List UInt8) := do
  let exit ← loop (decodePass src size) (src.length + 1)
    { i := 0, a := 0, b := 0, c := 0, d := 0, out := 0, dest := dest }
  decodeExit src size exit

/-! ## Sextets -/

/-- The character of a sextet. -/
def sextetChar (s : ℕ) : UInt8 := b64Charset.getD s 0

/-- The sextets of a message; those of an incomplete last group are filled with
zero bits. -/
def sextetsOf : List UInt8 → List ℕ
  | x :: y :: z :: rest =>
      x.toNat >>> 2 :: ((x.toNat &&& 0x3) <<< 4 ||| y.toNat >>> 4) ::
        ((y.toNat &&& 0xF) <<< 2 ||| z.toNat >>> 6) :: (z.toNat &&& 0x3F) ::
          sextetsOf rest
  | [x, y] =>
      [x.toNat >>> 2, (x.toNat &&& 0x3) <<< 4 ||| y.toNat >>> 4,
        (y.toNat &&& 0xF) <<< 2]
  | [x] => [x.toNat >>> 2, (x.toNat &&& 0x3) <<< 4]
  | [] => []

/-- The padding behind the characters of a message of `n` bytes. -/
def padding (n : ℕ) : List UInt8 :=
  match n % 3 with
  | 1 => [chr '=', chr '=']
  | 2 => [chr '=']
  | _ => []

theorem padding_add_three (n : ℕ) : padding (n + 3) = padding n := by
  rw [padding, padding, Nat.add_mod_right]

theorem readByte_charset {s : ℕ} (hs : s < 64) :
    readByte b64Charset s = .ok (sextetChar s) := by
  have hlen : b64Charset.length = 64 := by decide
  rw [readByte_of_lt (by omega), sextetChar, List.getD_eq_getElem _ _ (by omega)]

theorem b64Val_sextetChar {s : ℕ} (hs : s < 64) : b64Val (sextetChar s) = s := by
  have htable : ∀ s < 64, b64Val (sextetChar s) = s := by decide +kernel
  exact htable s hs

theorem b64Val_zero : b64Val 0 = -1 := by decide

theorem b64Val_equals : b64Val (chr '=') = -1 := by decide

section Bits

variable (x y z : UInt8)

theorem firstSextet_lt : x.toNat >>> 2 < 64 := by
  have hx := x.toNat_lt
  rw [Nat.shiftRight_eq_div_pow]
  omega

theorem lowBits_eq : (x.toNat &&& 0x3) <<< 4 = x.toNat % 4 * 16 := by
  rw [Nat.shiftLeft_eq]
  exact congrArg (· * 16) (Nat.and_two_pow_sub_one_eq_mod x.toNat 2)

theorem midBits_eq : (y.toNat &&& 0xF) <<< 2 = y.toNat % 16 * 4 := by
  rw [Nat.shiftLeft_eq]
  exact congrArg (· * 4) (Nat.and_two_pow_sub_one_eq_mod y.toNat 4)

theorem secondSextet_eq :
    (x.toNat &&& 0x3) <<< 4 ||| y.toNat >>> 4 =
      x.toNat % 4 * 16 + y.toNat / 16 := by
  have hy := y.toNat_lt
  rw [Nat.shiftRight_eq_div_pow, ← Nat.shiftLeft_add_eq_or_of_lt (by omega),
    lowBits_eq]

theorem thirdSextet_eq :
    (y.toNat &&& 0xF) <<< 2 ||| z.toNat >>> 6 =
      y.toNat % 16 * 4 + z.toNat / 64 := by
  have hz := z.toNat_lt
  rw [Nat.shiftRight_eq_div_pow, ← Nat.shiftLeft_add_eq_or_of_lt (by omega),
    midBits_eq]

theorem fourthSextet_eq : z.toNat &&& 0x3F = z.toNat % 64 :=
  Nat.and_two_pow_sub_one_eq_mod z.toNat 6

/-- The first byte of a group comes back from its two sextets. -/
theorem firstByte_eq {x : UInt8} {q : ℕ} (hbits : q / 16 = x.toNat % 4) :
    firstByte (x.toNat >>> 2 : ℕ) q = x := by
  have hor : (x.toNat >>> 2) <<< 2 ||| q >>> 4 = x.toNat := by
    rw [Nat.shiftRight_eq_div_pow q,
      ← Nat.shiftLeft_add_eq_or_of_lt (by omega : q / 2 ^ 4 < 2 ^ 2),
      Nat.shiftLeft_eq, Nat.shiftRight_eq_div_pow]
    omega
  rw [firstByte, Int.toNat_natCast, Int.toNat_natCast, hor, UInt8.ofNat_toNat]

/-- The second byte comes back from the sextets it is spread over. -/
theorem secondByte_eq {y : UInt8} {p q : ℕ} (hhigh : p % 16 = y.toNat / 16)
    (hlow : q / 4 = y.toNat % 16) :
    secondByte p q = y := by
  have hor : p <<< 4 ||| q >>> 2 = p * 16 + y.toNat % 16 := by
    rw [Nat.shiftRight_eq_div_pow q,
      ← Nat.shiftLeft_add_eq_or_of_lt (by omega : q / 2 ^ 2 < 2 ^ 4),
      Nat.shiftLeft_eq]
    omega
  have hy := y.toNat_lt
  rw [secondByte, Int.toNat_natCast, Int.toNat_natCast, hor]
  apply UInt8.toNat_inj.mp
  rw [UInt8.toNat_ofNat']
  omega

/-- The third byte comes back from its two sextets. -/
theorem thirdByte_eq {z : UInt8} {p q : ℕ} (hhigh : p % 4 = z.toNat / 64)
    (hlow : q = z.toNat % 64) : thirdByte p q = z := by
  have hor : p <<< 6 ||| q >>> 0 = p * 64 + z.toNat % 64 := by
    rw [Nat.shiftRight_zero,
      ← Nat.shiftLeft_add_eq_or_of_lt (by omega : q < 2 ^ 6),
      Nat.shiftLeft_eq, ← hlow]
  have hz := z.toNat_lt
  rw [thirdByte, Int.toNat_natCast, Int.toNat_natCast, hor]
  apply UInt8.toNat_inj.mp
  rw [UInt8.toNat_ofNat']
  omega

end Bits

theorem sextetsOf_lt (m : List UInt8) : ∀ s ∈ sextetsOf m, s < 64 := by
  fun_induction sextetsOf m with
  | case1 x y z rest ih =>
      have hy := y.toNat_lt
      have hz := z.toNat_lt
      have hsecond := secondSextet_eq x y
      have hthird := thirdSextet_eq y z
      have hfourth := fourthSextet_eq z
      intro s hs
      rcases List.mem_cons.mp hs with rfl | hs
      · exact firstSextet_lt x
      rcases List.mem_cons.mp hs with rfl | hs
      · omega
      rcases List.mem_cons.mp hs with rfl | hs
      · omega
      rcases List.mem_cons.mp hs with rfl | hs
      · omega
      exact ih s hs
  | case2 x y =>
      have hy := y.toNat_lt
      have hsecond := secondSextet_eq x y
      have hthird := midBits_eq y
      intro s hs
      rcases List.mem_cons.mp hs with rfl | hs
      · exact firstSextet_lt x
      rcases List.mem_cons.mp hs with rfl | hs
      · omega
      obtain rfl := List.mem_singleton.mp hs
      omega
  | case3 x =>
      have hsecond := lowBits_eq x
      intro s hs
      rcases List.mem_cons.mp hs with rfl | hs
      · exact firstSextet_lt x
      obtain rfl := List.mem_singleton.mp hs
      omega
  | case4 => simp

/-! ## The encoder -/

/-- The characters of the sextets of a message. -/
def sextetChars (m : List UInt8) : List UInt8 := (sextetsOf m).map sextetChar

theorem encodePass_group (pre rest written : List UInt8) (x y z : UInt8) :
    encodePass (pre ++ x :: y :: z :: rest) (pre ++ x :: y :: z :: rest).length
        { inp := pre.length, dest := written } =
      .ok (.next { inp := (pre ++ [x, y, z]).length,
                   dest := written ++ sextetChars [x, y, z] }) := by
  have hlt := sextetsOf_lt [x, y, z]
  simp only [sextetsOf, List.forall_mem_cons] at hlt
  obtain ⟨h0, h1, h2, h3, -⟩ := hlt
  have hcond : (pre.length : ℤ) ≤
      ((pre ++ x :: y :: z :: rest).length : ℤ) - 3 := by
    simp only [List.length_append, List.length_cons]
    omega
  have hx : readByte (pre ++ x :: y :: z :: rest) pre.length = .ok x := by
    simpa using readByte_append_add pre (x :: y :: z :: rest) 0
  have hy : readByte (pre ++ x :: y :: z :: rest) (pre.length + 1) = .ok y := by
    simp
  have hz : readByte (pre ++ x :: y :: z :: rest) (pre.length + 2) = .ok z := by
    simp
  simp only [encodePass, if_pos hcond, hx, hy, hz, Exec.ok_bind,
    readByte_charset h0, readByte_charset h1, readByte_charset h2,
    readByte_charset h3]
  simp [sextetChars, sextetsOf]

/-- The loop of the encoder is left when no whole group remains. -/
theorem encodePass_stop {pre suf : List UInt8} (hsuf : suf.length < 3)
    (written : List UInt8) :
    encodePass (pre ++ suf) (pre ++ suf).length
        { inp := pre.length, dest := written } =
      .ok (.done { inp := pre.length, dest := written }) := by
  apply if_neg
  simp only [List.length_append]
  omega

/-- The switch of the encoder handles the incomplete last group. -/
theorem encodeTail_short {pre suf : List UInt8} (hpre : pre.length % 3 = 0)
    (hsuf : suf.length < 3) (written : List UInt8) :
    encodeTail (pre ++ suf) (pre ++ suf).length
        { inp := pre.length, dest := written } =
      .ok (written ++ sextetChars suf ++ padding suf.length ++ [0]) := by
  have hmod : (pre ++ suf).length % 3 = suf.length := by
    rw [List.length_append]
    omega
  have hlt := sextetsOf_lt suf
  have hhere : readByte (pre ++ suf) pre.length = readByte suf 0 :=
    readByte_append_add pre suf 0
  match suf with
  | [] =>
      simp only [encodeTail, hmod, List.length_nil]
      simp [sextetChars, sextetsOf, padding]
  | [x] =>
      simp only [sextetsOf, List.forall_mem_cons] at hlt
      obtain ⟨h0, h1, -⟩ := hlt
      simp only [encodeTail, hmod, List.length_singleton, hhere,
        readByte_cons_zero, Exec.ok_bind, readByte_charset h0, readByte_charset h1]
      simp [sextetChars, sextetsOf, padding]
  | [x, y] =>
      simp only [sextetsOf, List.forall_mem_cons] at hlt
      obtain ⟨h0, h1, h2, -⟩ := hlt
      simp only [encodeTail, hmod, List.length_cons, List.length_nil, hhere,
        readByte_append_add, readByte_cons_zero, readByte_cons_succ, Exec.ok_bind,
        readByte_charset h0, readByte_charset h1, readByte_charset h2]
      simp [sextetChars, sextetsOf, padding]
  | _ :: _ :: _ :: _ => simp only [List.length_cons] at hsuf; omega

/-- From a state that has consumed whole groups, the encoder writes the
characters of the sextets that are left, their padding and the terminator. -/
theorem encode_loop {pre suf written : List UInt8} {budget : ℕ}
    (hpre : pre.length % 3 = 0) (hbudget : suf.length ≤ budget) :
    (loop (encodePass (pre ++ suf) (pre ++ suf).length) (budget + 1)
        { inp := pre.length, dest := written } >>= fun st =>
      encodeTail (pre ++ suf) (pre ++ suf).length st) =
      .ok (written ++ sextetChars suf ++ padding suf.length ++ [0]) := by
  induction suf using sextetsOf.induct generalizing pre written budget with
  | case1 x y z rest ih =>
      obtain ⟨budget, rfl⟩ : ∃ k, budget = k + 1 :=
        ⟨budget - 1, by simp only [List.length_cons] at hbudget; omega⟩
      have hsplit : pre ++ x :: y :: z :: rest = (pre ++ [x, y, z]) ++ rest := by
        simp
      have hmod : (pre ++ [x, y, z]).length % 3 = 0 := by
        simp only [List.length_append, List.length_cons, List.length_nil]
        omega
      have hleft : rest.length ≤ budget := by
        simp only [List.length_cons] at hbudget
        omega
      rw [loop_next (encodePass_group pre rest written x y z), hsplit]
      refine (ih hmod hleft).trans ?_
      have hgroup : padding (x :: y :: z :: rest).length = padding rest.length :=
        padding_add_three rest.length
      rw [hgroup]
      simp [sextetChars, sextetsOf]
  | case2 x y =>
      rw [loop_done (encodePass_stop (by simp) written), Exec.ok_bind]
      exact encodeTail_short hpre (by simp) written
  | case3 x =>
      rw [loop_done (encodePass_stop (by simp) written), Exec.ok_bind]
      exact encodeTail_short hpre (by simp) written
  | case4 =>
      rw [loop_done (encodePass_stop (by simp) written), Exec.ok_bind]
      exact encodeTail_short hpre (by simp) written

/-- `b64_encode` writes the characters of the sextets, the padding and the
terminator. -/
theorem b64Encode_eq (m : List UInt8) :
    b64Encode m m.length = .ok (sextetChars m ++ padding m.length ++ [0]) := by
  rw [b64Encode]
  exact encode_loop (rfl : ([] : List UInt8).length % 3 = 0) (Nat.le_refl m.length)

end Hlibc.Base64
