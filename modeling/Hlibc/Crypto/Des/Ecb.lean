import Mathlib.Tactic.IntervalCases
import Hlibc.Bit
import Hlibc.Crypto.Des.Cipher

/-!
# DES in ECB mode

Full blocks go through the little-endian loader in both directions.  The last
block is packed by `get_padded`, most significant byte first, and unpacked by
`put_padded`, least significant byte first and one byte further up.  The bytes
both functions move are read off the bytes of the word between them.
-/

set_option autoImplicit false

namespace Hlibc.Des

/-! ## The functions of the source -/

/-- The switch of `put_padded` from `case k` on: `case k + 1` writes `out[k]`
and falls through to `case k`. -/
def putPaddedFrom (value : BitVec 64) (out : ℕ) :
    ℕ → List UInt8 → Exec (List UInt8)
  | 0, dest => .ok dest
  | k + 1, dest => do
      let dest ← writeByte dest (out + k) (wordByte value (k + 1))
      putPaddedFrom value out k dest

def putPadded (value : BitVec 64) (size : ℕ) (dest : List UInt8) (out : ℕ) :
    Exec (List UInt8) :=
  putPaddedFrom value out (size % 8) dest

/-- The byte at `pos`, moved to `shift`. -/
def shiftedByte (src : List UInt8) (pos shift : ℕ) : Exec (BitVec 64) := do
  let b ← readByte src pos
  .ok (b.toBitVec.setWidth 64 <<< shift)

def getPadded (src : List UInt8) (pos size : ℕ) : Exec (BitVec 64) :=
  match size % 8 with
  | 0 => .ok 0x0808080808080808
  | 1 => do
      let b0 ← shiftedByte src pos 56
      .ok (b0 ||| 0x07070707070707)
  | 2 => do
      let b0 ← shiftedByte src pos 56
      let b1 ← shiftedByte src (pos + 1) 48
      .ok (b0 ||| b1 ||| 0x060606060606)
  | 3 => do
      let b0 ← shiftedByte src pos 56
      let b1 ← shiftedByte src (pos + 1) 48
      let b2 ← shiftedByte src (pos + 2) 40
      .ok (b0 ||| b1 ||| b2 ||| 0x0505050505)
  | 4 => do
      let b0 ← shiftedByte src pos 56
      let b1 ← shiftedByte src (pos + 1) 48
      let b2 ← shiftedByte src (pos + 2) 40
      let b3 ← shiftedByte src (pos + 3) 32
      .ok (b0 ||| b1 ||| b2 ||| b3 ||| 0x04040404)
  | 5 => do
      let b0 ← shiftedByte src pos 56
      let b1 ← shiftedByte src (pos + 1) 48
      let b2 ← shiftedByte src (pos + 2) 40
      let b3 ← shiftedByte src (pos + 3) 32
      let b4 ← shiftedByte src (pos + 4) 24
      .ok (b0 ||| b1 ||| b2 ||| b3 ||| b4 ||| 0x030303)
  | 6 => do
      let b0 ← shiftedByte src pos 56
      let b1 ← shiftedByte src (pos + 1) 48
      let b2 ← shiftedByte src (pos + 2) 40
      let b3 ← shiftedByte src (pos + 3) 32
      let b4 ← shiftedByte src (pos + 4) 24
      let b5 ← shiftedByte src (pos + 5) 16
      .ok (b0 ||| b1 ||| b2 ||| b3 ||| b4 ||| b5 ||| 0x0202)
  | 7 => do
      let b0 ← shiftedByte src pos 56
      let b1 ← shiftedByte src (pos + 1) 48
      let b2 ← shiftedByte src (pos + 2) 40
      let b3 ← shiftedByte src (pos + 3) 32
      let b4 ← shiftedByte src (pos + 4) 24
      let b5 ← shiftedByte src (pos + 5) 16
      let b6 ← shiftedByte src (pos + 6) 8
      .ok (b0 ||| b1 ||| b2 ||| b3 ||| b4 ||| b5 ||| b6 ||| 0x01)
  | _ => .ok 0

/-- The pointers of the block loops, counted in blocks, and the destination. -/
structure EcbState where
  pos : ℕ
  out : ℕ
  dest : List UInt8

/-- One pass of the block loop of `des_ecb_encrypt` and `des_ecb_decrypt`, which
differ in the cipher they call. -/
def ecbPass (cipher : BitVec 64 → BitVec 64) (src : List UInt8) (last : ℕ)
    (st : EcbState) : Exec (Pass EcbState EcbState) :=
  if st.pos < last then do
    let block ← getUnalignedLe64 src (8 * st.pos)
    let dest ← putUnalignedLe64 (cipher block) st.dest (8 * st.out)
    .ok (.next { pos := st.pos + 1, out := st.out + 1, dest := dest })
  else .ok (.done st)

def desEcbEncrypt (ctx : DesContext) (src : List UInt8) (size : ℕ)
    (dest : List UInt8) : Exec (List UInt8) := do
  let st ← loop (ecbPass (desEncrypt ctx) src (size / 8)) (size / 8 + 1)
    { pos := 0, out := 0, dest := dest }
  let block ← getPadded src (8 * st.pos) size
  putUnalignedLe64 (desEncrypt ctx block) st.dest (8 * st.out)

def desEcbDecrypt (ctx : DesContext) (src : List UInt8) (size : ℕ)
    (dest : List UInt8) : Exec (List UInt8) := do
  let st ← loop (ecbPass (desDecrypt ctx) src (size / 8)) (size / 8 + 1)
    { pos := 0, out := 0, dest := dest }
  let block ← getUnalignedLe64 src (8 * st.pos)
  putPadded (desDecrypt ctx block) size st.dest (8 * st.out)

/-! ## Full blocks -/

/-- Block `i` of a message. -/
def blockAt (src : List UInt8) (i : ℕ) : BitVec 64 :=
  leWord 64 ((src.drop (8 * i)).take 8)

/-- The bytes of the first `n` blocks after a cipher. -/
def cipherBlocks (cipher : BitVec 64 → BitVec 64) (src : List UInt8) (n : ℕ) :
    List UInt8 :=
  (List.range n).flatMap fun i => leBytes 8 (cipher (blockAt src i))

theorem cipherBlocks_succ (cipher : BitVec 64 → BitVec 64) (src : List UInt8)
    (n : ℕ) :
    cipherBlocks cipher src (n + 1) =
      cipherBlocks cipher src n ++ leBytes 8 (cipher (blockAt src n)) := by
  simp [cipherBlocks, List.range_succ]

theorem length_cipherBlocks (cipher : BitVec 64 → BitVec 64) (src : List UInt8)
    (n : ℕ) : (cipherBlocks cipher src n).length = 8 * n := by
  induction n with
  | zero => rfl
  | succ n ih =>
      rw [cipherBlocks_succ, List.length_append, ih, length_leBytes]
      omega

/-- The block loop replaces the first blocks of the destination and leaves both
pointers behind them. -/
theorem ecb_loop {cipher : BitVec 64 → BitVec 64} {src dest : List UInt8}
    {n : ℕ} (hsrc : 8 * n ≤ src.length) (hdest : 8 * n ≤ dest.length) :
    loop (ecbPass cipher src n) (n + 1) { pos := 0, out := 0, dest := dest } =
      .ok { pos := n, out := n,
            dest := cipherBlocks cipher src n ++ dest.drop (8 * n) } := by
  let I : EcbState → Prop := fun st =>
    st.pos ≤ n ∧ st.out = st.pos ∧
      st.dest = cipherBlocks cipher src st.pos ++ dest.drop (8 * st.pos)
  let Q : EcbState → Prop := fun st =>
    st = { pos := n, out := n,
           dest := cipherBlocks cipher src n ++ dest.drop (8 * n) }
  have hpass : ∀ st, I st →
      (∃ r, ecbPass cipher src n st = .ok (.done r) ∧ Q r) ∨
        ∃ st', ecbPass cipher src n st = .ok (.next st') ∧ I st' ∧
          n - st'.pos < n - st.pos := by
    rintro ⟨pos, out, cur⟩ ⟨hpos, hout, hcur⟩
    simp only at hpos hout hcur
    subst hout hcur
    by_cases hlt : out < n
    · right
      refine ⟨⟨out + 1, out + 1, cipherBlocks cipher src (out + 1) ++
        dest.drop (8 * (out + 1))⟩, ?_, ⟨hlt, rfl, rfl⟩, by simp only; omega⟩
      have hroom : (leBytes 8 (cipher (blockAt src out))).length ≤
          (dest.drop (8 * out)).length := by
        simp only [length_leBytes, List.length_drop]
        omega
      have hread : getUnalignedLe64 src (8 * out) = .ok (blockAt src out) :=
        getUnalignedLe64_of_le (by omega)
      have hdrop : 8 * out + 8 = 8 * (out + 1) := by omega
      simp only [ecbPass, if_pos hlt, hread, Exec.ok_bind, putUnalignedLe64]
      rw [writeBytes_append (length_cipherBlocks cipher src out).symm hroom,
        cipherBlocks_succ, length_leBytes, List.drop_drop, hdrop, Exec.ok_bind]
    · left
      obtain rfl : out = n := by omega
      exact ⟨_, by rw [ecbPass, if_neg hlt], rfl⟩
  obtain ⟨r, hr, hQ⟩ := loop_total (fun st : EcbState => n - st.pos) hpass (n + 1)
    { pos := 0, out := 0, dest := dest }
    ⟨Nat.zero_le n, rfl, by simp [cipherBlocks]⟩ (by simp only; omega)
  rw [hr, hQ]

/-- The blocks of a ciphertext are the encrypted blocks of the message. -/
theorem blockAt_cipherBlocks {cipher : BitVec 64 → BitVec 64}
    {src rest : List UInt8} {n i : ℕ} (hi : i < n) :
    blockAt (cipherBlocks cipher src n ++ rest) i = cipher (blockAt src i) := by
  induction n generalizing rest with
  | zero => exact absurd hi (Nat.not_lt_zero i)
  | succ n ih =>
      rw [cipherBlocks_succ, List.append_assoc]
      by_cases hin : i = n
      · subst hin
        have hlen := length_cipherBlocks cipher src i
        have hlen8 : (leBytes 8 (cipher (blockAt src i))).length = 8 :=
          length_leBytes 8 _
        rw [blockAt, List.drop_left' hlen, List.take_left' hlen8]
        exact leWord_leBytes (by norm_num) _
      · exact ih (by omega)

/-- Decrypting the blocks of a ciphertext gives the bytes of the message. -/
theorem cipherBlocks_decrypt (ctx : DesContext) {m rest : List UInt8} {n : ℕ}
    (hm : 8 * n ≤ m.length) :
    cipherBlocks (desDecrypt ctx)
      (cipherBlocks (desEncrypt ctx) m n ++ rest) n = m.take (8 * n) := by
  have hblock : ∀ i < n, leBytes 8 (desDecrypt ctx
      (blockAt (cipherBlocks (desEncrypt ctx) m n ++ rest) i)) =
        (m.drop (8 * i)).take 8 := by
    intro i hi
    rw [blockAt_cipherBlocks hi, desDecrypt_desEncrypt]
    apply leBytes_leWord (by norm_num)
    simp only [List.length_take, List.length_drop]
    omega
  have hbegins : ∀ k ≤ n, ((List.range k).flatMap fun i => leBytes 8
      (desDecrypt ctx (blockAt (cipherBlocks (desEncrypt ctx) m n ++ rest) i))) =
        m.take (8 * k) := by
    intro k
    induction k with
    | zero => simp
    | succ k ih =>
        intro hk
        rw [List.range_succ, List.flatMap_append, ih (by omega)]
        simp only [List.flatMap_cons, List.flatMap_nil, List.append_nil]
        rw [hblock k (by omega), Nat.mul_succ, List.take_add]
  exact hbegins n (Nat.le_refl n)

/-! ## The last block -/

/-- Byte `j` of a word that holds `tail` from its most significant byte down,
padded below with the number of missing bytes. -/
def paddedByte (tail : List UInt8) (j : ℕ) : UInt8 :=
  if j < 8 - tail.length then UInt8.ofNat (8 - tail.length)
  else tail.getD (7 - j) 0

/-- The word that has `b` at byte `j` and zeros elsewhere. -/
def placeByte (b : UInt8) (j : ℕ) : BitVec 64 :=
  b.toBitVec.setWidth 64 <<< (8 * j)

theorem wordByte_placeByte (b : UInt8) {j : ℕ} (hj : j < 8) (k : ℕ) :
    wordByte (placeByte b j) k = if k = j then b else 0 :=
  wordByte_shift b (by omega)

theorem shiftedByte_append {pre tail : List UInt8} {k j : ℕ}
    (hk : k < tail.length) :
    shiftedByte (pre ++ tail) (pre.length + k) (8 * j) =
      .ok (placeByte (tail.getD k 0) j) := by
  have hget : (pre ++ tail)[pre.length + k]? = some (tail.getD k 0) := by
    rw [List.getElem?_append_right (Nat.le_add_right _ _), Nat.add_sub_cancel_left,
      List.getD_eq_getElem _ _ hk, List.getElem?_eq_getElem hk]
  rw [shiftedByte, readByte_eq_ok.mpr hget, Exec.ok_bind, placeByte]

/-- The padding constants of the switch, byte by byte. -/
theorem wordByte_padding : ∀ j < 8,
    wordByte (0x0808080808080808 : BitVec 64) j = 8 ∧
      wordByte (0x07070707070707 : BitVec 64) j = (if j < 7 then 7 else 0) ∧
      wordByte (0x060606060606 : BitVec 64) j = (if j < 6 then 6 else 0) ∧
      wordByte (0x0505050505 : BitVec 64) j = (if j < 5 then 5 else 0) ∧
      wordByte (0x04040404 : BitVec 64) j = (if j < 4 then 4 else 0) ∧
      wordByte (0x030303 : BitVec 64) j = (if j < 3 then 3 else 0) ∧
      wordByte (0x0202 : BitVec 64) j = (if j < 2 then 2 else 0) ∧
      wordByte (0x01 : BitVec 64) j = (if j < 1 then 1 else 0) := by
  decide

/-- `get_padded` packs the last bytes from the most significant byte down. -/
theorem getPadded_append (pre tail : List UInt8) (hpre : pre.length % 8 = 0)
    (htail : tail.length < 8) :
    ∃ v, getPadded (pre ++ tail) pre.length (pre ++ tail).length = .ok v ∧
      ∀ j < 8, wordByte v j = paddedByte tail j := by
  have hsize : (pre ++ tail).length % 8 = tail.length := by
    rw [List.length_append]
    omega
  have h0 : 0 < tail.length → shiftedByte (pre ++ tail) pre.length 56 =
      .ok (placeByte (tail.getD 0 0) 7) := shiftedByte_append (j := 7)
  have h1 : 1 < tail.length → shiftedByte (pre ++ tail) (pre.length + 1) 48 =
      .ok (placeByte (tail.getD 1 0) 6) := shiftedByte_append (j := 6)
  have h2 : 2 < tail.length → shiftedByte (pre ++ tail) (pre.length + 2) 40 =
      .ok (placeByte (tail.getD 2 0) 5) := shiftedByte_append (j := 5)
  have h3 : 3 < tail.length → shiftedByte (pre ++ tail) (pre.length + 3) 32 =
      .ok (placeByte (tail.getD 3 0) 4) := shiftedByte_append (j := 4)
  have h4 : 4 < tail.length → shiftedByte (pre ++ tail) (pre.length + 4) 24 =
      .ok (placeByte (tail.getD 4 0) 3) := shiftedByte_append (j := 3)
  have h5 : 5 < tail.length → shiftedByte (pre ++ tail) (pre.length + 5) 16 =
      .ok (placeByte (tail.getD 5 0) 2) := shiftedByte_append (j := 2)
  have h6 : 6 < tail.length → shiftedByte (pre ++ tail) (pre.length + 6) 8 =
      .ok (placeByte (tail.getD 6 0) 1) := shiftedByte_append (j := 1)
  rw [getPadded, hsize]
  interval_cases hlen : tail.length
  · refine ⟨_, rfl, fun j hj => ?_⟩
    rw [(wordByte_padding j hj).1, paddedByte, hlen]
    simp [hj]
  all_goals
    simp only [Nat.reduceLT, forall_const] at h0 h1 h2 h3 h4 h5 h6
    simp only [h0, h1, h2, h3, h4, h5, h6, Exec.ok_bind]
    refine ⟨_, rfl, fun j hj => ?_⟩
    simp only [wordByte_or, (wordByte_padding j hj).2]
    rw [paddedByte, hlen]
    interval_cases j <;> simp [wordByte_placeByte]

/-- `put_padded` writes the bytes of its word from byte 1 on, upwards. -/
theorem putPaddedFrom_append (value : BitVec 64) {done rest : List UInt8}
    {out k : ℕ} (hout : out = done.length) (hk : k ≤ rest.length) :
    putPaddedFrom value out k (done ++ rest) =
      .ok (done ++ (List.range k).map (fun i => wordByte value (i + 1)) ++
        rest.drop k) := by
  subst hout
  induction k generalizing rest with
  | zero => simp [putPaddedFrom]
  | succ k ih =>
      have hwrite : writeByte (done ++ rest) (done.length + k)
          (wordByte value (k + 1)) =
            .ok (done ++ rest.set k (wordByte value (k + 1))) := by
        rw [writeByte, writeBytes_of_le
          (by simp only [List.length_append, List.length_singleton]; omega)]
        rw [List.take_length_add_append, List.length_singleton, Nat.add_assoc,
          List.drop_length_add_append, List.append_assoc, List.append_assoc,
          List.singleton_append, List.set_eq_take_append_cons_drop,
          if_pos (by omega)]
      have hdrop : (rest.set k (wordByte value (k + 1))).drop k =
          wordByte value (k + 1) :: rest.drop (k + 1) := by
        rw [List.drop_set, if_neg (by omega), Nat.sub_self,
          List.drop_eq_getElem_cons (by omega), List.set_cons_zero]
      rw [putPaddedFrom, hwrite, Exec.ok_bind, ih (by simpa using by omega), hdrop,
        List.range_succ]
      simp

/-! ## The round trip -/

/-- The bytes of a message behind its last full block. -/
def lastBytes (m : List UInt8) : List UInt8 := m.drop (8 * (m.length / 8))

/-- `des_ecb_decrypt` writes the message back from what `des_ecb_encrypt` wrote,
into any destination large enough. -/
def EcbRoundTrip (ctx : DesContext) (m : List UInt8) : Prop :=
  ∀ c₀ out₀ : List UInt8, 8 * (m.length / 8 + 1) ≤ c₀.length →
    m.length ≤ out₀.length →
      ∃ c out, desEcbEncrypt ctx m m.length c₀ = .ok c ∧
        desEcbDecrypt ctx c m.length out₀ = .ok out ∧
        out = m ++ out₀.drop m.length

/-- The last bytes read the same when the padding is put below them and the
whole is read from the other end, one byte off. -/
def TailReadsBack (m : List UInt8) : Prop :=
  ∀ k < (lastBytes m).length,
    (lastBytes m).getD k 0 = paddedByte (lastBytes m) (k + 1)

theorem length_lastBytes (m : List UInt8) :
    (lastBytes m).length = m.length % 8 := by
  rw [lastBytes, List.length_drop]
  omega

/-- What `des_ecb_encrypt` writes: the encrypted full blocks, and the encrypted word that
`get_padded` packs. -/
theorem desEcbEncrypt_result (ctx : DesContext) (m c₀ : List UInt8)
    (hc₀ : 8 * (m.length / 8 + 1) ≤ c₀.length) :
    ∃ v : BitVec 64, (∀ j < 8, wordByte v j = paddedByte (lastBytes m) j) ∧
      desEcbEncrypt ctx m m.length c₀ =
        .ok (cipherBlocks (desEncrypt ctx) m (m.length / 8) ++
          (leBytes 8 (desEncrypt ctx v) ++ c₀.drop (8 * (m.length / 8) + 8))) := by
  set n := m.length / 8 with hn
  have hm : m.take (8 * n) ++ lastBytes m = m := List.take_append_drop _ m
  have hpre : (m.take (8 * n)).length = 8 * n := by
    rw [List.length_take]
    omega
  obtain ⟨v, hv, hbytes⟩ := getPadded_append (m.take (8 * n)) (lastBytes m)
    (by omega) (by rw [length_lastBytes]; omega)
  rw [hm, hpre] at hv
  refine ⟨v, hbytes, ?_⟩
  rw [desEcbEncrypt, ← hn, ecb_loop (by omega) (by omega), Exec.ok_bind]
  simp only [hv, Exec.ok_bind, putUnalignedLe64]
  rw [writeBytes_append (length_cipherBlocks _ m n).symm
    (by simp only [length_leBytes, List.length_drop]; omega)]
  simp [length_leBytes, List.drop_drop]

/-- What `des_ecb_decrypt` makes of the output of `des_ecb_encrypt`: the full
blocks of the message, and then bytes 1 and up of the padded last block. -/
theorem desEcb_result (ctx : DesContext) (m c₀ out₀ : List UInt8)
    (hc₀ : 8 * (m.length / 8 + 1) ≤ c₀.length) (hout₀ : m.length ≤ out₀.length) :
    ∃ c, desEcbEncrypt ctx m m.length c₀ = .ok c ∧
      desEcbDecrypt ctx c m.length out₀ =
        .ok (m.take (8 * (m.length / 8)) ++
          (List.range (m.length % 8)).map
            (fun i => paddedByte (lastBytes m) (i + 1)) ++
          out₀.drop m.length) := by
  obtain ⟨v, hbytes, henc⟩ := desEcbEncrypt_result ctx m c₀ hc₀
  refine ⟨_, henc, ?_⟩
  set n := m.length / 8 with hn
  set body := cipherBlocks (desEncrypt ctx) m n with hbody
  have hbodylen : body.length = 8 * n := length_cipherBlocks _ m n
  set final := leBytes 8 (desEncrypt ctx v) with hfinal
  have hfinallen : final.length = 8 := length_leBytes 8 _
  have hpre : (m.take (8 * n)).length = 8 * n := by
    rw [List.length_take]
    omega
  have hlast : getUnalignedLe64 (body ++ (final ++ c₀.drop (8 * n + 8))) (8 * n) =
      .ok (desEncrypt ctx v) := by
    rw [getUnalignedLe64_of_le (by simp only [List.length_append]; omega),
      List.drop_left' hbodylen, List.take_left' hfinallen]
    exact congrArg Except.ok (leWord_leBytes (by norm_num) _)
  have hplain : (cipherBlocks (desDecrypt ctx)
      (body ++ (final ++ c₀.drop (8 * n + 8))) n) = m.take (8 * n) :=
    cipherBlocks_decrypt ctx (by omega)
  have hsum : 8 * n + m.length % 8 = m.length := by omega
  rw [desEcbDecrypt, ← hn, ecb_loop (by simp only [List.length_append]; omega)
    (by omega), Exec.ok_bind]
  simp only [hlast, Exec.ok_bind, hplain, desDecrypt_desEncrypt, putPadded]
  rw [putPaddedFrom_append v hpre.symm (by simp only [List.length_drop]; omega),
    List.drop_drop, hsum]
  congr 3
  apply List.map_congr_left
  intro i hi
  have hi' := List.mem_range.mp hi
  exact hbytes (i + 1) (by omega)

/-- The round trip holds of exactly the messages whose last bytes read back. -/
theorem ecbRoundTrip_iff (ctx : DesContext) (m : List UInt8) :
    EcbRoundTrip ctx m ↔ TailReadsBack m := by
  have hm : m.take (8 * (m.length / 8)) ++ lastBytes m = m :=
    List.take_append_drop _ m
  have hlen := length_lastBytes m
  have hmap : (List.range (m.length % 8)).map
      (fun i => paddedByte (lastBytes m) (i + 1)) = lastBytes m ↔
        TailReadsBack m := by
    constructor
    · intro h k hk
      have hk' : k < m.length % 8 := by omega
      conv_lhs => rw [← h]
      simp [hk']
    · intro h
      apply List.ext_getElem
      · simp [hlen]
      · intro k hk hk'
        simp only [List.getElem_map, List.getElem_range]
        rw [← h k hk', List.getD_eq_getElem _ _ hk']
  constructor
  · intro h
    obtain ⟨c, out, henc, hdec, hout⟩ := h
      (List.replicate (8 * (m.length / 8 + 1)) 0) (List.replicate m.length 0)
      (by simp) (by simp)
    obtain ⟨c', henc', hdec'⟩ := desEcb_result ctx m
      (List.replicate (8 * (m.length / 8 + 1)) 0) (List.replicate m.length 0)
      (by simp) (by simp)
    obtain rfl := Except.ok.inj (henc.symm.trans henc')
    have heq := Except.ok.inj (hdec.symm.trans hdec')
    rw [hout] at heq
    apply hmap.mp
    have hmsg := List.append_cancel_right heq
    conv_lhs at hmsg => rw [← hm]
    exact (List.append_cancel_left hmsg).symm
  · intro h c₀ out₀ hc₀ hout₀
    obtain ⟨c, henc, hdec⟩ := desEcb_result ctx m c₀ out₀ hc₀ hout₀
    refine ⟨c, _, henc, hdec, ?_⟩
    rw [hmap.mpr h, hm]

/-- One byte that is not the value of its own padding does not survive. -/
theorem ecb_oneByte_fails :
    ¬ ∀ (ctx : DesContext) (m : List UInt8), EcbRoundTrip ctx m := by
  intro h
  obtain ⟨c, out, henc, hdec, hout⟩ :=
    h { ks := Vector.replicate 16 0 } [0x61] (List.replicate 8 0) [0]
      (by decide) (by decide)
  have hrun : (desEcbEncrypt { ks := Vector.replicate 16 0 } [0x61] 1
      (List.replicate 8 0) >>= fun c =>
        desEcbDecrypt { ks := Vector.replicate 16 0 } c 1 [0]) = .ok [7] := by
    decide +kernel
  have hlen : [0x61].length = 1 := rfl
  simp only [List.length_singleton] at henc hdec
  rw [henc, Exec.ok_bind, hdec, hout] at hrun
  exact absurd hrun (by decide)

end Hlibc.Des
