import Hlibc.Crypto.Md2
import Hlibc.Crypto.MdFinish
import Hlibc.Support.Accumulate
import Mathlib.Data.List.GetD

/-!
# The MD2 digest

The standard pads a message to whole blocks, appends a checksum of all of them,
and runs every block through 18 rounds over 48 bytes.  `md2.c` computes the
checksum along with the state, and leaves the last round after the 16 bytes that
are kept.
-/

set_option autoImplicit false

namespace Hlibc.Md

/-! ## The standard -/

set_option maxRecDepth 4000 in
/-- The permutation that the standard makes of the digits of pi. -/
def md2Pi : List ℕ := [
  41, 46, 67, 201, 162, 216, 124, 1, 61, 54, 84, 161, 236, 240, 6, 19,
  98, 167, 5, 243, 192, 199, 115, 140, 152, 147, 43, 217, 188, 76, 130, 202,
  30, 155, 87, 60, 253, 212, 224, 22, 103, 66, 111, 24, 138, 23, 229, 18,
  190, 78, 196, 214, 218, 158, 222, 73, 160, 251, 245, 142, 187, 47, 238, 122,
  169, 104, 121, 145, 21, 178, 7, 63, 148, 194, 16, 137, 11, 34, 95, 33,
  128, 127, 93, 154, 90, 144, 50, 39, 53, 62, 204, 231, 191, 247, 151, 3,
  255, 25, 48, 179, 72, 165, 181, 209, 215, 94, 146, 42, 172, 86, 170, 198,
  79, 184, 56, 210, 150, 164, 125, 182, 118, 252, 107, 226, 156, 116, 4, 241,
  69, 157, 112, 89, 100, 113, 135, 32, 134, 91, 207, 101, 230, 45, 168, 2,
  27, 96, 37, 173, 174, 176, 185, 246, 28, 70, 97, 105, 52, 64, 126, 15,
  85, 71, 163, 35, 221, 81, 175, 58, 195, 92, 249, 206, 186, 197, 234, 38,
  44, 83, 13, 110, 133, 40, 132, 9, 211, 223, 205, 244, 65, 129, 77, 82,
  106, 220, 55, 200, 108, 193, 171, 250, 36, 225, 123, 8, 12, 189, 177, 74,
  120, 136, 149, 139, 227, 99, 232, 109, 233, 203, 213, 254, 59, 0, 29, 57,
  242, 239, 183, 14, 102, 88, 208, 228, 166, 119, 114, 248, 235, 117, 75, 10,
  49, 68, 80, 180, 143, 237, 31, 26, 219, 153, 141, 51, 159, 17, 131, 20]

/-- The byte that stands at a byte. -/
def substitute (t : UInt8) : UInt8 := UInt8.ofNat (md2Pi.getD t.toNat 0)

/-- `n` bytes of value `n` that make whole blocks of a message. -/
def md2Padding (m : List UInt8) : List UInt8 :=
  List.replicate (16 - m.length % 16) (UInt8.ofNat (16 - m.length % 16))

/-- A block goes into the checksum: `C[j] = C[j] ^ S[M[j] ^ L]` and `L = C[j]`. -/
def checksumBlock : List UInt8 → UInt8 → List UInt8 → List UInt8 × UInt8
  | c :: cs, l, m :: ms =>
      let c' := c ^^^ substitute (m ^^^ l)
      let (rest, l') := checksumBlock cs c' ms
      (c' :: rest, l')
  | _, l, _ => ([], l)

/-- The checksum of the blocks. -/
def checksumBlocks (blocks : List (List UInt8)) : List UInt8 :=
  (blocks.foldl (fun (st : List UInt8 × UInt8) block => checksumBlock st.1 st.2 block)
    (List.replicate 16 0, 0)).1

/-- A pass over the bytes: `t = X[k] = X[k] ^ S[t]`. -/
def substPass (t : UInt8) : List UInt8 → List UInt8 × UInt8
  | [] => ([], t)
  | x :: xs =>
      let t' := x ^^^ substitute t
      let (rest, last) := substPass t' xs
      (t' :: rest, last)

/-- Round `j`: a pass over the 48 bytes, and `t = t + j`. -/
def md2Round (st : List UInt8 × UInt8) (j : ℕ) : List UInt8 × UInt8 :=
  let (x, t) := substPass st.2 st.1
  (x, t + UInt8.ofNat j)

/-- The transformation of the first 16 bytes by a block. -/
def md2Transform (state block : List UInt8) : List UInt8 :=
  ((List.range 18).foldl md2Round
    (state ++ block ++ List.zipWith (· ^^^ ·) block state, 0)).1.take 16

/-- The digest of a message. -/
def md2Standard (m : List UInt8) : List UInt8 :=
  let blocks := blocksOf 16 (m ++ md2Padding m)
  (blocks ++ [checksumBlocks blocks]).foldl md2Transform (List.replicate 16 0)

example : md2Standard (ascii "abc") =
    [0xda, 0x85, 0x3b, 0x0d, 0x3f, 0x88, 0xd9, 0x9b, 0x30, 0x28, 0x3a, 0x69, 0xe6, 0xde, 0xd6,
      0xbb] := by decide +kernel

/-! ## Passes -/

set_option maxRecDepth 4000 in
theorem toList_md2Subst : md2Subst.toList = md2Pi.map UInt8.ofNat := by
  decide +kernel

/-- An array is read like the list it was made of. -/
theorem get_eq_ofNat_getD {n : ℕ} {v : Vector UInt8 n} {l : List ℕ}
    (h : v.toList = l.map UInt8.ofNat) (i : Fin n) : v.get i = UInt8.ofNat (l.getD i 0) := by
  have hlen : l.length = n := by
    rw [← List.length_map (f := UInt8.ofNat), ← h, Vector.length_toList]
  have hi : i.val < v.toList.length := by
    rw [Vector.length_toList]
    exact i.isLt
  have hget : v.get i = v.toList[i.val] := rfl
  rw [hget, List.getElem_of_eq h, List.getElem_map, List.getD_eq_getElem _ _ (by omega)]

theorem md2Subst_eq (t : UInt8) : md2Subst.get t.toFin = substitute t :=
  get_eq_ofNat_getD toList_md2Subst t.toFin

theorem substPass_eq (k : ℕ) (t : UInt8) (xs : List UInt8) :
    substPass t xs = accumulate (fun _ x t => x ^^^ substitute t) k t xs := by
  induction xs generalizing k t with
  | nil => rfl
  | cons x xs ih => rw [substPass, accumulate, ih (k + 1)]

/-- A pass over an array of `md2_update_state` is a pass of the standard. -/
theorem md2Pass_eq {n : ℕ} (v : Vector UInt8 n) (t : UInt8) :
    (md2Pass v t).1.toList = (substPass t v.toList).1 ∧
      (md2Pass v t).2 = (substPass t v.toList).2 := by
  have hpass : md2Pass v t =
      (List.finRange n).foldl (setNext fun _ x t => x ^^^ substitute t) (v, t) := by
    rw [md2Pass]
    congr 1
    funext st i
    simp only [setNext, md2Subst_eq]
  rw [hpass, substPass_eq 0]
  exact foldl_setNext v t

theorem substPass_append (t : UInt8) (xs ys : List UInt8) :
    substPass t (xs ++ ys) =
      ((substPass t xs).1 ++ (substPass (substPass t xs).2 ys).1,
        (substPass (substPass t xs).2 ys).2) := by
  rw [substPass_eq 0, accumulate_append, ← substPass_eq, ← substPass_eq]

@[simp] theorem length_substPass (t : UInt8) (xs : List UInt8) :
    (substPass t xs).1.length = xs.length := by
  rw [substPass_eq 0, length_accumulate]

/-! ## The state -/

/-- The state, the buffer and `tmp` of `md2_update_state`. -/
abbrev StateVars := Vector UInt8 16 × Vector UInt8 32 × UInt8

/-- A whole round of `md2_update_state`. -/
def md2StateRound (st : StateVars) (i : ℕ) : StateVars :=
  let first := md2Pass st.1 st.2.2
  let second := md2Pass st.2.1 first.2
  (first.1, second.1, second.2 + UInt8.ofNat i)

/-- The 48 bytes that the two arrays make. -/
def stateBytes (st : StateVars) : List UInt8 × UInt8 := (st.1.toList ++ st.2.1.toList, st.2.2)

/-- Two passes over the arrays are one pass over the 48 bytes. -/
theorem md2StateRound_eq (st : StateVars) (i : ℕ) :
    stateBytes (md2StateRound st i) = md2Round (stateBytes st) i := by
  obtain ⟨state, buffer, t⟩ := st
  obtain ⟨hfirst, hmid⟩ := md2Pass_eq state t
  obtain ⟨hsecond, hlast⟩ := md2Pass_eq buffer (md2Pass state t).2
  rw [hmid] at hsecond hlast
  rw [md2Round, stateBytes, stateBytes, substPass_append]
  simp only [md2StateRound, hfirst, hsecond, hlast, hmid]

theorem md2StateRounds_eq (n : ℕ) (st : StateVars) :
    stateBytes ((List.range n).foldl md2StateRound st) =
      (List.range n).foldl md2Round (stateBytes st) := by
  induction n with
  | zero => rfl
  | succ n ih =>
      rw [List.range_succ, List.foldl_append, List.foldl_append, ← ih]
      exact md2StateRound_eq _ n

/-- The buffer that `md2_update_state` starts with. -/
def md2Buffer (state : Vector UInt8 16) (data : List UInt8) : Vector UInt8 32 :=
  Vector.ofFn fun i =>
    if h : i.val < 16 then data.getD i 0
    else state.get ⟨i - 16, Nat.sub_lt_left_of_lt_add (Nat.not_lt.mp h) i.isLt⟩ ^^^
      data.getD (i - 16) 0

theorem toList_md2Buffer (state : Vector UInt8 16) {data : List UInt8} (hdata : data.length = 16) :
    (md2Buffer state data).toList = data ++ List.zipWith (· ^^^ ·) data state.toList := by
  have hstate : state.toList.length = 16 := state.length_toList
  apply List.ext_getElem
  · simp [hdata]
  · intro k hk _
    have hlt : k < 32 := by simpa using hk
    by_cases hfirst : k < 16
    · have hdk : k < data.length := by omega
      simp [md2Buffer, hfirst, List.getElem_append_left hdk, hdk]
    · have hge : data.length ≤ k := by omega
      have hback : k - 16 < data.length := by omega
      rw [List.getElem_append_right hge]
      simp only [md2Buffer, Vector.getElem_toList, Vector.getElem_ofFn, dif_neg hfirst,
        List.getElem_zipWith, hdata, List.getD_eq_getElem _ _ hback]
      exact UInt8.xor_comm _ _

theorem md2UpdateState_rounds (state : Vector UInt8 16) (data : List UInt8) :
    md2UpdateState state data =
      (md2Pass ((List.range 17).foldl md2StateRound (state, md2Buffer state data, 0)).1
        ((List.range 17).foldl md2StateRound (state, md2Buffer state data, 0)).2.2).1 := by
  rw [md2UpdateState]
  generalize List.range 17 = rounds
  rfl

/-- `md2_update_state` is the transformation of the standard: the round that it leaves
unfinished would change the bytes behind the state only. -/
theorem md2UpdateState_eq (state : Vector UInt8 16) {data : List UInt8}
    (hdata : data.length = 16) :
    (md2UpdateState state data).toList = md2Transform state.toList data := by
  set out := (List.range 17).foldl md2StateRound (state, md2Buffer state data, 0) with hout
  have hrounds : (List.range 17).foldl md2Round
      (state.toList ++ data ++ List.zipWith (· ^^^ ·) data state.toList, 0) = stateBytes out := by
    rw [hout, md2StateRounds_eq, stateBytes, toList_md2Buffer state hdata, List.append_assoc]
  have hlen : (substPass out.2.2 out.1.toList).1.length = 16 := by
    rw [length_substPass, Vector.length_toList]
  rw [md2UpdateState_rounds, ← hout, (md2Pass_eq _ _).1, md2Transform, List.range_succ,
    List.foldl_append, hrounds, List.foldl_cons, List.foldl_nil, md2Round, stateBytes,
    substPass_append]
  exact (List.take_left' hlen).symm

/-! ## The checksum -/

theorem checksumBlock_eq (data : List UInt8) (k : ℕ) (l : UInt8) (cs : List UInt8)
    (hlen : data.length = k + cs.length) :
    checksumBlock cs l (data.drop k) =
      accumulate (fun i c l => c ^^^ substitute (data.getD i 0 ^^^ l)) k l cs := by
  induction cs generalizing k l with
  | nil => rfl
  | cons c cs ih =>
      rw [List.length_cons] at hlen
      have hlt : k < data.length := by omega
      rw [List.drop_eq_getElem_cons hlt, checksumBlock, accumulate,
        ih (k + 1) _ (by omega), List.getD_eq_getElem _ _ hlt]

/-- The state of the standard's checksum that a checksum of the code stands for. -/
def checksumState (checksum : Vector UInt8 16) : List UInt8 × UInt8 :=
  (checksum.toList, checksum.get (Fin.last 15))

/-- The last byte of the checksum is the last byte that went into it. -/
theorem md2UpdateChecksum_eq (checksum : Vector UInt8 16) {data : List UInt8}
    (hdata : data.length = 16) :
    checksumState (md2UpdateChecksum checksum data) =
      checksumBlock checksum.toList (checksum.get 15) data := by
  set f := fun (i : ℕ) (c l : UInt8) => c ^^^ substitute (data.getD i 0 ^^^ l) with hf
  have hloop : md2UpdateChecksum checksum data =
      ((List.finRange 16).foldl (setNext f) (checksum, checksum.get 15)).1 := by
    rw [md2UpdateChecksum]
    congr 2
    funext st i
    simp only [setNext, md2Subst_eq, hf]
  have hlen : checksum.toList.length = 16 := checksum.length_toList
  have hne : checksum.toList ≠ [] := by
    intro hnil
    rw [hnil] at hlen
    cases hlen
  obtain ⟨hlist, -⟩ := foldl_setNext (f := f) checksum (checksum.get 15)
  rw [← hloop] at hlist
  have hstandard := checksumBlock_eq data 0 (checksum.get 15) checksum.toList (by omega)
  rw [List.drop_zero, ← hf] at hstandard
  have hget : (md2UpdateChecksum checksum data).get (Fin.last 15) =
      (md2UpdateChecksum checksum data).toList.getLastD 0 := by
    rw [List.getLastD_eq_getLast?, List.getLast?_eq_getElem?, Vector.length_toList]
    simp
    rfl
  rw [hstandard, checksumState, hget, hlist, ← accumulate_snd 0 checksum.toList 0 hne]

/-! ## The digest -/

/-- Checksum and state do not meet: over any blocks, each follows the standard. -/
theorem foldl_md2ProcessChunk {blocks : List (List UInt8)} (hblocks : ∀ b ∈ blocks, b.length = 16)
    (chain : Md2Chain) :
    (blocks.foldl md2ProcessChunk chain).state.toList =
        blocks.foldl md2Transform chain.state.toList ∧
      checksumState (blocks.foldl md2ProcessChunk chain).checksum =
        blocks.foldl (fun (st : List UInt8 × UInt8) block => checksumBlock st.1 st.2 block)
          (checksumState chain.checksum) := by
  induction blocks generalizing chain with
  | nil => exact ⟨rfl, rfl⟩
  | cons b bs ih =>
      have hb : b.length = 16 := hblocks b List.mem_cons_self
      obtain ⟨hstate, hsum⟩ := ih (fun c hc => hblocks c (List.mem_cons_of_mem b hc))
        (md2ProcessChunk chain b)
      have hstate' : (md2ProcessChunk chain b).state.toList =
          md2Transform chain.state.toList b := md2UpdateState_eq chain.state hb
      have hsum' : checksumState (md2ProcessChunk chain b).checksum =
          checksumBlock chain.checksum.toList (chain.checksum.get 15) b :=
        md2UpdateChecksum_eq chain.checksum hb
      rw [List.foldl_cons, List.foldl_cons, List.foldl_cons, hstate, hstate', hsum, hsum']
      exact ⟨rfl, rfl⟩

/-- The last bytes of a message and its padding are one block. -/
theorem blocksOf_md2Padding (m : List UInt8) :
    blocksOf 16 (m ++ md2Padding m) = blocksOf 16 m ++ [leftover 16 m ++ md2Padding m] := by
  have hlen : (leftover 16 m ++ md2Padding m).length = 16 := by
    rw [List.length_append, length_leftover, md2Padding, List.length_replicate]
    omega
  have hlast := blocksOf_block (by decide) hlen []
  rw [List.append_nil, blocksOf_nil] at hlast
  rw [blocksOf_append_leftover (by decide), hlast]

/-- The state that `md2_finalize` writes is the digest of the standard. -/
theorem md2LastState_eq (m : List UInt8) (ctx : Md2Context) :
    (md2LastState ((blocksOf 16 m).foldl md2ProcessChunk (md2Init ctx).chain)
      (leftover 16 m)).toList = md2Standard m := by
  set blocks := blocksOf 16 (m ++ md2Padding m) with hblocks
  have hlengths : ∀ b ∈ blocks, b.length = 16 := fun b hb => length_of_mem_blocksOf hb
  obtain ⟨hstate, hsum⟩ := foldl_md2ProcessChunk hlengths (md2Init ctx).chain
  have hchecksum : (blocks.foldl md2ProcessChunk (md2Init ctx).chain).checksum.toList =
      checksumBlocks blocks := congrArg Prod.fst hsum
  have hlen : (blocks.foldl md2ProcessChunk (md2Init ctx).chain).checksum.toList.length = 16 :=
    Vector.length_toList
  have hlast : md2ProcessChunk ((blocksOf 16 m).foldl md2ProcessChunk (md2Init ctx).chain)
      (leftover 16 m ++ List.replicate (16 - (leftover 16 m).length)
        (UInt8.ofNat (16 - (leftover 16 m).length))) =
          blocks.foldl md2ProcessChunk (md2Init ctx).chain := by
    rw [hblocks, blocksOf_md2Padding, List.foldl_append, length_leftover]
    rfl
  rw [md2LastState]
  simp only [hlast]
  have hinit : (md2Init ctx).chain.state.toList = List.replicate 16 0 := rfl
  rw [md2UpdateState_eq _ hlen, hchecksum, hstate, hinit, md2Standard, ← hblocks,
    List.foldl_append, List.foldl_cons, List.foldl_nil]

/-- `md2_init`, one `md2_update` and `md2_finalize` write the digest of the standard,
whatever the context memory held. -/
theorem md2_writes_digest (ctx : Md2Context) (m dest : List UInt8)
    (hdest : digestLen ≤ dest.length) :
    (do
      let ctx ← md2Update (md2Init ctx) m m.length
      md2Finalize ctx dest) = .ok (md2Standard m ++ dest.drop digestLen) := by
  obtain ⟨ctx', hrun, hholds, hchain⟩ := update_spec md2ProcessChunk
    (holds_nil (g := geometry16) (rfl : (md2Init ctx).size = 0)) m
  rw [List.nil_append] at hholds
  rw [List.length_nil, handed_zero] at hchain
  have hused : (ctx'.size &&& 15).toNat = m.length % 16 := hholds.used
  have htail : ctx'.tail.bytes.take (m.length % 16) = leftover 16 m := hholds.tail_eq
  have hlen : (md2Standard m).length = 16 := by
    rw [← md2LastState_eq m ctx, Vector.length_toList]
  change 16 ≤ dest.length at hdest
  rw [md2Update, hrun, Exec.ok_bind, md2Finalize_eq, hused, htail, hchain, md2LastState_eq,
    writeBytes_of_le (by omega), hlen]
  rfl

/-- The message `abc`, with nothing behind the digest. -/
theorem md2_writes_digest_abc :
    (do
      let ctx ← md2Update (md2Init
        ⟨⟨Vector.replicate 16 1, Vector.replicate 16 1⟩, 1, ⟨List.replicate 16 1, rfl⟩⟩)
        (ascii "abc") 3
      md2Finalize ctx (List.replicate 16 0)) = .ok (md2Standard (ascii "abc") ++ []) :=
  md2_writes_digest _ (ascii "abc") (List.replicate 16 0) (Nat.le_refl 16)

end Hlibc.Md
