import Hlibc.Crypto.Sha1

/-!
# The compression of SHA-1

The compression function of the standard, and what `sha1_process_block` computes.  The source
rotates the words of the block before it stores them in `W`, which the standard does only
from the seventeenth word on.
-/

set_option autoImplicit false

namespace Hlibc.Sha1

/-! ## The standard -/

/-- Word `t` of a block, in big-endian order. -/
def blockWord (block : List UInt8) (t : ℕ) : BitVec 32 :=
  beWord 32 ((block.drop (4 * t)).take 4)

/-- `W`, from its first sixteen words on, with `n` words more: the word at `t = n + 16` is made
from those at `t - 3`, `t - 8`, `t - 14` and `t - 16`. -/
def scheduleFrom (first : List (BitVec 32)) : ℕ → List (BitVec 32)
  | 0 => first
  | n + 1 =>
      let w := scheduleFrom first n
      w ++ [(w.getD (n + 13) 0 ^^^ w.getD (n + 8) 0 ^^^ w.getD (n + 2) 0 ^^^
        w.getD n 0).rotateLeft 1]

/-- `W(0)` to `W(79)`. -/
def standardSchedule (block : List UInt8) : List (BitVec 32) :=
  scheduleFrom ((List.range 16).map (blockWord block)) 64

/-- `f(t; B, C, D)`. -/
def standardFunction (t : ℕ) (b c d : BitVec 32) : BitVec 32 :=
  if t < 20 then (b &&& c) ||| (~~~b &&& d)
  else if t < 40 then b ^^^ c ^^^ d
  else if t < 60 then (b &&& c) ||| (b &&& d) ||| (c &&& d)
  else b ^^^ c ^^^ d

/-- `K(t)`. -/
def standardConstant (t : ℕ) : BitVec 32 :=
  if t < 20 then 0x5A827999
  else if t < 40 then 0x6ED9EBA1
  else if t < 60 then 0x8F1BBCDC
  else 0xCA62C1D6

/-- Step `t` with the words `w`. -/
def standardStep (w : List (BitVec 32)) (st : Words) (t : ℕ) : Words where
  a := st.a.rotateLeft 5 + standardFunction t st.b st.c st.d + st.e + w.getD t 0 +
    standardConstant t
  b := st.a
  c := st.b.rotateLeft 30
  d := st.c
  e := st.d

/-- The words are added to those at the start of the block. -/
def Words.add (w v : Words) : Words where
  a := w.a + v.a
  b := w.b + v.b
  c := w.c + v.c
  d := w.d + v.d
  e := w.e + v.e

/-- The eighty steps with the words `w`. -/
def standardSteps (w : List (BitVec 32)) (state : Words) : Words :=
  state.add ((List.range 80).foldl (standardStep w) state)

/-- The compression of a block. -/
def standardCompress (state : Words) (block : List UInt8) : Words :=
  standardSteps (standardSchedule block) state

/-- `W` is the schedule of the standard, and the state becomes its compression. -/
structure Compresses (state : Words) (block : List UInt8) : Prop where
  schedule : sha1Schedule block = standardSchedule block
  state : sha1ProcessBlock state block = standardCompress state block

/-! ## The schedule -/

section Schedule

variable {first : List (BitVec 32)}

@[simp] theorem length_scheduleFrom (first : List (BitVec 32)) (n : ℕ) :
    (scheduleFrom first n).length = first.length + n := by
  induction n with
  | zero => rfl
  | succ n ih => rw [scheduleFrom, List.length_append, ih, List.length_singleton, Nat.add_assoc]

theorem prefix_scheduleFrom (first : List (BitVec 32)) (n : ℕ) :
    first <+: scheduleFrom first n := by
  induction n with
  | zero => exact List.prefix_refl first
  | succ n ih => exact ih.trans (List.prefix_append _ _)

/-- The source makes the words from the seventeenth on like the standard, from rotated words
of the block. -/
theorem sha1Schedule_eq (block : List UInt8) :
    sha1Schedule block =
      scheduleFrom ((List.range 16).map fun t => (blockWord block t).rotateLeft 1) 64 := by
  have hrot : ∀ x, rotl32 x 1 = x.rotateLeft 1 := fun x =>
    rotl32_eq_rotateLeft x (by decide)
  have hloop : ∀ n, (List.range' 16 n).foldl
      (fun w i => w ++ [rotl32 (w.getD (i - 3) 0 ^^^ w.getD (i - 8) 0 ^^^ w.getD (i - 14) 0 ^^^
        w.getD (i - 16) 0) 1])
      ((List.range 16).map fun i => rotl32 (getUnalignedBe32 block (4 * i)) 1) =
        scheduleFrom ((List.range 16).map fun t => (blockWord block t).rotateLeft 1) n := by
    intro n
    induction n with
    | zero =>
        simp only [hrot]
        rfl
    | succ n ih =>
        have hthree : 16 + n - 3 = n + 13 := by omega
        have height : 16 + n - 8 = n + 8 := by omega
        have hfourteen : 16 + n - 14 = n + 2 := by omega
        have hsixteen : 16 + n - 16 = n := by omega
        rw [List.range'_1_concat, List.foldl_append, ih, List.foldl_cons, List.foldl_nil, hrot,
          hthree, height, hfourteen, hsixteen]
        rfl
  exact hloop 64

end Schedule

/-! ## The steps -/

/-- A stretch of steps with one function and one constant. -/
theorem foldl_round {w : List (BitVec 32)} {f : BitVec 32 → BitVec 32 → BitVec 32 → BitVec 32}
    {k : BitVec 32} {s n : ℕ} (hlen : s + n ≤ w.length)
    (hf : ∀ t, s ≤ t → t < s + n → standardFunction t = f ∧ standardConstant t = k) (st : Words) :
    ((w.drop s).take n).foldl (sha1Round f k) st =
      (List.range' s n).foldl (standardStep w) st := by
  induction n generalizing s st with
  | zero => rfl
  | succ n ih =>
      have hs : s < w.length := by omega
      obtain ⟨hfunction, hconstant⟩ := hf s (Nat.le_refl s) (by omega)
      have hstep : sha1Round f k st w[s] = standardStep w st s := by
        rw [sha1Round, standardStep, rotl32_eq_rotateLeft _ (by decide),
          rotl32_eq_rotateLeft _ (by decide), hfunction, hconstant, List.getD_eq_getElem _ _ hs]
      rw [List.drop_eq_getElem_cons hs, List.take_succ_cons, List.foldl_cons, hstep,
        List.range'_succ, List.foldl_cons]
      exact ih (by omega) (fun t hst hlt => hf t (by omega) (by omega)) _

/-- The four functions and constants of the source, each for twenty steps. -/
theorem standardRound_eq (t : ℕ) :
    (0 ≤ t → t < 0 + 20 → standardFunction t = sha1F0 ∧ standardConstant t = 0x5A827999) ∧
      (20 ≤ t → t < 20 + 20 →
        standardFunction t = sha1F1 ∧ standardConstant t = 0x6ED9EBA1) ∧
      (40 ≤ t → t < 40 + 20 →
        standardFunction t = sha1F2 ∧ standardConstant t = 0x8F1BBCDC) ∧
      (60 ≤ t → t < 60 + 20 →
        standardFunction t = sha1F3 ∧ standardConstant t = 0xCA62C1D6) := by
  refine ⟨fun _ hlt => ⟨?_, ?_⟩, fun hge hlt => ⟨?_, ?_⟩, fun hge hlt => ⟨?_, ?_⟩,
    fun hge _ => ⟨?_, ?_⟩⟩
  · exact funext fun b => funext fun c => funext fun d => if_pos hlt
  · exact if_pos hlt
  · funext b c d
    rw [standardFunction, if_neg (by omega), if_pos hlt, sha1F1]
  · rw [standardConstant, if_neg (by omega), if_pos hlt]
  · funext b c d
    rw [standardFunction, if_neg (by omega), if_neg (by omega), if_pos hlt, sha1F2]
  · rw [standardConstant, if_neg (by omega), if_neg (by omega), if_pos hlt]
  · funext b c d
    rw [standardFunction, if_neg (by omega), if_neg (by omega), if_neg (by omega), sha1F3]
  · rw [standardConstant, if_neg (by omega), if_neg (by omega), if_neg (by omega)]

/-- The eighty steps of the source are those of the standard. -/
theorem sha1ProcessBlock_eq (state : Words) (block : List UInt8) :
    sha1ProcessBlock state block = standardSteps (sha1Schedule block) state := by
  have hlen : (sha1Schedule block).length = 80 := by
    rw [sha1Schedule_eq, length_scheduleFrom, List.length_map, List.length_range]
  have hsplit : List.range 80 =
      List.range' 0 20 ++ List.range' 20 20 ++ List.range' 40 20 ++ List.range' 60 20 := rfl
  have hone := foldl_round (s := 0) (n := 20) (by omega : 0 + 20 ≤ (sha1Schedule block).length)
    fun t => (standardRound_eq t).1
  have htwo := foldl_round (by omega : 20 + 20 ≤ (sha1Schedule block).length)
    fun t => (standardRound_eq t).2.1
  have hthree := foldl_round (by omega : 40 + 20 ≤ (sha1Schedule block).length)
    fun t => (standardRound_eq t).2.2.1
  have hfour := foldl_round (by omega : 60 + 20 ≤ (sha1Schedule block).length)
    fun t => (standardRound_eq t).2.2.2
  rw [List.drop_zero] at hone
  rw [standardSteps, hsplit, List.foldl_append, List.foldl_append, List.foldl_append, ← hone,
    ← htwo, ← hthree, ← hfour]
  rfl

/-! ## When the schedules agree -/

/-- A word is its own rotation by one only if its bits are all equal. -/
theorem rotateLeft_one_eq_self {w : BitVec 32} :
    w.rotateLeft 1 = w ↔ w = 0 ∨ w = BitVec.allOnes 32 := by
  constructor
  · intro hself
    have hbit : ∀ i < 32, w.getLsbD i = w.getLsbD 0 := by
      intro i hi
      induction i with
      | zero => rfl
      | succ i ih =>
          have hrotated := congrArg (BitVec.getLsbD · (i + 1)) hself
          simp only [BitVec.getLsbD_rotateLeft] at hrotated
          rw [← ih (by omega), ← hrotated]
          simp [hi]
    cases hzero : w.getLsbD 0 with
    | false =>
        left
        apply BitVec.eq_of_getLsbD_eq
        intro i hi
        rw [hbit i hi, hzero, BitVec.ofNat_eq_ofNat, BitVec.getLsbD_zero]
    | true =>
        right
        apply BitVec.eq_of_getLsbD_eq
        intro i hi
        rw [hbit i hi, hzero, BitVec.getLsbD_allOnes, decide_eq_true hi]
  · rintro (rfl | rfl)
    · rfl
    · rfl

/-- Every word of the block has one and the same bit in all its places. -/
def UniformWords (block : List UInt8) : Prop :=
  ∀ t < 16, blockWord block t = 0 ∨ blockWord block t = BitVec.allOnes 32

theorem scheduleFrom_inj {first first' : List (BitVec 32)} (hlen : first.length = first'.length)
    {n : ℕ} (h : scheduleFrom first n = scheduleFrom first' n) : first = first' := by
  have htake := List.prefix_iff_eq_take.mp (prefix_scheduleFrom first n)
  have htake' := List.prefix_iff_eq_take.mp (prefix_scheduleFrom first' n)
  rw [htake, htake', h, hlen]

/-- The source has the schedule of the standard if the rotation changes no word. -/
theorem sha1Schedule_standard_iff (block : List UInt8) :
    sha1Schedule block = standardSchedule block ↔ UniformWords block := by
  have hwords : ((List.range 16).map fun t => (blockWord block t).rotateLeft 1) =
      (List.range 16).map (blockWord block) ↔ UniformWords block := by
    rw [List.map_inj_left]
    constructor
    · exact fun hall t ht => rotateLeft_one_eq_self.mp (hall t (List.mem_range.mpr ht))
    · exact fun hall t ht => rotateLeft_one_eq_self.mpr (hall t (List.mem_range.mp ht))
  rw [sha1Schedule_eq, standardSchedule, ← hwords]
  constructor
  · exact scheduleFrom_inj (by rw [List.length_map, List.length_map])
  · intro hsame
    rw [hsame]

/-- `sha1_process_block` is the compression of the standard exactly for blocks whose words
the rotation leaves alone. -/
theorem sha1ProcessBlock_compresses_iff (state : Words) (block : Buffer 64) :
    Compresses state block.bytes ↔ UniformWords block.bytes := by
  rw [← sha1Schedule_standard_iff]
  constructor
  · exact Compresses.schedule
  · intro hschedule
    refine ⟨hschedule, ?_⟩
    rw [sha1ProcessBlock_eq, hschedule, standardCompress]

/-- The block of the message `abc`. -/
def abcBlock : Buffer 64 :=
  ⟨[0x61, 0x62, 0x63, 0x80] ++ List.replicate 59 0 ++ [24], by decide⟩

/-- The state that `sha1_init` sets. -/
def initialWords : Words where
  a := 0x67452301
  b := 0xEFCDAB89
  c := 0x98BADCFE
  d := 0x10325476
  e := 0xC3D2E1F0

example : standardCompress initialWords abcBlock.bytes =
    { a := 0xA9993E36, b := 0x4706816A, c := 0xBA3E2571, d := 0x7850C26C, e := 0x9CD0D89D } := by
  decide +kernel

/-- The state after the block of `abc` is another one. -/
theorem sha1ProcessBlock_differs :
    ¬ ∀ (state : Words) (block : Buffer 64),
      sha1ProcessBlock state block.bytes = standardCompress state block.bytes := by
  intro hall
  have hsame := hall initialWords abcBlock
  revert hsame
  decide +kernel

end Hlibc.Sha1
