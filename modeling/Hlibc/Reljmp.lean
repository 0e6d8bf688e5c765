import Hlibc.Support.Exec
import Hlibc.Support.Words
import Mathlib.Algebra.Group.Int.Defs

/-!
# `reljmp.c` and `sys.c`

`replace_func` writes a jump over the first five bytes of a function.  The distance of the
jump is cut to an `int`, and the pages that the five bytes are on are made writable for the
time of the copy.  Code memory is bytes by address and protections by page; what `mprotect`
answers is a parameter of each call.
-/

set_option autoImplicit false

namespace Hlibc.Sys

/-! ## Code memory -/

/-- `PROT_READ`, `PROT_WRITE` and `PROT_EXEC`. -/
structure Prot where
  read : Bool
  write : Bool
  exec : Bool
  deriving DecidableEq

/-- The bytes by their address, and the protections by the number of the page. -/
structure Machine where
  mem : BitVec 64 → UInt8
  prot : ℕ → Prot

/-- `sysconf(_SC_PAGESIZE)`. -/
structure PageSize where
  log : ℕ
  log_le : log ≤ 30

/-- The size of a page in bytes. -/
def PageSize.bytes (size : PageSize) : ℕ := 2 ^ size.log

/-- The number of the page that an address is on. -/
def PageSize.page (size : PageSize) (addr : BitVec 64) : ℕ := addr.toNat / size.bytes

/-- What `mprotect` answers.  Where it refuses, with a value of `errno`, some of the pages may
have been changed. -/
inductive Answer where
  | done
  | refused (errno : ℤ) (prot : ℕ → Prot)

/-- A page with a byte of the `len` bytes from `addr` on. -/
def Touches (size : PageSize) (addr : BitVec 64) (len n : ℕ) : Prop :=
  n * size.bytes < addr.toNat + len ∧ addr.toNat < (n + 1) * size.bytes

instance (size : PageSize) (addr : BitVec 64) (len n : ℕ) :
    Decidable (Touches size addr len n) := inferInstanceAs (Decidable (_ ∧ _))

/-- `mprotect`: the value of `errno` where it does not return 0. -/
def mprotect (size : PageSize) (answer : Answer) (addr : BitVec 64) (len : ℕ) (prot : Prot)
    (m : Machine) : Option ℤ × Machine :=
  match answer with
  | .done =>
      (none, { m with prot := fun n => if Touches size addr len n then prot else m.prot n })
  | .refused errno prot' =>
      (some errno,
        { m with prot := fun n => if Touches size addr len n then prot' n else m.prot n })

/-- The bytes `bs` from `dest` on. -/
def overwrite (mem : BitVec 64 → UInt8) (dest : BitVec 64) (bs : List UInt8)
    (addr : BitVec 64) : UInt8 :=
  (bs[(addr - dest).toNat]?).getD (mem addr)

/-- `memcpy` into code memory, on pages that can be written. -/
def memcpyCode (size : PageSize) (m : Machine) (dest : BitVec 64) (bs : List UInt8) :
    Exec Machine :=
  if (List.range bs.length).all fun i => (m.prot (size.page (dest + BitVec.ofNat 64 i))).write then
    .ok { m with mem := overwrite m.mem dest bs }
  else .error .write

/-! ## The functions of the source -/

/-- `pageof`. -/
def pageof (size : PageSize) (addr : BitVec 64) : BitVec 64 :=
  addr &&& ~~~(BitVec.ofNat 64 size.bytes - 1)

/-- `struct reljmp`, packed. -/
structure Reljmp where
  opcode : UInt8
  len : BitVec 32

/-- The bytes of a `struct reljmp`. -/
def Reljmp.bytes (jmp : Reljmp) : List UInt8 := jmp.opcode :: leBytes 4 jmp.len

/-- `sizeof(struct reljmp)`. -/
def sizeofReljmp : ℕ := 5

/-- `reljmp_init`. -/
def reljmpInit (len : BitVec 32) : Reljmp where
  opcode := 0xE9
  len := len

/-- `replace_func`, where `mprotect` answers `first` and then `second`. -/
def replaceFunc (size : PageSize) (first second : Answer) (func repl : BitVec 64)
    (m : Machine) : Exec (ℤ × Machine) :=
  let page := pageof size func
  let len := (func - page + BitVec.ofNat 64 sizeofReljmp).setWidth 32
  let jmpLen := (repl - (func + BitVec.ofNat 64 sizeofReljmp)).setWidth 32
  let op := reljmpInit jmpLen
  match mprotect size first page (len.signExtend 64).toNat ⟨true, true, true⟩ m with
  | (some errno, m) => .ok (errno, m)
  | (none, m) => do
      let m ← memcpyCode size m func op.bytes
      match mprotect size second page (len.signExtend 64).toNat ⟨true, false, true⟩ m with
      | (some errno, m) => .ok (errno, m)
      | (none, m) => .ok (0, m)

/-! ## What a jump does -/

/-- Where the processor goes on from `addr`, if there is a jump with a distance of 32 bits. -/
def jumpTarget (size : PageSize) (m : Machine) (addr : BitVec 64) : Option (BitVec 64) :=
  let byte := fun i => m.mem (addr + BitVec.ofNat 64 i)
  if m.mem addr = 0xE9 ∧ ∀ i < sizeofReljmp,
      (m.prot (size.page (addr + BitVec.ofNat 64 i))).exec = true then
    some (addr + BitVec.ofNat 64 sizeofReljmp +
      (leWord 32 [byte 1, byte 2, byte 3, byte 4]).signExtend 64)
  else none

/-! ## Pages -/

theorem pageof_toNat (size : PageSize) (addr : BitVec 64) :
    (pageof size addr).toNat = addr.toNat / size.bytes * size.bytes := by
  have hlog := size.log_le
  have hpow : size.bytes < 2 ^ 64 := Nat.pow_lt_pow_right (by decide) (by omega)
  have hpos : 0 < size.bytes := Nat.two_pow_pos size.log
  have hone : (BitVec.ofNat 64 size.bytes - 1).toNat = size.bytes - 1 := by
    have hunit : (1 : BitVec 64).toNat = 1 := rfl
    rw [BitVec.toNat_sub, BitVec.toNat_ofNat, Nat.mod_eq_of_lt hpow, hunit]
    omega
  have hshift : pageof size addr = (addr >>> size.log) <<< size.log := by
    apply BitVec.eq_of_getLsbD_eq
    intro i hi
    have hbit : (BitVec.ofNat 64 size.bytes - 1).getLsbD i = decide (i < size.log) := by
      rw [BitVec.getLsbD, hone, PageSize.bytes, Nat.testBit_two_pow_sub_one]
    rw [pageof, BitVec.getLsbD_and, BitVec.getLsbD_not, hbit, BitVec.getLsbD_shiftLeft,
      BitVec.getLsbD_ushiftRight]
    by_cases hlow : i < size.log
    · simp [hlow]
    · simp [hlow, hi, Nat.add_sub_cancel' (Nat.le_of_not_lt hlow)]
  have hle := Nat.div_mul_le_self addr.toNat size.bytes
  rw [hshift, BitVec.toNat_shiftLeft, BitVec.toNat_ushiftRight, Nat.shiftLeft_eq,
    Nat.shiftRight_eq_div_pow]
  exact Nat.mod_eq_of_lt (Nat.lt_of_le_of_lt hle addr.isLt)

/-- The length that `mprotect` is given ends with the five bytes. -/
theorem length_toNat (size : PageSize) (func : BitVec 64) :
    (((func - pageof size func + BitVec.ofNat 64 sizeofReljmp).setWidth 32).signExtend 64).toNat =
      func.toNat % size.bytes + sizeofReljmp := by
  have hpage := pageof_toNat size func
  have hdiv := Nat.div_add_mod' func.toNat size.bytes
  have hmod : func.toNat % size.bytes < size.bytes := Nat.mod_lt _ (Nat.two_pow_pos size.log)
  have hbytes : size.bytes ≤ 2 ^ 30 := Nat.pow_le_pow_right (by decide) size.log_le
  have hle : (pageof size func).toNat ≤ func.toNat := by omega
  have hdist : (func - pageof size func + BitVec.ofNat 64 sizeofReljmp).toNat =
      func.toNat % size.bytes + sizeofReljmp := by
    rw [BitVec.toNat_add, BitVec.toNat_sub_of_le (BitVec.le_def.mpr hle), BitVec.toNat_ofNat, hpage,
      sizeofReljmp]
    omega
  have hwidth : ((func - pageof size func + BitVec.ofNat 64 sizeofReljmp).setWidth 32).toNat =
      func.toNat % size.bytes + sizeofReljmp := by
    rw [BitVec.toNat_setWidth, hdist, sizeofReljmp]
    omega
  have hmsb :
      ((func - pageof size func + BitVec.ofNat 64 sizeofReljmp).setWidth 32).msb = false := by
    rw [BitVec.msb_eq_false_iff_two_mul_lt, hwidth, sizeofReljmp]
    omega
  rw [BitVec.signExtend_eq_setWidth_of_msb_false hmsb, BitVec.toNat_setWidth, hwidth, sizeofReljmp]
  omega

/-- The pages that `mprotect` is asked for are those that the five bytes are on. -/
theorem touches_iff (size : PageSize) {func : BitVec 64}
    (hroom : func.toNat + sizeofReljmp ≤ 2 ^ 64) (n : ℕ) :
    Touches size (pageof size func) (func.toNat % size.bytes + sizeofReljmp) n ↔
      ∃ i < sizeofReljmp, size.page (func + BitVec.ofNat 64 i) = n := by
  have hpos : 0 < size.bytes := Nat.two_pow_pos size.log
  have hdiv := Nat.div_add_mod' func.toNat size.bytes
  have haddr : ∀ i < sizeofReljmp, (func + BitVec.ofNat 64 i).toNat = func.toNat + i := by
    intro i hi
    rw [sizeofReljmp] at hi hroom
    rw [BitVec.toNat_add, BitVec.toNat_ofNat]
    omega
  rw [Touches, pageof_toNat]
  constructor
  · rintro ⟨hend, hstart⟩
    have hle : func.toNat / size.bytes ≤ n :=
      Nat.lt_succ_iff.mp (Nat.lt_of_mul_lt_mul_right hstart)
    rcases Nat.eq_or_lt_of_le hle with heq | hlt
    · exact ⟨0, by decide, by rw [PageSize.page, haddr 0 (by decide), Nat.add_zero, heq]⟩
    · have hbegin : func.toNat < n * size.bytes := (Nat.div_lt_iff_lt_mul hpos).mp hlt
      refine ⟨n * size.bytes - func.toNat, by omega, ?_⟩
      rw [PageSize.page, haddr _ (by omega), Nat.add_sub_cancel' (Nat.le_of_lt hbegin),
        Nat.mul_div_cancel n hpos]
  · rintro ⟨i, hi, rfl⟩
    rw [PageSize.page, haddr i hi]
    have hle := Nat.div_mul_le_self (func.toNat + i) size.bytes
    have hmono : func.toNat / size.bytes ≤ (func.toNat + i) / size.bytes :=
      Nat.div_le_div_right (Nat.le_add_right _ _)
    exact ⟨by omega, Nat.mul_lt_mul_of_pos_right (Nat.lt_succ_iff.mpr hmono) hpos⟩

/-! ## One call -/

/-- A call of `replace_func`, and what `mprotect` answers in it. -/
structure Call where
  func : BitVec 64
  repl : BitVec 64
  first : Answer
  second : Answer

namespace Call

def exec (size : PageSize) (call : Call) (m : Machine) : Exec (ℤ × Machine) :=
  replaceFunc size call.first call.second call.func call.repl m

/-- `mprotect` refuses neither time. -/
def Granted (call : Call) : Prop := call.first = .done ∧ call.second = .done

/-- One of the five bytes. -/
def Covers (call : Call) (addr : BitVec 64) : Prop :=
  ∃ i < sizeofReljmp, call.func + BitVec.ofNat 64 i = addr

/-- A page that one of the five bytes is on. -/
def OnPage (size : PageSize) (call : Call) (n : ℕ) : Prop :=
  ∃ addr, call.Covers addr ∧ size.page addr = n

/-- The distance from the end of the jump. -/
def distance (call : Call) : BitVec 64 :=
  call.repl - (call.func + BitVec.ofNat 64 sizeofReljmp)

/-- The distance is one that an `int` can hold. -/
def InRange (call : Call) : Prop :=
  -2 ^ 31 ≤ call.distance.toInt ∧ call.distance.toInt < 2 ^ 31

/-- The five bytes that are written. -/
def op (call : Call) : List UInt8 := (reljmpInit (call.distance.setWidth 32)).bytes

variable {size : PageSize} {call : Call}

theorem onPage_iff (n : ℕ) :
    call.OnPage size n ↔
      ∃ i < sizeofReljmp, size.page (call.func + BitVec.ofNat 64 i) = n := by
  constructor
  · rintro ⟨_, ⟨i, hi, rfl⟩, hpage⟩
    exact ⟨i, hi, hpage⟩
  · rintro ⟨i, hi, hpage⟩
    exact ⟨_, ⟨i, hi, rfl⟩, hpage⟩

theorem length_op (call : Call) : call.op.length = sizeofReljmp := by
  rw [op, Reljmp.bytes, List.length_cons, length_leBytes, sizeofReljmp]

theorem overwrite_of_not_covers {mem : BitVec 64 → UInt8} {addr : BitVec 64}
    (h : ¬ call.Covers addr) : overwrite mem call.func call.op addr = mem addr := by
  have hout : call.op.length ≤ (addr - call.func).toNat := by
    by_contra hin
    rw [length_op] at hin
    refine h ⟨(addr - call.func).toNat, by omega, ?_⟩
    rw [BitVec.ofNat_toNat, BitVec.setWidth_eq, BitVec.add_comm, BitVec.sub_add_cancel]
  rw [overwrite, List.getElem?_eq_none hout, Option.getD_none]

theorem overwrite_func {mem : BitVec 64 → UInt8} {i : ℕ} (hi : i < sizeofReljmp) :
    overwrite mem call.func call.op (call.func + BitVec.ofNat 64 i) = call.op.getD i 0 := by
  have hoff : (call.func + BitVec.ofNat 64 i - call.func).toNat = i := by
    rw [BitVec.add_comm, BitVec.add_sub_cancel, BitVec.toNat_ofNat]
    rw [sizeofReljmp] at hi
    omega
  have hlt : i < call.op.length := by rwa [length_op]
  rw [overwrite, hoff, List.getElem?_eq_getElem hlt, Option.getD_some,
    List.getD_eq_getElem _ _ hlt]

/-- A call returns, it writes nothing else than the five bytes, and where it is granted they
are written, and their pages can be read and executed and not written. -/
theorem exec_spec (size : PageSize) (hroom : call.func.toNat + sizeofReljmp ≤ 2 ^ 64)
    (m : Machine) :
    ∃ code m', call.exec size m = .ok (code, m') ∧
      (∀ addr, ¬ call.Covers addr → m'.mem addr = m.mem addr) ∧
      (call.Granted → code = 0 ∧ m'.mem = overwrite m.mem call.func call.op ∧
        (∀ n, call.OnPage size n → m'.prot n = ⟨true, false, true⟩) ∧
        ∀ n, ¬ call.OnPage size n → m'.prot n = m.prot n) := by
  have hpages : ∀ n, Touches size (pageof size call.func)
      (((call.func - pageof size call.func + BitVec.ofNat 64 sizeofReljmp).setWidth 32).signExtend
        64).toNat n ↔ call.OnPage size n := by
    intro n
    rw [length_toNat, touches_iff size hroom, onPage_iff]
  set len := (((call.func - pageof size call.func + BitVec.ofNat 64 sizeofReljmp).setWidth
    32).signExtend 64).toNat with hlen
  have hcopy : ∀ m' : Machine, (∀ n, call.OnPage size n → (m'.prot n).write = true) →
      memcpyCode size m' call.func call.op =
        .ok { m' with mem := overwrite m'.mem call.func call.op } := by
    intro m' hwrite
    refine if_pos (List.all_eq_true.mpr fun i hi => ?_)
    rw [length_op] at hi
    exact hwrite _ ⟨_, ⟨i, List.mem_range.mp hi, rfl⟩, rfl⟩
  have hop : (reljmpInit ((call.repl - (call.func + BitVec.ofNat 64 sizeofReljmp)).setWidth
      32)).bytes = call.op := rfl
  simp only [exec, replaceFunc, hop, ← hlen]
  cases hfirst : call.first with
  | refused errno prot =>
      exact ⟨errno, _, rfl, fun _ _ => rfl, fun hgranted => by
        rw [hgranted.1] at hfirst
        cases hfirst⟩
  | done =>
      simp only [mprotect]
      rw [hcopy _ fun n hn => by simp only [if_pos ((hpages n).mpr hn)], Exec.ok_bind]
      cases hsecond : call.second with
      | refused errno prot =>
          refine ⟨errno, _, rfl, fun addr hout => overwrite_of_not_covers hout, fun hgranted => ?_⟩
          rw [hgranted.2] at hsecond
          cases hsecond
      | done =>
          refine ⟨0, _, rfl, fun addr hout => overwrite_of_not_covers hout,
            fun _ => ⟨rfl, rfl, fun n hn => if_pos ((hpages n).mpr hn), fun n hn => ?_⟩⟩
          have hout : ¬ Touches size (pageof size call.func) len n := fun h => hn ((hpages n).mp h)
          simp only [if_neg hout]

/-- Where the five bytes of a call stand on pages that can be executed, the processor goes on
at the replacement exactly if it is in range. -/
theorem jumpTarget_iff {m : Machine}
    (hmem : ∀ i < sizeofReljmp, m.mem (call.func + BitVec.ofNat 64 i) = call.op.getD i 0)
    (hprot : ∀ n, call.OnPage size n → m.prot n = ⟨true, false, true⟩) :
    jumpTarget size m call.func = some call.repl ↔ call.InRange := by
  have hzero : m.mem call.func = 0xE9 := by
    have hfirst := hmem 0 (by decide)
    rwa [BitVec.add_zero] at hfirst
  have hexec : ∀ i < sizeofReljmp,
      (m.prot (size.page (call.func + BitVec.ofNat 64 i))).exec = true := by
    intro i hi
    rw [hprot _ ⟨_, ⟨i, hi, rfl⟩, rfl⟩]
  have hword : leWord 32 [m.mem (call.func + BitVec.ofNat 64 1),
      m.mem (call.func + BitVec.ofNat 64 2), m.mem (call.func + BitVec.ofNat 64 3),
      m.mem (call.func + BitVec.ofNat 64 4)] = call.distance.setWidth 32 := by
    rw [hmem 1 (by decide), hmem 2 (by decide), hmem 3 (by decide), hmem 4 (by decide)]
    exact leWord_leBytes (w := 32) (n := 4) rfl _
  have hrepl : call.repl = call.func + BitVec.ofNat 64 sizeofReljmp + call.distance := by
    rw [distance, BitVec.add_comm, BitVec.sub_add_cancel]
  have hjump : jumpTarget size m call.func = some (call.func + BitVec.ofNat 64 sizeofReljmp +
      (call.distance.setWidth 32).signExtend 64) := by
    rw [jumpTarget, if_pos ⟨hzero, hexec⟩, hword]
  rw [hjump, Option.some.injEq, hrepl, BitVec.add_right_inj, ← BitVec.toInt_inj,
    BitVec.toInt_signExtend_of_le (by decide), BitVec.toInt_setWidth, InRange,
    BitVec.toInt_eq_toNat_bmod]
  have hlt := call.distance.isLt
  simp only [Int.bmod_def]
  omega

end Call

/-! ## Runs of calls -/

/-- One call after the other, with what they return. -/
def runCalls (size : PageSize) : List Call → Machine → Exec (List ℤ × Machine)
  | [], m => .ok ([], m)
  | call :: calls, m => do
      let (code, m) ← call.exec size m
      let (codes, m) ← runCalls size calls m
      .ok (code :: codes, m)

/-- What calls that are granted leave: their pages can be read and executed and not written, no
other page has changed, and the last jump that was written at a place leads to its
replacement exactly if it is in range. -/
structure Patched (size : PageSize) (calls : List Call) (m : Machine) (codes : List ℤ)
    (m' : Machine) : Prop where
  returned : ∀ code ∈ codes, code = 0
  touched : ∀ n, (∃ call ∈ calls, call.OnPage size n) → m'.prot n = ⟨true, false, true⟩
  untouched : ∀ n, (∀ call ∈ calls, ¬ call.OnPage size n) → m'.prot n = m.prot n
  jumps : ∀ before call after, calls = before ++ call :: after →
    (∀ later ∈ after, ∀ addr, call.Covers addr → ¬ later.Covers addr) →
    (jumpTarget size m' call.func = some call.repl ↔ call.InRange)

theorem Patched.cons {size : PageSize} {call : Call} {calls : List Call} {m mid m' : Machine}
    {codes : List ℤ}
    (hwritten : mid.mem = overwrite m.mem call.func call.op)
    (htouched : ∀ n, call.OnPage size n → mid.prot n = ⟨true, false, true⟩)
    (huntouched : ∀ n, ¬ call.OnPage size n → mid.prot n = m.prot n)
    (hkept : ∀ addr, (∀ later ∈ calls, ¬ later.Covers addr) → m'.mem addr = mid.mem addr)
    (h : Patched size calls mid codes m') : Patched size (call :: calls) m (0 :: codes) m' where
  returned := List.forall_mem_cons.mpr ⟨rfl, h.returned⟩
  touched := by
    intro n hn
    by_cases hlater : ∃ later ∈ calls, later.OnPage size n
    · exact h.touched n hlater
    · push Not at hlater
      rw [h.untouched n hlater]
      obtain ⟨c, hc, hpage⟩ := hn
      rcases List.mem_cons.mp hc with rfl | hc
      · exact htouched n hpage
      · exact absurd hpage (hlater c hc)
  untouched := by
    intro n hn
    obtain ⟨hfirst, hlater⟩ := List.forall_mem_cons.mp hn
    rw [h.untouched n hlater, huntouched n hfirst]
  jumps := by
    rintro before c after hcalls hlast
    cases before with
    | nil =>
        obtain ⟨rfl, rfl⟩ := List.cons.inj hcalls
        apply Call.jumpTarget_iff
        · intro i hi
          have hcovers : call.Covers (call.func + BitVec.ofNat 64 i) := ⟨i, hi, rfl⟩
          rw [hkept _ fun later hlater => hlast later hlater _ hcovers, hwritten,
            Call.overwrite_func hi]
        · intro n hn
          by_cases hlater : ∃ later ∈ calls, later.OnPage size n
          · exact h.touched n hlater
          · push Not at hlater
            rw [h.untouched n hlater, htouched n hn]
    | cons b before =>
        obtain ⟨-, rfl⟩ := List.cons.inj hcalls
        exact h.jumps before c after rfl hlast

/-- Whatever `mprotect` answers, any calls of `replace_func` return, and change no byte but the
five of each call.  Where it never refuses, every last jump leads to its replacement exactly
if its distance is one that an `int` can hold, and no page that was asked for is left
writable. -/
theorem replaceFunc_calls (size : PageSize) (calls : List Call) (m : Machine)
    (hroom : ∀ call ∈ calls, call.func.toNat + sizeofReljmp ≤ 2 ^ 64) :
    ∃ codes m', runCalls size calls m = .ok (codes, m') ∧
      (∀ addr, (∀ call ∈ calls, ¬ call.Covers addr) → m'.mem addr = m.mem addr) ∧
      ((∀ call ∈ calls, call.Granted) → Patched size calls m codes m') := by
  induction calls generalizing m with
  | nil =>
      refine ⟨[], m, rfl, fun _ _ => rfl, fun _ => ⟨nofun, nofun, fun _ _ => rfl, ?_⟩⟩
      intro before call after hcalls
      exact absurd hcalls (by simp)
  | cons call calls ih =>
      obtain ⟨hfirst, hrest⟩ := List.forall_mem_cons.mp hroom
      obtain ⟨code, mid, hrun, hframe, hspec⟩ := call.exec_spec size hfirst m
      obtain ⟨codes, m', hruns, hkept, hpatched⟩ := ih mid hrest
      refine ⟨code :: codes, m', ?_, ?_, ?_⟩
      · rw [runCalls, hrun, Exec.ok_bind]
        simp only [hruns, Exec.ok_bind]
      · intro addr haddr
        obtain ⟨hcall, hcalls⟩ := List.forall_mem_cons.mp haddr
        rw [hkept addr hcalls, hframe addr hcall]
      · intro hgranted
        obtain ⟨hcall, hcalls⟩ := List.forall_mem_cons.mp hgranted
        obtain ⟨rfl, hwritten, htouched, huntouched⟩ := hspec hcall
        exact (hpatched hcalls).cons hwritten htouched huntouched hkept

/-- A jump that stands on two pages, and one that is too far. -/
theorem replaceFunc_calls_two :
    ∃ codes m', runCalls ⟨12, by decide⟩ [⟨0x1FFE, 0x400000, .done, .done⟩,
        ⟨0x3000, 0x7F0000000000, .done, .done⟩] ⟨fun _ => 0, fun _ => ⟨true, false, true⟩⟩ =
          .ok (codes, m') ∧
      jumpTarget ⟨12, by decide⟩ m' 0x1FFE = some 0x400000 ∧
      jumpTarget ⟨12, by decide⟩ m' 0x3000 ≠ some 0x7F0000000000 := by
  obtain ⟨codes, m', hrun, -, hpatched⟩ := replaceFunc_calls ⟨12, by decide⟩
    [⟨0x1FFE, 0x400000, .done, .done⟩, ⟨0x3000, 0x7F0000000000, .done, .done⟩]
    ⟨fun _ => 0, fun _ => ⟨true, false, true⟩⟩ (by
      intro call hcall
      simp only [List.mem_cons, List.not_mem_nil, or_false] at hcall
      rcases hcall with rfl | rfl <;> decide)
  have hjumps := (hpatched (by
    intro call hcall
    simp only [List.mem_cons, List.not_mem_nil, or_false] at hcall
    rcases hcall with rfl | rfl <;> exact ⟨rfl, rfl⟩)).jumps
  refine ⟨codes, m', hrun, ?_, ?_⟩
  · apply (hjumps [] _ _ rfl ?_).mpr
    · exact ⟨by decide, by decide⟩
    · rintro later hlater _ ⟨i, hi, rfl⟩ ⟨j, hj, heq⟩
      obtain rfl := List.mem_singleton.mp hlater
      revert i j
      decide
  · intro hjump
    have hrange := (hjumps [_] _ [] rfl (fun _ h => absurd h List.not_mem_nil)).mp hjump
    exact absurd hrange.2 (by decide)

end Hlibc.Sys
