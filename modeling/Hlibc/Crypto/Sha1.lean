import Hlibc.Crypto.MdFinish

/-!
# SHA-1

`sha1.c`: the compression of a block, and the functions on a context.  The loop
of `sha1_update` steps by sixteen bytes and stops eight bytes before the end,
`sha1_finalize` processes one block only, and closes it with the number of
bytes where the standard has the number of bits.
-/

set_option autoImplicit false

namespace Hlibc.Sha1

open Md (Context recordBlock)

/-! ## The functions of the source -/

/-- `state` of `struct sha1_context`. -/
structure Words where
  a : BitVec 32
  b : BitVec 32
  c : BitVec 32
  d : BitVec 32
  e : BitVec 32
  deriving DecidableEq

/-- `struct sha1_context`. -/
abbrev Sha1Context := Context Words 64

def sha1F0 (b c d : BitVec 32) : BitVec 32 := (b &&& c) ||| (~~~b &&& d)

def sha1F1 (b c d : BitVec 32) : BitVec 32 := b ^^^ c ^^^ d

def sha1F2 (b c d : BitVec 32) : BitVec 32 := (b &&& c) ||| (b &&& d) ||| (c &&& d)

def sha1F3 (b c d : BitVec 32) : BitVec 32 := b ^^^ c ^^^ d

/-- `SHA1_ROUND`. -/
def sha1Round (f : BitVec 32 → BitVec 32 → BitVec 32 → BitVec 32) (k : BitVec 32)
    (st : Words) (wi : BitVec 32) : Words where
  a := rotl32 st.a 5 + f st.b st.c st.d + st.e + wi + k
  b := st.a
  c := rotl32 st.b 30
  d := st.c
  e := st.d

/-- The array `W` of `sha1_process_block`; `src` has the 64 bytes of a block. -/
def sha1Schedule (src : List UInt8) : List (BitVec 32) :=
  (List.range' 16 64).foldl
    (fun w i => w ++ [rotl32 (w.getD (i - 3) 0 ^^^ w.getD (i - 8) 0 ^^^ w.getD (i - 14) 0 ^^^
      w.getD (i - 16) 0) 1])
    ((List.range 16).map fun i => rotl32 (getUnalignedBe32 src (4 * i)) 1)

/-- `sha1_process_block`. -/
def sha1ProcessBlock (state : Words) (src : List UInt8) : Words :=
  let w := sha1Schedule src
  let st := (w.take 20).foldl (sha1Round sha1F0 0x5A827999) state
  let st := ((w.drop 20).take 20).foldl (sha1Round sha1F1 0x6ED9EBA1) st
  let st := ((w.drop 40).take 20).foldl (sha1Round sha1F2 0x8F1BBCDC) st
  let st := ((w.drop 60).take 20).foldl (sha1Round sha1F3 0xCA62C1D6) st
  { a := state.a + st.a, b := state.b + st.b, c := state.c + st.c, d := state.d + st.d,
    e := state.e + st.e }

section Functions

variable {σ : Type} (process : σ → List UInt8 → σ)

/-- One pass of the loop of `sha1_update`; `stop` is the offset of `end`, and `last`
is eight bytes before it. -/
def sha1UpdatePass (src : List UInt8) (stop : ℕ) (st : Md.ChunkState σ) :
    Exec (Pass (Md.ChunkState σ) (Md.ChunkState σ)) :=
  if st.data + 8 ≤ stop then do
    let block ← readBytes src st.data 64
    .ok (.next { data := st.data + 8 + 8, chain := process st.chain block })
  else .ok (.done st)

/-- `end - data`, as a `size_t`. -/
def sizeBehind (data stop : ℕ) : ℕ :=
  if data ≤ stop then stop - data else 2 ^ 64 - (data - stop)

/-- The loop of `sha1_update`, from `data` on, and the copy behind it. -/
def sha1UpdateBlocks (ctx : Context σ 64) (src : List UInt8) (data stop : ℕ) :
    Exec (Context σ 64) := do
  let st ← loop (sha1UpdatePass process src stop) (stop + 1) { data := data, chain := ctx.chain }
  let tail ← ctx.tail.copy 0 src st.data (sizeBehind st.data stop)
  .ok { ctx with chain := st.chain, tail := tail }

/-- `sha1_update`, for any function in the place of `sha1_process_block`. -/
def sha1UpdateWith (ctx : Context σ 64) (src : List UInt8) (size : ℕ) :
    Exec (Context σ 64) :=
  let used := (ctx.size &&& 63).toNat
  let ctx := { ctx with size := ctx.size + BitVec.ofNat 64 size }
  if used ≠ 0 then
    if size + used < 64 then do
      let tail ← ctx.tail.copy used src 0 size
      .ok { ctx with tail := tail }
    else do
      let tail ← ctx.tail.copy used src 0 (64 - used)
      let ctx := { ctx with chain := process ctx.chain tail.bytes, tail := tail }
      sha1UpdateBlocks process ctx src size size
  else sha1UpdateBlocks process ctx src 0 size

/-- The padding of `sha1_finalize`, and the block it processes. -/
def sha1FinishWith (ctx : Context σ 64) : Exec σ := do
  let used := (ctx.size &&& 63).toNat
  let tail ← ctx.tail.write used [128]
  let used := used + 1
  let (tail, used) ←
    (if used > 56 then do
      let tail ← tail.zero used (64 - used)
      .ok (tail, 0)
    else .ok (tail, used) : Exec (Buffer 64 × ℕ))
  let tail ← tail.zero used (56 - used)
  let tail ← tail.write 56 (beBytes 8 ctx.size)
  .ok (process ctx.chain tail.bytes)

end Functions

/-- `SHA1_DIGEST_LEN`. -/
def sha1DigestLen : ℕ := 20

/-- `sha1_init`; the tail keeps its bytes. -/
def sha1Init (ctx : Sha1Context) : Sha1Context :=
  { ctx with
    chain := { a := 0x67452301, b := 0xEFCDAB89, c := 0x98BADCFE, d := 0x10325476,
               e := 0xC3D2E1F0 }
    size := 0 }

def sha1Update (ctx : Sha1Context) (src : List UInt8) (size : ℕ) : Exec Sha1Context :=
  sha1UpdateWith sha1ProcessBlock ctx src size

def sha1Finalize (ctx : Sha1Context) (dest : List UInt8) : Exec (List UInt8) := do
  let chain ← sha1FinishWith sha1ProcessBlock ctx
  let dest ← putUnalignedBe32 chain.a dest 0
  let dest ← putUnalignedBe32 chain.b dest 4
  let dest ← putUnalignedBe32 chain.c dest 8
  let dest ← putUnalignedBe32 chain.d dest 12
  putUnalignedBe32 chain.e dest 16

/-- The blocks handed to `sha1_process_block` by the updates and by `sha1_finalize`,
from a fresh context on. -/
def sha1BlocksHanded (tail : Buffer 64) (chunks : List (List UInt8)) :
    Exec (List (List UInt8)) := do
  let ctx ← chunks.foldlM (fun ctx src => sha1UpdateWith recordBlock ctx src src.length)
    { chain := [], size := 0, tail := tail }
  sha1FinishWith recordBlock ctx

/-! ## What the standard asks for -/

/-- What the standard puts behind a message: the byte 128, zeros up to eight bytes
before the end of a block, and the length in bits. -/
def padding (m : List UInt8) : List UInt8 :=
  (128 : UInt8) :: List.replicate ((119 - m.length % 64) % 64) 0 ++
    beBytes 8 (BitVec.ofNat 64 (8 * m.length))

/-- The blocks of the padded message, whose length in bits is a 64-bit number. -/
def PaddedBlocks (m : List UInt8) (blocks : List (List UInt8)) : Prop :=
  8 * m.length < 2 ^ 64 ∧ blocks = blocksOf 64 (m ++ padding m)

/-- The blocks handed over are those of the padded message, and no access is outside its
object. -/
def HandsPadded (tail : Buffer 64) (chunks : List (List UInt8)) : Prop :=
  ∃ blocks, sha1BlocksHanded tail chunks = .ok blocks ∧ PaddedBlocks chunks.flatten blocks

theorem flatten_padded (m : List UInt8) :
    (blocksOf 64 (m ++ padding m)).flatten = m ++ padding m := by
  apply flatten_blocksOf (k := (m.length + (119 - m.length % 64) % 64 + 9) / 64) (by decide)
  rw [padding, List.length_append, List.length_append, List.length_cons, List.length_replicate,
    length_beBytes]
  omega

/-! ## The number that closes the last block -/

section Size

variable {σ : Type} {process : σ → List UInt8 → σ} {ctx ctx' : Context σ 64}

theorem sha1UpdateBlocks_size {src : List UInt8} {data stop : ℕ}
    (h : sha1UpdateBlocks process ctx src data stop = .ok ctx') : ctx'.size = ctx.size := by
  rw [sha1UpdateBlocks, Exec.bind_eq_ok] at h
  obtain ⟨st, -, h⟩ := h
  obtain ⟨tail, -, h⟩ := Exec.bind_eq_ok.mp h
  rw [← Except.ok.inj h]

theorem sha1UpdateWith_size {src : List UInt8} {size : ℕ}
    (h : sha1UpdateWith process ctx src size = .ok ctx') :
    ctx'.size = ctx.size + BitVec.ofNat 64 size := by
  simp only [sha1UpdateWith] at h
  split at h
  · split at h
    · obtain ⟨tail, -, h⟩ := Exec.bind_eq_ok.mp h
      rw [← Except.ok.inj h]
    · obtain ⟨tail, -, h⟩ := Exec.bind_eq_ok.mp h
      exact sha1UpdateBlocks_size h
  · exact sha1UpdateBlocks_size h

theorem foldlM_update_size {chunks : List (List UInt8)}
    (h : chunks.foldlM (fun ctx src => sha1UpdateWith process ctx src src.length) ctx =
      .ok ctx') : ctx'.size = ctx.size + BitVec.ofNat 64 chunks.flatten.length := by
  induction chunks generalizing ctx with
  | nil =>
      obtain rfl := Except.ok.inj h
      simp
  | cons c cs ih =>
      rw [List.foldlM_cons, Exec.bind_eq_ok] at h
      obtain ⟨mid, hfirst, hrest⟩ := h
      rw [ih hrest, sha1UpdateWith_size hfirst, List.flatten_cons, List.length_append,
        BitVec.ofNat_add, BitVec.add_assoc]

end Size

/-- The last block handed over ends with the number of bytes. -/
theorem sha1FinishWith_ends {ctx : Context (List (List UInt8)) 64}
    {blocks : List (List UInt8)} (h : sha1FinishWith recordBlock ctx = .ok blocks) :
    ∃ front, blocks.flatten = front ++ beBytes 8 ctx.size := by
  simp only [sha1FinishWith, Exec.bind_eq_ok] at h
  obtain ⟨_, -, ⟨_, _⟩, -, tail, -, last, hwrite, h⟩ := h
  have hlen : 56 + (beBytes 8 ctx.size).length = 64 := by rw [length_beBytes]
  obtain ⟨last', hwrite', hbytes⟩ := Buffer.write_append (rfl : tail.bytes.take 56 = _)
    (by decide) (Nat.le_of_eq hlen)
  obtain rfl := Except.ok.inj (hwrite.symm.trans hwrite')
  rw [hlen] at hbytes
  rw [← Except.ok.inj h, recordBlock, List.flatten_append, List.flatten_singleton,
    Buffer.bytes_eq_of_take hbytes, ← List.append_assoc]
  exact ⟨_, rfl⟩

/-- Handing over the padded message takes a message without bytes. -/
theorem flatten_eq_nil_of_handsPadded {tail : Buffer 64} {chunks : List (List UInt8)}
    (h : HandsPadded tail chunks) : chunks.flatten = [] := by
  obtain ⟨blocks, hrun, hbits, hblocks⟩ := h
  obtain ⟨ctx, hupdates, hfinish⟩ := Exec.bind_eq_ok.mp hrun
  have hsize := foldlM_update_size hupdates
  obtain ⟨front, hends⟩ := sha1FinishWith_ends hfinish
  rw [hblocks, flatten_padded, padding, ← List.append_assoc] at hends
  have hsuffix := (List.append_inj' hends (by rw [length_beBytes, length_beBytes])).2
  have hword := congrArg BitVec.toNat (beBytes_inj (w := 64) rfl hsuffix)
  rw [hsize, BitVec.toNat_ofNat, Nat.mod_eq_of_lt hbits] at hword
  have hcount : (0#64 + BitVec.ofNat 64 chunks.flatten.length).toNat = chunks.flatten.length := by
    rw [BitVec.zero_add, BitVec.toNat_ofNat]
    exact Nat.mod_eq_of_lt (by omega)
  have hword : 8 * chunks.flatten.length = chunks.flatten.length := hword.trans hcount
  exact List.eq_nil_of_length_eq_zero (by omega)

/-! ## Messages without bytes -/

/-- A call without bytes on a fresh context changes nothing that matters. -/
theorem sha1UpdateWith_nil {σ : Type} (process : σ → List UInt8 → σ) {ctx : Context σ 64}
    (hsize : ctx.size = 0) :
    ∃ ctx', sha1UpdateWith process ctx [] 0 = .ok ctx' ∧ ctx'.size = 0 ∧
      ctx'.chain = ctx.chain := by
  have hpass : sha1UpdatePass process [] 0 { data := 0, chain := ctx.chain } =
      .ok (.done { data := 0, chain := ctx.chain }) := rfl
  have hroom : 0 + ([] : List UInt8).length ≤ 64 := by decide
  obtain ⟨tail, hcopy, -⟩ := Buffer.write_append (rfl : ctx.tail.bytes.take 0 = _)
    (by decide) hroom
  have hread : readBytes [] 0 0 = .ok [] := rfl
  refine ⟨{ ctx with size := 0, tail := tail }, ?_, rfl, rfl⟩
  simp [sha1UpdateWith, hsize, sha1UpdateBlocks, loop_done hpass, Buffer.copy, sizeBehind, hread,
    hcopy]

theorem foldlM_update_nil {σ : Type} (process : σ → List UInt8 → σ)
    {chunks : List (List UInt8)} (hnil : ∀ c ∈ chunks, c = []) {ctx : Context σ 64}
    (hsize : ctx.size = 0) :
    ∃ ctx', chunks.foldlM (fun ctx src => sha1UpdateWith process ctx src src.length) ctx =
      .ok ctx' ∧ ctx'.size = 0 ∧ ctx'.chain = ctx.chain := by
  induction chunks generalizing ctx with
  | nil => exact ⟨ctx, rfl, hsize, rfl⟩
  | cons c cs ih =>
      obtain rfl := hnil c List.mem_cons_self
      obtain ⟨mid, hfirst, hmid, hchain⟩ := sha1UpdateWith_nil process hsize
      obtain ⟨ctx', hrest, hsize', hchain'⟩ :=
        ih (fun c hc => hnil c (List.mem_cons_of_mem _ hc)) hmid
      exact ⟨ctx', by rw [List.foldlM_cons, List.length_nil, hfirst, Exec.ok_bind, hrest], hsize',
        hchain'.trans hchain⟩

/-- From a context without bytes `sha1_finalize` hands over the padding. -/
theorem sha1FinishWith_nil {ctx : Context (List (List UInt8)) 64} (hsize : ctx.size = 0) :
    sha1FinishWith recordBlock ctx = .ok (ctx.chain ++ [padding []]) := by
  have hroom : 0 + ([128] : List UInt8).length ≤ 64 := by decide
  obtain ⟨one, hone, hbit⟩ := Buffer.write_append
    (List.take_zero : ctx.tail.bytes.take 0 = []) (by decide) hroom
  obtain ⟨zeroed, hclear, hzeroed⟩ := Buffer.zero_append (k := 55) hbit (by decide) (by decide)
  have hlengthroom : 56 + (beBytes 8 (0 : BitVec 64)).length ≤ 64 := by decide
  obtain ⟨last, hlength, hlast⟩ := Buffer.write_append hzeroed (by decide) hlengthroom
  have hbytes : last.bytes = padding [] := by
    apply Buffer.bytes_eq_of_take
    exact hlast
  replace hclear : one.zero 1 55 = .ok zeroed := hclear
  replace hlength : zeroed.write 56 (beBytes 8 0#64) = .ok last := hlength
  simp [sha1FinishWith, hsize, hone, hclear, hlength, recordBlock, hbytes]

/-- The blocks of the padded message are handed over, and no access is outside its object,
exactly for the message without bytes: the last block ends with the number of bytes,
where the standard has the number of bits. -/
theorem sha1_handsPadded (tail : Buffer 64) (chunks : List (List UInt8)) :
    HandsPadded tail chunks ↔ chunks.flatten = [] := by
  constructor
  · exact flatten_eq_nil_of_handsPadded
  · intro hnil
    have hchunks : ∀ c ∈ chunks, c = [] := List.flatten_eq_nil_iff.mp hnil
    obtain ⟨ctx, hrun, hsize, hchain⟩ := foldlM_update_nil recordBlock hchunks
      (rfl : (Context.mk ([] : List (List UInt8)) 0 tail).size = 0)
    refine ⟨[padding []], ?_, ?_⟩
    · rw [sha1BlocksHanded, hrun, Exec.ok_bind, sha1FinishWith_nil hsize, hchain]
      rfl
    · rw [hnil]
      exact ⟨by decide, by decide⟩

/-- One byte, and eight bytes in one call. -/
theorem sha1_handsPadded_fails :
    ¬ HandsPadded ⟨List.replicate 64 0, List.length_replicate⟩ [[0x61]] ∧
      sha1BlocksHanded ⟨List.replicate 64 0, List.length_replicate⟩
        [List.replicate 8 0x61] = .error .read := by
  refine ⟨?_, rfl⟩
  rintro ⟨blocks, hrun, -, hblocks⟩
  have hhanded : sha1BlocksHanded ⟨List.replicate 64 0, List.length_replicate⟩ [[0x61]] =
      .ok [0x61 :: 128 :: List.replicate 61 0 ++ [1]] := by decide
  rw [hblocks, hhanded, Except.ok.injEq] at hrun
  revert hrun
  decide

/-! ## Calls on an empty tail -/

/-- The loop reads a whole block at every step, up to eight bytes before the end, and so
outside the source. -/
theorem sha1UpdatePass_loop {σ : Type} (process : σ → List UInt8 → σ) {src : List UInt8}
    {budget data : ℕ} {chain : σ} (hdata : data + 8 ≤ src.length)
    (hbudget : src.length < data + budget) :
    loop (sha1UpdatePass process src src.length) budget { data := data, chain := chain } =
      .error .read := by
  induction budget generalizing data chain with
  | zero => omega
  | succ budget ih =>
      by_cases hread : data + 64 ≤ src.length
      · have hpass : sha1UpdatePass process src src.length { data := data, chain := chain } =
            .ok (.next { data := data + 8 + 8,
                         chain := process chain ((src.drop data).take 64) }) := by
          rw [sha1UpdatePass, if_pos hdata, readBytes_of_le hread, Exec.ok_bind]
        rw [loop_next hpass]
        exact ih (by omega) (by omega)
      · apply loop_error
        rw [sha1UpdatePass, if_pos hdata, readBytes, if_neg hread, Exec.error_bind]

/-- With nothing in the tail, a call with eight bytes or more reads outside its source. -/
theorem sha1UpdateWith_reads_outside {σ : Type} (process : σ → List UInt8 → σ)
    {ctx : Context σ 64} (hused : (ctx.size &&& 63).toNat = 0) {src : List UInt8}
    (hsrc : 8 ≤ src.length) : sha1UpdateWith process ctx src src.length = .error .read := by
  simp only [sha1UpdateWith, hused, ne_eq, not_true_eq_false, if_false, sha1UpdateBlocks]
  rw [sha1UpdatePass_loop process (by omega) (by omega), Exec.error_bind]

end Hlibc.Sha1
