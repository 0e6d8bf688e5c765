import Hlibc.Support.Blocks
import Hlibc.Support.Memory
import Mathlib.Algebra.Order.Group.Nat
import Mathlib.Data.Nat.ModEq

/-!
# The update functions of the MD family

`md2_update`, `md4_update` and `md5_update` are one function at three block
sizes.  This module has that function, what it does to the context, and when a
sequence of calls hands over the same blocks as a single call.
-/

set_option autoImplicit false

namespace Hlibc.Md

/-! ## The function of the source -/

/-- A context: the chaining state, the number of bytes fed, and the bytes of
the incomplete block. -/
structure Context (σ : Type) (B : ℕ) where
  chain : σ
  size : BitVec 64
  tail : Buffer B

/-- A block size, with the mask that the source takes the size modulo it by. -/
structure Geometry where
  block : ℕ
  mask : BitVec 64
  block_pos : 0 < block
  block_dvd : block ∣ 2 ^ 64
  used_eq : ∀ size : BitVec 64, (size &&& mask).toNat = size.toNat % block

/-- The variables of the loop over full blocks. -/
structure ChunkState (σ : Type) where
  data : ℕ
  chain : σ

section Functions

variable {σ : Type} (g : Geometry) (process : σ → List UInt8 → σ)

/-- One pass of the loop over full blocks; `stop` is the offset of `end`. -/
def chunkPass (src : List UInt8) (stop : ℕ) (st : ChunkState σ) :
    Exec (Pass (ChunkState σ) (ChunkState σ)) :=
  if st.data + g.block ≤ stop then do
    let block ← readBytes src st.data g.block
    .ok (.next { data := st.data + g.block, chain := process st.chain block })
  else .ok (.done st)

/-- The full blocks from `data` on, and then the bytes left for the tail. -/
def updateChunks (ctx : Context σ g.block) (src : List UInt8) (data stop : ℕ) :
    Exec (Context σ g.block) := do
  let st ← loop (chunkPass g process src stop) (stop + 1)
    { data := data, chain := ctx.chain }
  let tail ← ctx.tail.copy 0 src st.data (stop - st.data)
  .ok { ctx with chain := st.chain, tail := tail }

/-- The update function.  A tail that becomes complete is not processed. -/
def update (ctx : Context σ g.block) (src : List UInt8) (size : ℕ) :
    Exec (Context σ g.block) :=
  let used := (ctx.size &&& g.mask).toNat
  let ctx := { ctx with size := ctx.size + BitVec.ofNat 64 size }
  if used ≠ 0 then
    let comp := g.block - used
    if size < comp then do
      let tail ← ctx.tail.copy used src 0 size
      .ok { ctx with tail := tail }
    else do
      let tail ← ctx.tail.copy used src 0 comp
      updateChunks g process { ctx with tail := tail } src comp size
  else updateChunks g process ctx src 0 size

/-- A sequence of calls of the update function. -/
def updates (ctx : Context σ g.block) (chunks : List (List UInt8)) :
    Exec (Context σ g.block) :=
  chunks.foldlM (fun ctx src => update g process ctx src src.length) ctx

end Functions

/-! ## What a call does -/

/-- The context after the bytes `s`: their number, and in the tail those behind
the last full block. -/
structure Holds (g : Geometry) {σ : Type} (ctx : Context σ g.block)
    (s : List UInt8) : Prop where
  size_eq : ctx.size = BitVec.ofNat 64 s.length
  tail_eq : ctx.tail.bytes.take (s.length % g.block) = leftover g.block s

/-- The blocks that a call hands over after `n` bytes: those behind the bytes
that complete the tail. -/
def handed (B n : ℕ) (src : List UInt8) : List (List UInt8) :=
  blocksOf B (src.drop ((B - n % B) % B))

theorem handed_zero (B : ℕ) (src : List UInt8) : handed B 0 src = blocksOf B src := by
  rw [handed, Nat.zero_mod, Nat.sub_zero, Nat.mod_self, List.drop_zero]

section Spec

variable {g : Geometry} {σ : Type} (process : σ → List UInt8 → σ)

theorem Holds.used {ctx : Context σ g.block} {s : List UInt8} (h : Holds g ctx s) :
    (ctx.size &&& g.mask).toNat = s.length % g.block := by
  rw [g.used_eq, h.size_eq, BitVec.toNat_ofNat, Nat.mod_mod_of_dvd _ g.block_dvd]

theorem holds_nil {ctx : Context σ g.block} (hsize : ctx.size = 0) : Holds g ctx [] where
  size_eq := hsize
  tail_eq := by rw [List.length_nil, Nat.zero_mod, List.take_zero, leftover_nil]

theorem chunk_loop {src : List UInt8} {data : ℕ} {chain : σ} {budget : ℕ}
    (hdata : data ≤ src.length) (hbudget : src.length - data < budget) :
    loop (chunkPass g process src src.length) budget { data := data, chain := chain } =
      .ok { data := data + g.block * ((src.length - data) / g.block),
            chain := (blocksOf g.block (src.drop data)).foldl process chain } := by
  have hB := g.block_pos
  induction budget generalizing data chain with
  | zero => exact absurd hbudget (Nat.not_lt_zero _)
  | succ budget ih =>
      by_cases hfull : data + g.block ≤ src.length
      · have hpass : chunkPass g process src src.length { data := data, chain := chain } =
            .ok (.next { data := data + g.block,
                         chain := process chain ((src.drop data).take g.block) }) := by
          rw [chunkPass, if_pos hfull, readBytes_of_le hfull, Exec.ok_bind]
        have hblock : ((src.drop data).take g.block).length = g.block := by
          rw [List.length_take, List.length_drop]
          omega
        have hsplit : src.drop data =
            (src.drop data).take g.block ++ src.drop (data + g.block) := by
          rw [← List.drop_drop, List.take_append_drop]
        have hquot : (src.length - data) / g.block =
            (src.length - (data + g.block)) / g.block + 1 := by
          rw [← Nat.add_div_right _ hB]
          congr 1
          omega
        rw [loop_next hpass, ih hfull (by omega), hsplit, blocksOf_block hB hblock,
          List.foldl_cons, hquot, Nat.mul_succ, ← hsplit]
        congr 2
        omega
      · have hpass : chunkPass g process src src.length { data := data, chain := chain } =
            .ok (.done { data := data, chain := chain }) := if_neg hfull
        have hshort : (src.drop data).length < g.block := by
          rw [List.length_drop]
          omega
        rw [loop_done hpass, blocksOf_of_lt hshort,
          Nat.div_eq_of_lt (by rwa [List.length_drop] at hshort)]
        rfl

/-- From `data` on, the blocks are processed and the rest goes to the tail. -/
theorem updateChunks_spec (ctx : Context σ g.block) {src : List UInt8} {data : ℕ}
    (hdata : data ≤ src.length) :
    ∃ ctx', updateChunks g process ctx src data src.length = .ok ctx' ∧
      ctx'.size = ctx.size ∧
      ctx'.chain = (blocksOf g.block (src.drop data)).foldl process ctx.chain ∧
      ctx'.tail.bytes.take ((src.drop data).length % g.block) =
        leftover g.block (src.drop data) := by
  set quot := (src.length - data) / g.block with hquot
  have hdiv : g.block * quot + (src.length - data) % g.block = src.length - data :=
    Nat.div_add_mod _ _
  have hmod : (src.length - data) % g.block < g.block := Nat.mod_lt _ g.block_pos
  have hread : readBytes src (data + g.block * quot)
      (src.length - (data + g.block * quot)) = .ok (leftover g.block (src.drop data)) := by
    rw [readBytes_of_le (by omega), leftover, List.drop_drop, List.length_drop, ← hquot,
      List.take_of_length_le (by rw [List.length_drop])]
  have hrest : (leftover g.block (src.drop data)).length =
      (src.drop data).length % g.block := length_leftover _
  rw [List.length_drop] at hrest ⊢
  have hroom : 0 + (leftover g.block (src.drop data)).length ≤ g.block := by omega
  obtain ⟨tail, hwrite, htail⟩ := Buffer.write_append
    (List.take_zero : ctx.tail.bytes.take 0 = []) (Nat.zero_le _) hroom
  rw [Nat.zero_add, hrest, List.nil_append] at htail
  refine ⟨{ ctx with chain := (blocksOf g.block (src.drop data)).foldl process ctx.chain,
                     tail := tail }, ?_, rfl, rfl, htail⟩
  rw [updateChunks, chunk_loop process hdata (by omega), Exec.ok_bind, Buffer.copy]
  simp only
  rw [hread, Exec.ok_bind, hwrite, Exec.ok_bind]

/-- Nothing in the tail: the call works on its own bytes only. -/
theorem update_empty {ctx : Context σ g.block} {s : List UInt8} (h : Holds g ctx s)
    (hused : s.length % g.block = 0) (src : List UInt8) :
    ∃ ctx', update g process ctx src src.length = .ok ctx' ∧
      Holds g ctx' (s ++ src) ∧
      ctx'.chain = (handed g.block s.length src).foldl process ctx.chain := by
  obtain ⟨ctx', hrun, hsize, hchain, htail⟩ := updateChunks_spec
    process { ctx with size := ctx.size + BitVec.ofNat 64 src.length }
    (Nat.zero_le src.length)
  rw [List.drop_zero] at hchain htail
  refine ⟨ctx', ?_, ⟨?_, ?_⟩, ?_⟩
  · simp only [update, h.used, hused]
    exact hrun
  · rw [hsize, List.length_append, BitVec.ofNat_add]
    exact congrArg (· + _) h.size_eq
  · rw [leftover_append_of_dvd g.block_pos hused, List.length_append, Nat.add_mod, hused,
      Nat.zero_add, Nat.mod_mod, htail]
  · rw [hchain, handed, hused, Nat.sub_zero, Nat.mod_self, List.drop_zero]

/-- The bytes do not complete the tail: they are only stored. -/
theorem update_short {ctx : Context σ g.block} {s : List UInt8} (h : Holds g ctx s)
    {src : List UInt8} (hused : s.length % g.block ≠ 0)
    (hshort : src.length < g.block - s.length % g.block) :
    ∃ ctx', update g process ctx src src.length = .ok ctx' ∧
      Holds g ctx' (s ++ src) ∧
      ctx'.chain = (handed g.block s.length src).foldl process ctx.chain := by
  have hread : readBytes src 0 src.length = .ok src := by
    rw [readBytes_of_le (by omega), List.drop_zero, List.take_length]
  obtain ⟨tail, hwrite, htail⟩ := Buffer.write_append h.tail_eq
    (Nat.le_of_lt (Nat.mod_lt _ g.block_pos))
    (by omega : s.length % g.block + src.length ≤ g.block)
  have hmod : (s.length % g.block + src.length) % g.block =
      s.length % g.block + src.length := Nat.mod_eq_of_lt (by omega)
  refine ⟨{ ctx with size := ctx.size + BitVec.ofNat 64 src.length, tail := tail },
    ?_, ⟨?_, ?_⟩, ?_⟩
  · simp only [update, h.used, if_pos hused, if_pos hshort, Buffer.copy, hread,
      Exec.ok_bind, hwrite]
  · rw [List.length_append, BitVec.ofNat_add]
    exact congrArg (· + _) h.size_eq
  · rw [leftover_append_leftover g.block_pos, leftover_of_lt, List.length_append,
      ← Nat.mod_add_mod, hmod, htail]
    rw [List.length_append, length_leftover]
    omega
  · have hgap : (g.block - s.length % g.block) % g.block =
        g.block - s.length % g.block := Nat.mod_eq_of_lt (by omega)
    rw [handed, hgap, List.drop_of_length_le (Nat.le_of_lt hshort), blocksOf_nil]
    rfl

/-- The bytes complete the tail: it is filled, and the call goes on behind the
bytes that filled it. -/
theorem update_full {ctx : Context σ g.block} {s : List UInt8} (h : Holds g ctx s)
    {src : List UInt8} (hused : s.length % g.block ≠ 0)
    (hfull : g.block - s.length % g.block ≤ src.length) :
    ∃ ctx', update g process ctx src src.length = .ok ctx' ∧
      Holds g ctx' (s ++ src) ∧
      ctx'.chain = (handed g.block s.length src).foldl process ctx.chain := by
  have hlt : s.length % g.block < g.block := Nat.mod_lt _ g.block_pos
  have hread : readBytes src 0 (g.block - s.length % g.block) =
      .ok (src.take (g.block - s.length % g.block)) := by
    rw [readBytes_of_le (by omega), List.drop_zero]
  have hcomp : (src.take (g.block - s.length % g.block)).length =
      g.block - s.length % g.block := by
    rw [List.length_take, Nat.min_eq_left hfull]
  obtain ⟨tail, hwrite, -⟩ := Buffer.write_append h.tail_eq (Nat.le_of_lt hlt)
    (by rw [hcomp]; omega)
  obtain ⟨ctx', hrun, hsize, hchain, htail⟩ := updateChunks_spec process
    { ctx with size := ctx.size + BitVec.ofNat 64 src.length, tail := tail } hfull
  have hblock : (leftover g.block s ++
      src.take (g.block - s.length % g.block)).length % g.block = 0 := by
    rw [List.length_append, length_leftover, hcomp, Nat.add_sub_cancel' (by omega),
      Nat.mod_self]
  have hsplit : leftover g.block s ++ src =
      (leftover g.block s ++ src.take (g.block - s.length % g.block)) ++
        src.drop (g.block - s.length % g.block) := by
    rw [List.append_assoc, List.take_append_drop]
  refine ⟨ctx', ?_, ⟨?_, ?_⟩, ?_⟩
  · simp only [update, h.used, if_pos hused, if_neg (Nat.not_lt.mpr hfull), Buffer.copy,
      hread, Exec.ok_bind, hwrite]
    exact hrun
  · rw [hsize, List.length_append, BitVec.ofNat_add]
    exact congrArg (· + _) h.size_eq
  · have hlen : (s ++ src).length % g.block =
        (src.drop (g.block - s.length % g.block)).length % g.block := by
      have hleft := congrArg (fun l => l.length % g.block) hsplit
      rw [List.length_append, length_leftover, Nat.mod_add_mod, ← List.length_append] at hleft
      rw [hleft, List.length_append, Nat.add_mod, hblock, Nat.zero_add, Nat.mod_mod]
    rw [leftover_append_leftover g.block_pos, hsplit,
      leftover_append_of_dvd g.block_pos hblock, hlen, htail]
  · have hgap : (g.block - s.length % g.block) % g.block =
        g.block - s.length % g.block := Nat.mod_eq_of_lt (by omega)
    rw [hchain, handed, hgap]

/-- A call extends the stream, and processes the blocks it hands over. -/
theorem update_spec {ctx : Context σ g.block} {s : List UInt8} (h : Holds g ctx s)
    (src : List UInt8) :
    ∃ ctx', update g process ctx src src.length = .ok ctx' ∧
      Holds g ctx' (s ++ src) ∧
      ctx'.chain = (handed g.block s.length src).foldl process ctx.chain := by
  by_cases hused : s.length % g.block = 0
  · exact update_empty process h hused src
  · by_cases hshort : src.length < g.block - s.length % g.block
    · exact update_short process h hused hshort
    · exact update_full process h hused (Nat.le_of_not_lt hshort)

/-- All the blocks that a sequence of calls hands over after `n` bytes. -/
def handedAll (B : ℕ) : ℕ → List (List UInt8) → List (List UInt8)
  | _, [] => []
  | n, c :: cs => handed B n c ++ handedAll B (n + c.length) cs

/-- A sequence of calls, from any context that the stream so far explains. -/
theorem updates_spec {ctx : Context σ g.block} {s : List UInt8} (h : Holds g ctx s)
    (chunks : List (List UInt8)) :
    ∃ ctx', updates g process ctx chunks = .ok ctx' ∧
      Holds g ctx' (s ++ chunks.flatten) ∧
      ctx'.chain = (handedAll g.block s.length chunks).foldl process ctx.chain := by
  induction chunks generalizing ctx s with
  | nil =>
      refine ⟨ctx, rfl, ?_, rfl⟩
      rwa [List.flatten_nil, List.append_nil]
  | cons c cs ih =>
      obtain ⟨mid, hfirst, hmid, hmidchain⟩ := update_spec process h c
      obtain ⟨ctx', hrest, hctx', hchain⟩ := ih hmid
      refine ⟨ctx', ?_, ?_, ?_⟩
      · rw [updates, List.foldlM_cons, hfirst, Exec.ok_bind]
        exact hrest
      · rwa [List.flatten_cons, ← List.append_assoc]
      · rw [hchain, hmidchain, handedAll, List.foldl_append, List.length_append]

end Spec

/-! ## When no block is lost -/

/-- Every call finds the tail empty, or leaves it incomplete. -/
def KeepsTails (B : ℕ) : ℕ → List (List UInt8) → Prop
  | _, [] => True
  | n, c :: cs =>
      (n % B = 0 ∨ n % B + c.length < B) ∧ KeepsTails B (n + c.length) cs

instance KeepsTails.decidable (B : ℕ) :
    ∀ n chunks, Decidable (KeepsTails B n chunks)
  | _, [] => isTrue trivial
  | n, c :: cs =>
      have := KeepsTails.decidable B (n + c.length) cs
      inferInstanceAs (Decidable (_ ∧ _))

section Blocks

variable {B : ℕ} (hB : 0 < B)

include hB

/-- A call that does not complete a tail hands over the blocks it adds. -/
theorem blocksOf_append_handed {s c : List UInt8}
    (hkeep : s.length % B = 0 ∨ s.length % B + c.length < B) :
    blocksOf B s ++ handed B s.length c = blocksOf B (s ++ c) := by
  rw [blocksOf_append_leftover hB s c]
  congr 1
  rcases hkeep with hzero | hshort
  · have hnil : leftover B s = [] := by
      apply List.eq_nil_of_length_eq_zero
      rw [length_leftover, hzero]
    rw [handed, hzero, Nat.sub_zero, Nat.mod_self, List.drop_zero, hnil, List.nil_append]
  · have hnone : blocksOf B (leftover B s ++ c) = [] := by
      apply blocksOf_of_lt
      rwa [List.length_append, length_leftover]
    rw [hnone, handed]
    apply blocksOf_of_lt
    rw [List.length_drop]
    omega

/-- Number of blocks: a call never hands over more than it adds, and exactly as
many only when it does not complete a tail. -/
theorem length_handed (n : ℕ) (c : List UInt8) :
    n / B + (handed B n c).length ≤ (n + c.length) / B ∧
      (n / B + (handed B n c).length = (n + c.length) / B →
        n % B = 0 ∨ n % B + c.length < B) := by
  have hsum : (n + c.length) / B = n / B + (n % B + c.length) / B := by
    conv_lhs => rw [← Nat.div_add_mod n B, Nat.add_assoc, Nat.mul_add_div hB]
  have hlt : n % B < B := Nat.mod_lt _ hB
  rw [hsum, handed, length_blocksOf, List.length_drop]
  by_cases hzero : n % B = 0
  · rw [hzero, Nat.sub_zero, Nat.mod_self, Nat.sub_zero, Nat.zero_add]
    exact ⟨Nat.le_refl _, fun _ => Or.inl rfl⟩
  · have hgap : (B - n % B) % B = B - n % B := Nat.mod_eq_of_lt (by omega)
    rw [hgap]
    by_cases hshort : n % B + c.length < B
    · have hnone : c.length - (B - n % B) = 0 := by omega
      rw [hnone, Nat.zero_div, Nat.div_eq_of_lt hshort]
      exact ⟨Nat.le_refl _, fun _ => Or.inr hshort⟩
    · have hmore : n % B + c.length = c.length - (B - n % B) + B := by omega
      rw [hmore, Nat.add_div_right _ hB]
      exact ⟨by omega, fun h => by omega⟩

theorem length_handedAll (n : ℕ) (chunks : List (List UInt8)) :
    n / B + (handedAll B n chunks).length ≤ (n + chunks.flatten.length) / B ∧
      (n / B + (handedAll B n chunks).length = (n + chunks.flatten.length) / B →
        KeepsTails B n chunks) := by
  induction chunks generalizing n with
  | nil => exact ⟨Nat.le_refl _, fun _ => trivial⟩
  | cons c cs ih =>
      obtain ⟨hfirst, hkeep⟩ := length_handed hB n c
      obtain ⟨hrest, hkeeps⟩ := ih (n + c.length)
      rw [handedAll, List.length_append, List.flatten_cons, List.length_append,
        ← Nat.add_assoc, ← Nat.add_assoc]
      refine ⟨by omega, fun h => ⟨hkeep (by omega), hkeeps (by omega)⟩⟩

theorem blocksOf_append_handedAll {s : List UInt8} {chunks : List (List UInt8)}
    (hkeeps : KeepsTails B s.length chunks) :
    blocksOf B s ++ handedAll B s.length chunks = blocksOf B (s ++ chunks.flatten) := by
  induction chunks generalizing s with
  | nil => rw [handedAll, List.flatten_nil, List.append_nil, List.append_nil]
  | cons c cs ih =>
      obtain ⟨hkeep, hrest⟩ := hkeeps
      rw [← List.length_append] at hrest
      rw [handedAll, ← List.append_assoc, blocksOf_append_handed hB hkeep,
        ← List.length_append, ih hrest, List.flatten_cons, List.append_assoc]

/-- From an empty stream, a sequence of calls hands over the blocks of the
concatenation exactly when no call completes a tail. -/
theorem handedAll_eq_blocksOf (chunks : List (List UInt8)) :
    handedAll B 0 chunks = blocksOf B chunks.flatten ↔ KeepsTails B 0 chunks := by
  constructor
  · intro h
    apply (length_handedAll hB 0 chunks).2
    rw [h, length_blocksOf, Nat.zero_div, Nat.zero_add, Nat.zero_add]
  · intro h
    have hall := blocksOf_append_handedAll (s := []) hB h
    rwa [blocksOf_nil, List.nil_append, List.nil_append] at hall

end Blocks

/-! ## Equal contexts -/

section Agree

variable {g : Geometry} {σ : Type}

/-- Two contexts agree on everything that a call can still read. -/
structure Agree (g : Geometry) (ctx ctx' : Context σ g.block) : Prop where
  chain_eq : ctx.chain = ctx'.chain
  size_eq : ctx.size = ctx'.size
  tail_eq : ctx.tail.bytes.take (ctx.size &&& g.mask).toNat =
    ctx'.tail.bytes.take (ctx'.size &&& g.mask).toNat

/-- A sequence of calls that completes no tail leaves a context that agrees with
the one a single call leaves. -/
theorem updates_agree (process : σ → List UInt8 → σ) {ctx : Context σ g.block} (hctx : ctx.size = 0)
    {chunks : List (List UInt8)} (hkeeps : KeepsTails g.block 0 chunks) :
    ∃ many one, updates g process ctx chunks = .ok many ∧
      update g process ctx chunks.flatten chunks.flatten.length = .ok one ∧
      Agree g many one := by
  obtain ⟨many, hmany, hholds, hchain⟩ := updates_spec process (holds_nil hctx) chunks
  obtain ⟨one, hone, hholds', hchain'⟩ := update_spec process (holds_nil hctx) chunks.flatten
  refine ⟨many, one, hmany, hone, ⟨?_, ?_, ?_⟩⟩
  · have hall : handedAll g.block 0 chunks = blocksOf g.block chunks.flatten :=
      (handedAll_eq_blocksOf g.block_pos chunks).mpr hkeeps
    rw [hchain, hchain', List.length_nil, handed_zero, hall]
  · rw [hholds.size_eq, hholds'.size_eq]
  · rw [hholds.used, hholds'.used, hholds.tail_eq, hholds'.tail_eq]

/-- The list of the blocks handed over, as the chaining state. -/
def recordBlock (log : List (List UInt8)) (block : List UInt8) : List (List UInt8) :=
  log ++ [block]

theorem foldl_recordBlock (log blocks : List (List UInt8)) :
    blocks.foldl recordBlock log = log ++ blocks := by
  induction blocks generalizing log with
  | nil => rw [List.foldl_nil, List.append_nil]
  | cons b bs ih =>
      rw [List.foldl_cons, ih, recordBlock, List.append_assoc, List.singleton_append]

/-- The blocks that the calls of a sequence hand over from a fresh context on. -/
def blocksHanded (g : Geometry) (tail : Buffer g.block) (chunks : List (List UInt8)) :
    Exec (List (List UInt8)) :=
  Context.chain <$> updates g recordBlock { chain := [], size := 0, tail := tail } chunks

theorem blocksHanded_eq (g : Geometry) (tail : Buffer g.block)
    (chunks : List (List UInt8)) :
    blocksHanded g tail chunks = .ok (handedAll g.block 0 chunks) := by
  obtain ⟨ctx, hrun, -, hchain⟩ := updates_spec recordBlock
    (holds_nil (rfl : (Context.mk ([] : List (List UInt8)) 0 tail).size = 0)) chunks
  rw [blocksHanded, hrun, Exec.map_ok, hchain, foldl_recordBlock, List.nil_append]
  rfl

/-- The blocks handed over are those of a single call exactly when no call
completes a tail. -/
theorem blocksHanded_iff (g : Geometry) (tail : Buffer g.block)
    (chunks : List (List UInt8)) :
    blocksHanded g tail chunks = blocksHanded g tail [chunks.flatten] ↔
      KeepsTails g.block 0 chunks := by
  have hsingle : handedAll g.block 0 [chunks.flatten] =
      blocksOf g.block chunks.flatten := by
    rw [handedAll, handedAll, handed_zero, List.append_nil]
  rw [blocksHanded_eq, blocksHanded_eq, hsingle, Except.ok.injEq,
    handedAll_eq_blocksOf g.block_pos]

end Agree

end Hlibc.Md
