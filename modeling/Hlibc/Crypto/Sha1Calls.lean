import Hlibc.Crypto.Sha1

/-!
# The calls that `sha1_update` is made for

The loop of `sha1_update` reads outside its source where it runs at all, and what a call holds
behind the byte that completes the tail is dropped.  So the function works on streams that are
fed so that every block is begun by less than eight bytes and ended by the last byte of a
call, and on no others.
-/

set_option autoImplicit false

namespace Hlibc.Sha1

open Md (Context Holds geometry64 recordBlock)

/-! ## Calls and their sizes -/

/-- A call begins a block with less than eight bytes, or it goes on with one and does not pass
its end; `n` bytes were fed before. -/
def FitsCall (n size : ℕ) : Prop :=
  if n % 64 = 0 then size < 8 else n % 64 + size ≤ 64

instance (n size : ℕ) : Decidable (FitsCall n size) :=
  inferInstanceAs (Decidable (ite _ _ _))

/-- All calls of a sequence with these sizes do, from `n` bytes on. -/
def Fits : ℕ → List ℕ → Prop
  | _, [] => True
  | n, size :: sizes => FitsCall n size ∧ Fits (n + size) sizes

instance Fits.decidable : ∀ n sizes, Decidable (Fits n sizes)
  | _, [] => isTrue trivial
  | n, size :: sizes =>
      have := Fits.decidable (n + size) sizes
      inferInstanceAs (Decidable (_ ∧ _))

/-- The calls of `sha1_update` from a fresh context on, where the blocks handed over are
recorded. -/
def recordUpdates (tail : Buffer 64) (chunks : List (List UInt8)) :
    Exec (Context (List (List UInt8)) 64) :=
  chunks.foldlM (fun ctx src => sha1UpdateWith recordBlock ctx src src.length)
    { chain := [], size := 0, tail := tail }

/-- The calls hand over the full blocks of the stream, and the tail starts with what is behind
them. -/
def FeedsRight (tail : Buffer 64) (chunks : List (List UInt8)) : Prop :=
  ∃ ctx, recordUpdates tail chunks = .ok ctx ∧ ctx.chain = blocksOf 64 chunks.flatten ∧
    ctx.tail.bytes.take (chunks.flatten.length % 64) = leftover 64 chunks.flatten

/-- The last block that `sha1_finalize` hands over.  Where the bit does not leave room for the
length, the bytes of the message are zeroed. -/
def lastBlock (s : List UInt8) : List UInt8 :=
  (if s.length % 64 < 56 then
      leftover 64 s ++ 128 :: List.replicate (55 - s.length % 64) 0
    else List.replicate 56 0) ++ beBytes 8 (BitVec.ofNat 64 s.length)

/-- The words of a chaining state as bytes, most significant first. -/
def Words.bytes (w : Words) : List UInt8 :=
  beBytes 4 w.a ++ beBytes 4 w.b ++ beBytes 4 w.c ++ beBytes 4 w.d ++ beBytes 4 w.e

/-! ## What a call does -/

section Calls

variable {σ : Type} (process : σ → List UInt8 → σ)

/-- The tail after a call: what the source holds behind its end is dropped. -/
def filled (tail : List UInt8) (used : ℕ) (src : List UInt8) : List UInt8 :=
  tail.take used ++ src.take (64 - used) ++ tail.drop (used + src.length)

/-- With less than eight bytes from `data` on, nothing is processed. -/
theorem sha1UpdateBlocks_short {c : Context σ 64} {src : List UInt8} {data : ℕ}
    (hdata : data ≤ src.length) (hshort : src.length < data + 8) :
    ∃ tail : Buffer 64, sha1UpdateBlocks process c src data src.length =
        .ok { c with tail := tail } ∧
      tail.bytes = src.drop data ++ c.tail.bytes.drop (src.length - data) := by
  have hpass : sha1UpdatePass process src src.length { data := data, chain := c.chain } =
      .ok (.done { data := data, chain := c.chain }) := if_neg (Nat.not_le.mpr hshort)
  obtain ⟨tail, hcopy, htail⟩ := Buffer.copy_of_le (b := c.tail)
    (by omega : data + (src.length - data) ≤ src.length) (by omega : 0 + (src.length - data) ≤ 64)
  refine ⟨tail, ?_, ?_⟩
  · rw [sha1UpdateBlocks, loop_done hpass, Exec.ok_bind, sizeBehind, if_pos hdata, hcopy,
      Exec.ok_bind]
  · rw [htail, List.take_zero, List.nil_append, Nat.zero_add,
      List.take_of_length_le (by rw [List.length_drop])]

/-- A call that does not begin a block with eight bytes or more returns; it processes a block
exactly if it completes one that was begun before. -/
theorem sha1UpdateWith_spec {ctx : Context σ 64} {used : ℕ} (hused : (ctx.size &&& 63).toNat = used)
    {src : List UInt8} (hbegin : used = 0 → src.length < 8) :
    ∃ ctx', sha1UpdateWith process ctx src src.length = .ok ctx' ∧
      ctx'.size = ctx.size + BitVec.ofNat 64 src.length ∧
      ctx'.tail.bytes = filled ctx.tail.bytes used src ∧
      ctx'.chain = if used ≠ 0 ∧ 64 ≤ used + src.length then
        process ctx.chain (filled ctx.tail.bytes used src) else ctx.chain := by
  have hlt : used < 64 := by
    have hmod := geometry64.used_eq ctx.size
    change (ctx.size &&& 63).toNat = ctx.size.toNat % 64 at hmod
    omega
  by_cases hzero : used = 0
  · have hshort := hbegin hzero
    obtain ⟨tail, hrun, htail⟩ := sha1UpdateBlocks_short process
      (c := { ctx with size := ctx.size + BitVec.ofNat 64 src.length }) (Nat.zero_le src.length)
      (by omega)
    refine ⟨{ ctx with size := ctx.size + BitVec.ofNat 64 src.length, tail := tail }, ?_, rfl, ?_,
      (if_neg fun h => h.1 hzero).symm⟩
    · simp only [sha1UpdateWith, hused, hzero, ne_eq, not_true_eq_false, if_false]
      exact hrun
    · rw [htail, filled, hzero, List.take_zero, List.nil_append, List.drop_zero, Nat.sub_zero,
        Nat.zero_add, Nat.sub_zero, List.take_of_length_le (by omega)]
  · by_cases hshort : src.length + used < 64
    · obtain ⟨tail, hcopy, htail⟩ := Buffer.copy_of_le (b := ctx.tail)
        (by omega : 0 + src.length ≤ src.length) (by omega : used + src.length ≤ 64)
      refine ⟨{ ctx with size := ctx.size + BitVec.ofNat 64 src.length, tail := tail }, ?_, rfl, ?_,
        (if_neg fun h => by omega).symm⟩
      · simp only [sha1UpdateWith, hused, ne_eq, hzero, not_false_eq_true, if_true, hshort, hcopy,
          Exec.ok_bind]
      · rw [htail, filled, List.drop_zero, List.take_of_length_le (Nat.le_refl _),
          List.take_of_length_le (by omega : src.length ≤ 64 - used)]
    · obtain ⟨block, hcopy, hblock⟩ := Buffer.copy_of_le (b := ctx.tail)
        (by omega : 0 + (64 - used) ≤ src.length) (by omega : used + (64 - used) ≤ 64)
      have hlen := ctx.tail.length_bytes
      have hfilled : block.bytes = filled ctx.tail.bytes used src := by
        rw [hblock, filled, List.drop_zero, List.drop_of_length_le (by omega),
          List.drop_of_length_le (by omega)]
      obtain ⟨tail, hrun, htail⟩ := sha1UpdateBlocks_short process
        (c := { chain := process ctx.chain block.bytes,
                  size := ctx.size + BitVec.ofNat 64 src.length, tail := block })
        (Nat.le_refl src.length) (by omega)
      refine ⟨{ chain := process ctx.chain block.bytes,
                size := ctx.size + BitVec.ofNat 64 src.length, tail := tail }, ?_, rfl, ?_, ?_⟩
      · simp only [sha1UpdateWith, hused, ne_eq, hzero, not_false_eq_true, if_true, hshort,
          if_false, hcopy, Exec.ok_bind]
        exact hrun
      · rw [htail, List.drop_length, Nat.sub_self, List.drop_zero, List.nil_append, hfilled]
      · rw [if_pos ⟨hzero, by omega⟩, hfilled]

theorem sha1UpdateWith_fits {ctx : Context σ 64} {s src : List UInt8}
    (h : Holds geometry64 ctx s) (hfits : FitsCall s.length src.length) {chain : σ}
    (hchain : ctx.chain = (blocksOf 64 s).foldl process chain) :
    ∃ ctx', sha1UpdateWith process ctx src src.length = .ok ctx' ∧
      Holds geometry64 ctx' (s ++ src) ∧
      ctx'.chain = (blocksOf 64 (s ++ src)).foldl process chain := by
  have hleft : (leftover 64 s).length = s.length % 64 := length_leftover s
  have hsum : (s ++ src).length % 64 = (s.length % 64 + src.length) % 64 := by
    rw [List.length_append, Nat.mod_add_mod]
  have hbegin : s.length % 64 = 0 → src.length < 8 := by
    intro hzero
    rwa [FitsCall, if_pos hzero] at hfits
  have hroom : s.length % 64 + src.length ≤ 64 := by
    rw [FitsCall] at hfits
    split at hfits
    · omega
    · exact hfits
  have hused : (ctx.size &&& 63).toNat = s.length % 64 := h.used
  obtain ⟨ctx', hrun, hsize, htail, hchain'⟩ := sha1UpdateWith_spec process hused hbegin
  have hfilled : filled ctx.tail.bytes (s.length % 64) src =
      leftover 64 s ++ src ++ ctx.tail.bytes.drop (s.length % 64 + src.length) := by
    have hpending : ctx.tail.bytes.take (s.length % 64) = leftover 64 s := h.tail_eq
    rw [filled, hpending, List.take_of_length_le (by omega)]
  have hlen : (leftover 64 s ++ src).length = s.length % 64 + src.length := by
    rw [List.length_append, hleft]
  have hcount : ctx'.size = BitVec.ofNat 64 (s ++ src).length := by
    rw [hsize, h.size_eq, List.length_append, BitVec.ofNat_add]
  refine ⟨ctx', hrun, ⟨hcount, ?_⟩, ?_⟩
  · change ctx'.tail.bytes.take ((s ++ src).length % 64) = leftover 64 (s ++ src)
    rw [leftover_append_leftover (by decide), htail, hfilled, hsum, ← hlen]
    by_cases hfull : (leftover 64 s ++ src).length = 64
    · have hnone : leftover 64 (leftover 64 s ++ src) = [] :=
        List.eq_nil_of_length_eq_zero (by rw [length_leftover, hfull])
      rw [hfull, Nat.mod_self, List.take_zero, hnone]
    · have hlt : (leftover 64 s ++ src).length < 64 := by omega
      rw [Nat.mod_eq_of_lt hlt, leftover_of_lt hlt, List.take_left' rfl]
  · rw [hchain', blocksOf_append_leftover (by decide), List.foldl_append, ← hchain]
    by_cases hfull : (leftover 64 s ++ src).length = 64
    · have hblock : blocksOf 64 (leftover 64 s ++ src) = [leftover 64 s ++ src] := by
        have hone := blocksOf_block (by decide) hfull []
        rwa [List.append_nil, blocksOf_nil] at hone
      have hrest : ctx.tail.bytes.drop (s.length % 64 + src.length) = [] :=
        List.drop_of_length_le (by rw [ctx.tail.length_bytes]; omega)
      rw [if_pos (by omega), hblock, hfilled, hrest, List.append_nil]
      rfl
    · rw [if_neg (by omega), blocksOf_of_lt (by omega)]
      rfl

theorem foldlM_fits {chunks : List (List UInt8)} {ctx : Context σ 64} {s : List UInt8}
    (h : Holds geometry64 ctx s) (hfits : Fits s.length (chunks.map List.length)) {chain : σ}
    (hchain : ctx.chain = (blocksOf 64 s).foldl process chain) :
    ∃ ctx', chunks.foldlM (fun ctx src => sha1UpdateWith process ctx src src.length) ctx =
        .ok ctx' ∧
      Holds geometry64 ctx' (s ++ chunks.flatten) ∧
      ctx'.chain = (blocksOf 64 (s ++ chunks.flatten)).foldl process chain := by
  induction chunks generalizing ctx s with
  | nil => exact ⟨ctx, rfl, by simpa using h, by simpa using hchain⟩
  | cons c cs ih =>
      obtain ⟨hcall, hrest⟩ := hfits
      obtain ⟨mid, hfirst, hmid, hmidchain⟩ := sha1UpdateWith_fits process h hcall hchain
      rw [← List.length_append] at hrest
      obtain ⟨ctx', hruns, hctx', hchain'⟩ := ih hmid hrest hmidchain
      refine ⟨ctx', by rw [List.foldlM_cons, hfirst, Exec.ok_bind, hruns], ?_, ?_⟩
      · rwa [List.flatten_cons, ← List.append_assoc]
      · rwa [List.flatten_cons, ← List.append_assoc]

end Calls

/-! ## Calls that do not fit -/

/-- No byte other than 0 was handed over or is in the tail. -/
structure Zeroed (ctx : Context (List (List UInt8)) 64) : Prop where
  chain : ∀ b ∈ ctx.chain.flatten, b = 0
  tail : ∀ b ∈ ctx.tail.bytes, b = 0

/-- A call that returns and keeps of its source only zeros. -/
theorem Zeroed.step {ctx ctx' : Context (List (List UInt8)) 64} (h : Zeroed ctx) {used : ℕ}
    (hused : (ctx.size &&& 63).toNat = used) {src : List UInt8}
    (hsrc : ∀ b ∈ src.take (64 - used), b = 0)
    (hrun : sha1UpdateWith recordBlock ctx src src.length = .ok ctx') : Zeroed ctx' := by
  have hbegin : used = 0 → src.length < 8 := by
    intro hzero
    by_contra hlong
    rw [sha1UpdateWith_reads_outside recordBlock (hused.trans hzero) (by omega)] at hrun
    cases hrun
  obtain ⟨next, hrun', -, htail, hchain⟩ := sha1UpdateWith_spec recordBlock hused hbegin
  obtain rfl := Except.ok.inj (hrun'.symm.trans hrun)
  have hfilled : ∀ b ∈ filled ctx.tail.bytes used src, b = 0 := by
    intro b hb
    rcases List.mem_append.mp hb with hb | hb
    · rcases List.mem_append.mp hb with hb | hb
      · exact h.tail b (List.mem_of_mem_take hb)
      · exact hsrc b hb
    · exact h.tail b (List.mem_of_mem_drop hb)
  refine ⟨?_, by rwa [htail]⟩
  rw [hchain]
  split
  · intro b hb
    rw [recordBlock, List.flatten_append, List.flatten_singleton] at hb
    exact (List.mem_append.mp hb).elim (h.chain b) (hfilled b)
  · exact h.chain

theorem Zeroed.run {chunks : List (List UInt8)} (hchunks : ∀ b ∈ chunks.flatten, b = 0)
    {ctx ctx' : Context (List (List UInt8)) 64} (h : Zeroed ctx)
    (hrun : chunks.foldlM (fun ctx src => sha1UpdateWith recordBlock ctx src src.length) ctx =
      .ok ctx') : Zeroed ctx' := by
  induction chunks generalizing ctx with
  | nil =>
      obtain rfl := Except.ok.inj hrun
      exact h
  | cons c cs ih =>
      rw [List.foldlM_cons, Exec.bind_eq_ok] at hrun
      obtain ⟨mid, hfirst, hrest⟩ := hrun
      rw [List.flatten_cons, List.forall_mem_append] at hchunks
      exact ih hchunks.2 (h.step rfl (fun b hb => hchunks.1 b (List.mem_of_mem_take hb)) hfirst)
        hrest

/-- Where a call does not fit, there are sources of these sizes from which a byte is lost: the
calls before it hold zeros, and it passes the end of its block and holds a one behind it. -/
theorem exists_lost {sizes : List ℕ} {n : ℕ} (hnot : ¬ Fits n sizes)
    {ctx : Context (List (List UInt8)) 64} (hsize : ctx.size = BitVec.ofNat 64 n)
    (h : Zeroed ctx) :
    ∃ chunks : List (List UInt8), chunks.map List.length = sizes ∧
      ∀ ctx', chunks.foldlM (fun ctx src => sha1UpdateWith recordBlock ctx src src.length) ctx =
        .ok ctx' → Zeroed ctx' ∧ (1 : UInt8) ∈ chunks.flatten := by
  induction sizes generalizing n ctx with
  | nil => exact absurd trivial hnot
  | cons size sizes ih =>
      have hused : (ctx.size &&& 63).toNat = n % 64 := by
        rw [geometry64.used_eq ctx.size, hsize, BitVec.toNat_ofNat]
        exact Nat.mod_mod_of_dvd n (by decide)
      have hzeros : ∀ sizes : List ℕ,
          ∀ b ∈ (sizes.map fun size => List.replicate size (0 : UInt8)).flatten, b = 0 := by
        intro sizes b hb
        obtain ⟨l, hl, hb⟩ := List.mem_flatten.mp hb
        obtain ⟨size, -, rfl⟩ := List.mem_map.mp hl
        exact List.eq_of_mem_replicate hb
      have hlengths : ∀ sizes : List ℕ,
          (sizes.map fun size => List.replicate size (0 : UInt8)).map List.length = sizes := by
        intro sizes
        simp [Function.comp_def]
      by_cases hcall : FitsCall n size
      · have hlen : (List.replicate size (0 : UInt8)).length = size := List.length_replicate
        obtain ⟨mid, hrun, hmid, -, -⟩ := sha1UpdateWith_spec recordBlock hused
          (fun hzero => by rw [hlen]; rwa [FitsCall, if_pos hzero] at hcall)
        have hstep := h.step hused (fun b hb =>
          List.eq_of_mem_replicate (List.mem_of_mem_take hb)) hrun
        rw [hsize, hlen, ← BitVec.ofNat_add] at hmid
        obtain ⟨chunks, hsizes, hlost⟩ := ih (fun hfits => hnot ⟨hcall, hfits⟩) hmid hstep
        refine ⟨List.replicate size 0 :: chunks, by rw [List.map_cons, hlen, hsizes], ?_⟩
        intro ctx' hruns
        rw [List.foldlM_cons, hrun, Exec.ok_bind] at hruns
        obtain ⟨hzeroed, hone⟩ := hlost ctx' hruns
        exact ⟨hzeroed, List.mem_append_right _ hone⟩
      · by_cases hzero : n % 64 = 0
        · rw [FitsCall, if_pos hzero] at hcall
          refine ⟨(size :: sizes).map fun size => List.replicate size 0, hlengths _, ?_⟩
          intro ctx' hruns
          have hlong : 8 ≤ (List.replicate size (0 : UInt8)).length := by
            rw [List.length_replicate]
            omega
          have hread := sha1UpdateWith_reads_outside recordBlock (hused.trans hzero) hlong
          rw [List.map_cons, List.foldlM_cons, hread] at hruns
          cases hruns
        · rw [FitsCall, if_neg hzero] at hcall
          set src := List.replicate (64 - n % 64) (0 : UInt8) ++
            List.replicate (size - (64 - n % 64)) 1 with hsrc
          have hlen : src.length = size := by
            rw [hsrc, List.length_append, List.length_replicate, List.length_replicate]
            omega
          have hkept : ∀ b ∈ src.take (64 - n % 64), b = 0 := by
            rw [hsrc, List.take_left' List.length_replicate]
            exact fun b hb => List.eq_of_mem_replicate hb
          have hone : (1 : UInt8) ∈ src :=
            List.mem_append_right _ (List.mem_replicate.mpr ⟨by omega, rfl⟩)
          refine ⟨src :: sizes.map fun size => List.replicate size 0, ?_, ?_⟩
          · rw [List.map_cons, hlen, hlengths]
          · intro ctx' hruns
            rw [List.foldlM_cons, Exec.bind_eq_ok] at hruns
            obtain ⟨mid, hfirst, hrest⟩ := hruns
            exact ⟨(h.step hused hkept hfirst).run (hzeros sizes) hrest,
              List.mem_append_left _ hone⟩

/-! ## The end of a message -/

theorem sha1FinishWith_eq {σ : Type} (process : σ → List UInt8 → σ) {ctx : Context σ 64}
    {s : List UInt8} (h : Holds geometry64 ctx s) :
    sha1FinishWith process ctx = .ok (process ctx.chain (lastBlock s)) := by
  have hused : (ctx.size &&& 63).toNat = s.length % 64 := h.used
  have hlt : s.length % 64 < 64 := Nat.mod_lt _ (by decide)
  have hpending : ctx.tail.bytes.take (s.length % 64) = leftover 64 s := h.tail_eq
  have hsize : (beBytes 8 ctx.size).length = 8 := length_beBytes 8 ctx.size
  have hbit : s.length % 64 + [(128 : UInt8)].length ≤ 64 := hlt
  obtain ⟨one, hone, honetake⟩ := Buffer.write_append hpending (Nat.le_of_lt hlt) hbit
  replace honetake : one.bytes.take (s.length % 64 + 1) = leftover 64 s ++ [128] := honetake
  have hclose : ∀ {tail : Buffer 64} {front : List UInt8}, tail.bytes.take 56 = front →
      ∃ tail', tail.write 56 (beBytes 8 ctx.size) = .ok tail' ∧
        tail'.bytes = front ++ beBytes 8 ctx.size := by
    intro tail front hfront
    obtain ⟨tail', hwrite, hbytes⟩ := Buffer.write_append hfront (by decide)
      (by rw [hsize] : 56 + (beBytes 8 ctx.size).length ≤ 64)
    rw [hsize] at hbytes
    exact ⟨tail', hwrite, Buffer.bytes_eq_of_take hbytes⟩
  by_cases hroom : s.length % 64 < 56
  · obtain ⟨zeroed, hzero, hzeroed⟩ := Buffer.zero_append honetake hlt
      (by omega : s.length % 64 + 1 + (56 - (s.length % 64 + 1)) ≤ 64)
    rw [Nat.add_sub_cancel' hroom] at hzeroed
    obtain ⟨last, hlast, hbytes⟩ := hclose hzeroed
    have hlong : ¬ s.length % 64 + 1 > 56 := by omega
    simp only [sha1FinishWith, hused, hone, Exec.ok_bind, if_neg hlong, hzero, hlast]
    rw [hbytes, lastBlock, if_pos hroom, h.size_eq, List.append_assoc (leftover 64 s),
      Nat.sub_add_eq 56, Nat.sub_right_comm]
    rfl
  · obtain ⟨rest, hrest, -⟩ := Buffer.zero_append honetake hlt
      (by omega : s.length % 64 + 1 + (64 - (s.length % 64 + 1)) ≤ 64)
    obtain ⟨zeroed, hzero, hzeroed⟩ := Buffer.zero_append
      (List.take_zero : rest.bytes.take 0 = []) (Nat.zero_le _) (by decide : 0 + 56 ≤ 64)
    obtain ⟨last, hlast, hbytes⟩ := hclose hzeroed
    have hlong : s.length % 64 + 1 > 56 := by omega
    simp only [sha1FinishWith, hused, hone, Exec.ok_bind, if_pos hlong, hrest, Nat.sub_zero, hzero,
      hlast]
    rw [hbytes, lastBlock, if_neg hroom, h.size_eq, List.nil_append]

/-- A destination of at least `SHA1_DIGEST_LEN` bytes takes the words of the last chaining
state. -/
theorem sha1Finalize_eq {ctx : Sha1Context} {chain : Words}
    (h : sha1FinishWith sha1ProcessBlock ctx = .ok chain) {dest : List UInt8}
    (hdest : sha1DigestLen ≤ dest.length) :
    sha1Finalize ctx dest = .ok (chain.bytes ++ dest.drop sha1DigestLen) := by
  have hlen : ∀ x : BitVec 32, (beBytes 4 x).length = 4 := fun x => length_beBytes 4 x
  change 20 ≤ dest.length at hdest
  have ha : putUnalignedBe32 chain.a dest 0 = .ok (beBytes 4 chain.a ++ dest.drop 4) :=
    putUnalignedBe32_drop chain.a (List.length_nil).symm (by omega)
  have hb := putUnalignedBe32_drop chain.b (hlen chain.a).symm (by omega : 4 + 4 ≤ dest.length)
  have hc := putUnalignedBe32_drop chain.c
    (by simp only [List.length_append, hlen] :
      8 = (beBytes 4 chain.a ++ beBytes 4 chain.b).length) (by omega : 8 + 4 ≤ dest.length)
  have hd := putUnalignedBe32_drop chain.d
    (by simp only [List.length_append, hlen] :
      12 = (beBytes 4 chain.a ++ beBytes 4 chain.b ++ beBytes 4 chain.c).length)
    (by omega : 12 + 4 ≤ dest.length)
  have he := putUnalignedBe32_drop chain.e
    (by simp only [List.length_append, hlen] :
      16 = (beBytes 4 chain.a ++ beBytes 4 chain.b ++ beBytes 4 chain.c ++
        beBytes 4 chain.d).length) (by omega : 16 + 4 ≤ dest.length)
  rw [sha1Finalize, h, Exec.ok_bind, ha, Exec.ok_bind, hb, Exec.ok_bind, hc, Exec.ok_bind, hd,
    Exec.ok_bind, he]
  rfl

/-- `sha1_update` works, whatever it is fed in calls of given sizes, exactly if every block is
begun by a call with less than eight bytes and ended by the last byte of a call; and then
`sha1_finalize` ends the chaining state with one more block and writes its words. -/
theorem sha1Update_feedsRight_iff (sizes : List ℕ) :
    ((∀ tail (chunks : List (List UInt8)), chunks.map List.length = sizes →
        FeedsRight tail chunks) ↔ Fits 0 sizes) ∧
      (Fits 0 sizes → ∀ ctx (chunks : List (List UInt8)), chunks.map List.length = sizes →
        (chunks.foldlM (fun ctx src => sha1Update ctx src src.length) (sha1Init ctx) >>=
            sha1FinishWith sha1ProcessBlock) =
          .ok ((blocksOf 64 chunks.flatten ++ [lastBlock chunks.flatten]).foldl sha1ProcessBlock
            (sha1Init ctx).chain) ∧
          ∀ dest : List UInt8, sha1DigestLen ≤ dest.length →
            (do
              let ctx ← chunks.foldlM (fun ctx src => sha1Update ctx src src.length) (sha1Init ctx)
              sha1Finalize ctx dest) =
            .ok (((blocksOf 64 chunks.flatten ++ [lastBlock chunks.flatten]).foldl
              sha1ProcessBlock (sha1Init ctx).chain).bytes ++ dest.drop sha1DigestLen)) := by
  refine ⟨⟨fun hright => ?_, ?_⟩, ?_⟩
  · by_contra hnot
    have hfresh : Zeroed ⟨[], 0, ⟨List.replicate 64 0, List.length_replicate⟩⟩ :=
      ⟨fun _ hb => absurd hb List.not_mem_nil, fun _ hb => List.eq_of_mem_replicate hb⟩
    obtain ⟨chunks, hsizes, hlost⟩ := exists_lost hnot rfl hfresh
    obtain ⟨ctx, hrun, hchain, htail⟩ := hright _ chunks hsizes
    obtain ⟨hzeroed, hone⟩ := hlost ctx hrun
    rw [← flatten_blocksOf_append_leftover (by decide : 0 < 64) chunks.flatten, ← hchain,
      ← htail] at hone
    rcases List.mem_append.mp hone with hone | hone
    · exact absurd (hzeroed.chain 1 hone) (by decide)
    · exact absurd (hzeroed.tail 1 (List.mem_of_mem_take hone)) (by decide)
  · rintro hfits tail chunks rfl
    have hnil : ([] : List (List UInt8)) = (blocksOf 64 []).foldl recordBlock [] := by
      rw [blocksOf_nil]
      rfl
    obtain ⟨ctx, hrun, hholds, hchain⟩ := foldlM_fits recordBlock
      (Md.holds_nil (g := geometry64) (rfl : (Context.mk ([] : List (List UInt8)) 0 tail).size = 0))
      hfits hnil
    rw [List.nil_append] at hholds hchain
    refine ⟨ctx, hrun, ?_, hholds.tail_eq⟩
    rw [hchain, Md.foldl_recordBlock, List.nil_append]
  · rintro hfits ctx chunks rfl
    have hnil : (sha1Init ctx).chain =
        (blocksOf 64 []).foldl sha1ProcessBlock (sha1Init ctx).chain := by
      rw [blocksOf_nil]
      rfl
    obtain ⟨ctx', hrun, hholds, hchain⟩ := foldlM_fits sha1ProcessBlock
      (Md.holds_nil (g := geometry64) (rfl : (sha1Init ctx).size = 0)) hfits hnil
    rw [List.nil_append] at hholds hchain
    have hruns : chunks.foldlM (fun ctx src => sha1Update ctx src src.length) (sha1Init ctx) =
        .ok ctx' := hrun
    have hfinish : sha1FinishWith sha1ProcessBlock ctx' =
        .ok ((blocksOf 64 chunks.flatten ++ [lastBlock chunks.flatten]).foldl sha1ProcessBlock
          (sha1Init ctx).chain) := by
      rw [sha1FinishWith_eq sha1ProcessBlock hholds, hchain, List.foldl_append]
      rfl
    rw [hruns, Exec.ok_bind]
    exact ⟨hfinish, fun dest hdest => sha1Finalize_eq hfinish hdest⟩

/-- A block in pieces of seven bytes and the rest, and one that a single call passes. -/
example : Fits 0 [7, 7, 50, 7] ∧ ¬ Fits 0 [7, 7, 51] := by decide

end Hlibc.Sha1
