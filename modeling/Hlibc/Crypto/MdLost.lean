import Hlibc.Crypto.Md2Standard
import Hlibc.Crypto.Md4Standard
import Hlibc.Crypto.Md5Standard
import Hlibc.Crypto.MdDigest

/-!
# The part of a stream that a digest is about

A call that completes a tail loses it, so the blocks that are processed are those of the
stream in which no call ends.  With the bytes behind the last full block, they are all that
the digest is about: MD2 writes the digest of this part alone, and MD4 and MD5 pad it with
the length of the whole stream.
-/

set_option autoImplicit false

namespace Hlibc.Md

/-! ## Blocks that no call ends in -/

/-- The number of bytes fed in front of each call and behind the last one, after `n`. -/
def cuts : ℕ → List (List UInt8) → List ℕ
  | n, [] => [n]
  | n, c :: cs => n :: cuts (n + c.length) cs

/-- No call starts or ends inside block `k`. -/
def Uncut (B n : ℕ) (chunks : List (List UInt8)) (k : ℕ) : Prop :=
  ∀ m ∈ cuts n chunks, m / B = k → m % B = 0

instance (B n : ℕ) (chunks : List (List UInt8)) : DecidablePred (Uncut B n chunks) :=
  fun _ => inferInstanceAs (Decidable (∀ _ ∈ _, _))

/-- The full blocks of the stream in which no call ends, in order. -/
def uncutBlocks (B : ℕ) (chunks : List (List UInt8)) : List (List UInt8) :=
  ((List.range (chunks.flatten.length / B)).filter (Uncut B 0 chunks)).map
    (blockAt B chunks.flatten)

/-- The part of the stream that the digest is about. -/
def kept (B : ℕ) (chunks : List (List UInt8)) : List UInt8 :=
  (uncutBlocks B chunks).flatten ++ leftover B chunks.flatten

example : kept 2 [[1], [2, 3, 4], [5, 6, 7]] = [3, 4, 5, 6, 7] := by decide

section Cuts

variable {B : ℕ}

theorem le_of_mem_cuts {n m : ℕ} {chunks : List (List UInt8)} (hm : m ∈ cuts n chunks) :
    n ≤ m := by
  induction chunks generalizing n with
  | nil => exact (List.mem_singleton.mp hm).ge
  | cons c cs ih =>
      rcases List.mem_cons.mp hm with rfl | hm
      · exact Nat.le_refl _
      · exact (Nat.le_add_right _ _).trans (ih hm)

theorem mem_cuts_self (n : ℕ) (chunks : List (List UInt8)) : n ∈ cuts n chunks := by
  cases chunks with
  | nil => exact List.mem_singleton_self n
  | cons c cs => exact List.mem_cons_self

/-- A block that begins in front of the end of the first call is cut by its start only. -/
theorem uncut_cons_of_lt {n k : ℕ} {c : List UInt8} {cs : List (List UInt8)}
    (hk : k < (n + c.length) / B) : Uncut B n (c :: cs) k ↔ (n / B = k → n % B = 0) := by
  constructor
  · intro h
    exact h n List.mem_cons_self
  · intro h m hm hblock
    rcases List.mem_cons.mp hm with rfl | hm
    · exact h hblock
    · have hle : (n + c.length) / B ≤ m / B := Nat.div_le_div_right (le_of_mem_cuts hm)
      omega

/-- A block that begins behind it is cut by the later calls only. -/
theorem uncut_cons_of_le {n k : ℕ} {c : List UInt8} {cs : List (List UInt8)}
    (hk : (n + c.length) / B ≤ k) :
    Uncut B n (c :: cs) k ↔ Uncut B (n + c.length) cs k := by
  constructor
  · intro h m hm
    exact h m (List.mem_cons_of_mem _ hm)
  · intro h m hm hblock
    rcases List.mem_cons.mp hm with rfl | hm
    · have hle : m / B ≤ (m + c.length) / B := Nat.div_le_div_right (Nat.le_add_right _ _)
      have hend : (m + c.length) / B = k := by omega
      have hzero := h _ (mem_cuts_self _ cs) hend
      have hm := Nat.div_add_mod m B
      have hsum := Nat.div_add_mod (m + c.length) B
      rw [hblock] at hm
      rw [hend, hzero] at hsum
      omega
    · exact h m hm hblock

/-- A call hands over the blocks that it completes, but for one that it did not begin. -/
theorem handed_eq (hB : 0 < B) (s c : List UInt8) :
    handed B s.length c =
      ((List.range' (s.length / B) ((s ++ c).length / B - s.length / B)).filter
        fun k => s.length / B = k → s.length % B = 0).map (blockAt B (s ++ c)) := by
  have hdiv := Nat.div_add_mod s.length B
  by_cases hzero : s.length % B = 0
  · have hfront : s.length = B * (s.length / B) := by omega
    have hdrop : (s ++ c).drop (B * (s.length / B)) = c := List.drop_left' hfront
    have hall : ∀ k ∈ List.range' (s.length / B) ((s ++ c).length / B - s.length / B),
        decide (s.length / B = k → s.length % B = 0) = true := by
      simp [hzero]
    rw [List.filter_eq_self.mpr hall, ← blocksOf_drop, hdrop, handed, hzero, Nat.sub_zero,
      Nat.mod_self, List.drop_zero]
  · have hlt : s.length % B < B := Nat.mod_lt _ hB
    have hgap : (B - s.length % B) % B = B - s.length % B := Nat.mod_eq_of_lt (by omega)
    have hnext : s.length + (B - s.length % B) = B * (s.length / B + 1) := by
      rw [Nat.mul_succ]
      omega
    have hdrop : c.drop (B - s.length % B) = (s ++ c).drop (B * (s.length / B + 1)) := by
      rw [← hnext, List.drop_append, List.drop_of_length_le (Nat.le_add_right _ _),
        List.nil_append, Nat.add_sub_cancel_left]
    rw [handed, hgap, hdrop, blocksOf_drop]
    congr 1
    generalize hcount : (s ++ c).length / B - s.length / B = count
    rw [show (s ++ c).length / B - (s.length / B + 1) = count - 1 by omega]
    cases count with
    | zero => rfl
    | succ count =>
        rw [List.range'_succ, List.filter_cons_of_neg (by simpa using hzero),
          Nat.add_sub_cancel, List.filter_eq_self.mpr]
        intro k hk
        have hle := (List.mem_range'_1.mp hk).1
        exact decide_eq_true fun heq => absurd heq (by omega)

theorem range'_split {a m t : ℕ} (ham : a ≤ m) (hmt : m ≤ t) :
    List.range' a (t - a) = List.range' a (m - a) ++ List.range' m (t - m) := by
  obtain ⟨x, rfl⟩ := Nat.exists_eq_add_of_le ham
  obtain ⟨y, rfl⟩ := Nat.exists_eq_add_of_le hmt
  rw [Nat.add_sub_cancel_left, Nat.add_sub_cancel_left, Nat.add_assoc, Nat.add_sub_cancel_left,
    List.range'_append_1]

/-- A sequence of calls hands over the blocks in which no call starts or ends. -/
theorem handedAll_eq (hB : 0 < B) (s : List UInt8) (chunks : List (List UInt8)) :
    handedAll B s.length chunks =
      ((List.range' (s.length / B) ((s ++ chunks.flatten).length / B - s.length / B)).filter
        (Uncut B s.length chunks)).map (blockAt B (s ++ chunks.flatten)) := by
  induction chunks generalizing s with
  | nil => rw [List.flatten_nil, List.append_nil, Nat.sub_self]; rfl
  | cons c cs ih =>
      have hlen : s.length + c.length = (s ++ c).length := List.length_append.symm
      have hfirst : s.length / B ≤ (s ++ c).length / B :=
        Nat.div_le_div_right (List.sublist_append_left s c).length_le
      have hrest : (s ++ c).length / B ≤ (s ++ c ++ cs.flatten).length / B :=
        Nat.div_le_div_right (List.sublist_append_left (s ++ c) cs.flatten).length_le
      rw [handedAll, List.flatten_cons, ← List.append_assoc, range'_split hfirst hrest,
        List.filter_append, List.map_append, handed_eq hB, hlen, ih (s ++ c)]
      congr 1
      · rw [List.filter_congr fun k hk => ?_]
        · apply List.map_congr_left
          intro k hk
          have hlt := (List.mem_range'_1.mp (List.mem_of_mem_filter hk)).2
          exact (blockAt_append (by omega) _).symm
        · have hlt := (List.mem_range'_1.mp hk).2
          exact decide_eq_decide.mpr (uncut_cons_of_lt (by rw [hlen]; omega)).symm
      · rw [List.filter_congr fun k hk => ?_]
        have hle := (List.mem_range'_1.mp hk).1
        rw [← hlen] at hle ⊢
        exact decide_eq_decide.mpr (uncut_cons_of_le hle).symm

theorem handedAll_eq_uncutBlocks (hB : 0 < B) (chunks : List (List UInt8)) :
    handedAll B 0 chunks = uncutBlocks B chunks := by
  have hall := handedAll_eq hB [] chunks
  rwa [List.length_nil, Nat.zero_div, Nat.sub_zero, List.nil_append, ← List.range_eq_range'] at hall

/-- The blocks of the part that is kept, and what is behind them. -/
theorem kept_blocks (hB : 0 < B) (chunks : List (List UInt8)) :
    blocksOf B (kept B chunks) = uncutBlocks B chunks ∧
      leftover B (kept B chunks) = leftover B chunks.flatten := by
  apply blocksOf_flatten_append hB
  · intro b hb
    obtain ⟨k, hk, rfl⟩ := List.mem_map.mp hb
    have hlt := List.mem_range.mp (List.mem_of_mem_filter hk)
    exact length_of_mem_blocksOf (List.mem_map_of_mem (List.mem_range.mpr hlt))
  · rw [length_leftover]
    exact Nat.mod_lt _ hB

end Cuts

/-! ## The three digests -/

/-- After a sequence of calls, the chaining state is that of the part that is kept, the size
counts the whole stream, and the tail starts with what is behind the last block of both. -/
theorem updates_kept {g : Geometry} {σ : Type} (process : σ → List UInt8 → σ)
    {ctx : Context σ g.block} (hctx : ctx.size = 0) (chunks : List (List UInt8)) :
    ∃ ctx', updates g process ctx chunks = .ok ctx' ∧
      ctx'.chain = (blocksOf g.block (kept g.block chunks)).foldl process ctx.chain ∧
      ctx'.size = BitVec.ofNat 64 chunks.flatten.length ∧
      (ctx'.size &&& g.mask).toNat = chunks.flatten.length % g.block ∧
      ctx'.tail.bytes.take (ctx'.size &&& g.mask).toNat =
        leftover g.block (kept g.block chunks) := by
  obtain ⟨ctx', hrun, hholds, hchain⟩ := updates_spec process (holds_nil hctx) chunks
  rw [List.nil_append] at hholds
  obtain ⟨hblocks, hleft⟩ := kept_blocks g.block_pos chunks
  refine ⟨ctx', hrun, ?_, hholds.size_eq, hholds.used, ?_⟩
  · rw [hchain, List.length_nil, handedAll_eq_uncutBlocks g.block_pos, hblocks]
  · rw [hholds.used, hholds.tail_eq, hleft]

/-- A part `m` of the stream `s`, padded as `s` is, for a compression function. -/
def paddedAs (compress : Words → List UInt8 → Words) (m s : List UInt8) : List UInt8 :=
  ((blocksOf 64 (m ++ bitPadding s)).foldl compress initialWords).bytes

theorem updates_finish_kept (process : Words → List UInt8 → Words) {ctx : Context Words 64}
    (hsize : ctx.size = 0) (hchain : ctx.chain = initialWords) (chunks : List (List UInt8))
    {dest : List UInt8} (hdest : digestLen ≤ dest.length) :
    (updates geometry64 process ctx chunks >>= fun ctx =>
        finish process ctx >>= fun chain => chain.store dest) =
      .ok (paddedAs process (kept 64 chunks) chunks.flatten ++ dest.drop digestLen) := by
  obtain ⟨ctx', hrun, hchain', hsize', hused, htail⟩ :=
    updates_kept (g := geometry64) process hsize chunks
  rw [hused] at htail
  rw [hrun, Exec.ok_bind, finish_eq, Exec.ok_bind, Words.store_ok _ hdest, hused, htail, hsize',
    lengthPadding_eq, hchain', hchain, ← List.foldl_append,
    ← blocksOf_append_leftover (by decide), paddedAs, Words.bytes, digestLen]

theorem md2Digest_kept (ctx : Md2Context) (chunks : List (List UInt8)) {dest : List UInt8}
    (hdest : digestLen ≤ dest.length) :
    md2Digest ctx chunks dest =
      .ok (md2Standard (kept 16 chunks) ++ dest.drop digestLen) := by
  obtain ⟨ctx', hrun, hchain, -, -, htail⟩ :=
    updates_kept (g := geometry16) md2ProcessChunk (rfl : (md2Init ctx).size = 0) chunks
  have hlast := md2LastState_eq (kept 16 chunks) ctx
  rw [← hchain, ← htail] at hlast
  have hlen : (md2Standard (kept 16 chunks)).length = digestLen := by
    rw [← hlast, Vector.length_toList, digestLen]
  have hupdates : chunks.foldlM (fun ctx src => md2Update ctx src src.length) (md2Init ctx) =
      .ok ctx' := hrun
  rw [md2Digest, hupdates, Exec.ok_bind, md2Finalize_eq]
  have hmask : geometry16.mask = 15 := rfl
  rw [hmask] at hlast
  rw [hlast, writeBytes_of_le (by omega), List.take_zero, List.nil_append, Nat.zero_add, hlen]

/-- One byte and then the rest of the block, as pieces. -/
def splitBlock (B : ℕ) : List (List UInt8) := [[0x61], List.replicate (B - 1) 0x61]

theorem not_sameDigest {κ : Type}
    {digest : κ → List (List UInt8) → List UInt8 → Exec (List UInt8)}
    {chunks : List (List UInt8)} (ctx : κ)
    (h : digest ctx chunks (List.replicate 16 0) ≠
      digest ctx [chunks.flatten] (List.replicate 16 0)) :
    ¬ SameDigest digest chunks := by
  intro hsame
  obtain ⟨out, hchunks, hone⟩ := hsame ctx (List.replicate 16 0)
    (Nat.le_of_eq List.length_replicate.symm)
  exact h (hchunks.trans hone.symm)

/-- A block cut behind its first byte has another digest than the whole block. -/
theorem splitBlock_differs :
    ¬ SameDigest md2Digest (splitBlock 16) ∧ ¬ SameDigest md4Digest (splitBlock 64) ∧
      ¬ SameDigest md5Digest (splitBlock 64) := by
  refine ⟨?_, ?_, ?_⟩
  · have hcut : kept 16 (splitBlock 16) = [] := by decide
    have hwhole : kept 16 [(splitBlock 16).flatten] = List.replicate 16 0x61 := by decide
    have hdigests : md2Standard [] ≠ md2Standard (List.replicate 16 0x61) := by decide +kernel
    apply not_sameDigest
      { chain := { state := Vector.replicate 16 0, checksum := Vector.replicate 16 0 }, size := 0,
        tail := ⟨List.replicate 16 0, List.length_replicate⟩ }
    rw [md2Digest_kept _ _ (by decide), md2Digest_kept _ _ (by decide), hcut, hwhole]
    intro heq
    exact hdigests (List.append_cancel_right (Except.ok.inj heq))
  · apply not_sameDigest
      { chain := { a := 0, b := 0, c := 0, d := 0 }, size := 0,
        tail := ⟨List.replicate 64 0, List.length_replicate⟩ }
    decide +kernel
  · apply not_sameDigest
      { chain := { a := 0, b := 0, c := 0, d := 0 }, size := 0,
        tail := ⟨List.replicate 64 0, List.length_replicate⟩ }
    decide +kernel

/-- For any sequence of updates: MD2 writes the digest of the part of the stream that is kept,
and MD4 and MD5 write that of the part padded as the whole stream is. -/
theorem mdDigests_kept (ctx₂ : Md2Context) (ctx₄ : Md4Context) (ctx₅ : Md5Context)
    (chunks : List (List UInt8)) (dest : List UInt8) (hdest : digestLen ≤ dest.length) :
    md2Digest ctx₂ chunks dest =
        .ok (md2Standard (kept 16 chunks) ++ dest.drop digestLen) ∧
      md4Digest ctx₄ chunks dest =
        .ok (paddedAs md4Compress (kept 64 chunks) chunks.flatten ++ dest.drop digestLen) ∧
      md5Digest ctx₅ chunks dest =
        .ok (paddedAs md5Compress (kept 64 chunks) chunks.flatten ++ dest.drop digestLen) := by
  have hwords : ∀ ctx : Context Words 64, (md4Init ctx).chain = initialWords :=
    fun _ => initialWords_eq.symm
  have h4 : md4ProcessChunk = md4Compress := funext₂ md4ProcessChunk_eq
  have h5 : md5ProcessChunk = md5Compress := funext₂ md5ProcessChunk_eq
  refine ⟨md2Digest_kept ctx₂ chunks hdest, ?_, ?_⟩
  · have hrun := updates_finish_kept md4ProcessChunk (rfl : (md4Init ctx₄).size = 0)
      (hwords ctx₄) chunks hdest
    rw [← h4, ← hrun]
    simp only [md4Digest, md4Finalize, md4Finish_eq]
    rfl
  · rw [← h5]
    exact updates_finish_kept md5ProcessChunk (rfl : (md5Init ctx₅).size = 0)
      initialWords_eq.symm chunks hdest

/-- A block that is fed in two pieces is missing from the digest. -/
theorem mdDigests_kept_split :
    md2Digest (md2Init ⟨⟨Vector.replicate 16 0, Vector.replicate 16 0⟩, 0,
        ⟨List.replicate 16 0, rfl⟩⟩) [[1], List.replicate 15 2 ++ [3]] (List.replicate 16 0) =
      .ok (md2Standard [3]) := by
  have hkept : kept 16 [[1], List.replicate 15 2 ++ [3]] = [3] := by decide
  rw [(mdDigests_kept _ ⟨initialWords, 0, ⟨List.replicate 64 0, rfl⟩⟩
    ⟨initialWords, 0, ⟨List.replicate 64 0, rfl⟩⟩ [[1], List.replicate 15 2 ++ [3]]
    (List.replicate 16 0) (Nat.le_refl 16)).1, hkept]
  exact congrArg Except.ok (List.append_nil _)

end Hlibc.Md
