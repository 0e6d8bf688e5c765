import Hlibc.Crypto.Md2
import Hlibc.Crypto.Md4
import Hlibc.Crypto.Md5

/-!
# Digests fed in pieces

A digest is an initialisation, a sequence of updates and a finalisation.  Fed
in pieces, it is the digest of the concatenation as long as no update completes
a tail: a tail that is completed is overwritten without being processed.
-/

set_option autoImplicit false

namespace Hlibc.Md

/-- The MD2 digest of a message fed in pieces. -/
def md2Digest (ctx : Md2Context) (chunks : List (List UInt8)) (dest : List UInt8) :
    Exec (List UInt8) := do
  let ctx ← chunks.foldlM (fun ctx src => md2Update ctx src src.length) (md2Init ctx)
  md2Finalize ctx dest

/-- The MD4 digest of a message fed in pieces. -/
def md4Digest (ctx : Md4Context) (chunks : List (List UInt8)) (dest : List UInt8) :
    Exec (List UInt8) := do
  let ctx ← chunks.foldlM (fun ctx src => md4Update ctx src src.length) (md4Init ctx)
  md4Finalize ctx dest

/-- The MD5 digest of a message fed in pieces. -/
def md5Digest (ctx : Md5Context) (chunks : List (List UInt8)) (dest : List UInt8) :
    Exec (List UInt8) := do
  let ctx ← chunks.foldlM (fun ctx src => md5Update ctx src src.length) (md5Init ctx)
  md5Finalize ctx dest

/-- The digest fed in pieces is the digest fed at once, whatever the context
memory held before. -/
def SameDigest {κ : Type} (digest : κ → List (List UInt8) → List UInt8 → Exec (List UInt8))
    (chunks : List (List UInt8)) : Prop :=
  ∀ (ctx : κ) (dest : List UInt8), digestLen ≤ dest.length →
    ∃ out, digest ctx chunks dest = .ok out ∧
      digest ctx [chunks.flatten] dest = .ok out

/-- The updates hand over the blocks that a single update hands over, whatever
the tail held before. -/
def SameBlocks (g : Geometry) (chunks : List (List UInt8)) : Prop :=
  ∀ tail, blocksHanded g tail chunks = blocksHanded g tail [chunks.flatten]

theorem sameBlocks_iff (g : Geometry) (chunks : List (List UInt8)) :
    SameBlocks g chunks ↔ KeepsTails g.block 0 chunks := by
  constructor
  · intro h
    exact (blocksHanded_iff g ⟨List.replicate g.block 0, List.length_replicate⟩ chunks).mp
      (h _)
  · intro h tail
    exact (blocksHanded_iff g tail chunks).mpr h

/-- Initialisation, updates and a finalisation that treats contexts alike when
they agree. -/
theorem sameDigest_of_keepsTails {g : Geometry} {σ : Type} (process : σ → List UInt8 → σ)
    {init : Context σ g.block → Context σ g.block}
    {finalize : Context σ g.block → List UInt8 → Exec (List UInt8)}
    (hinit : ∀ ctx, (init ctx).size = 0)
    (hfinalize : ∀ ctx ctx' dest, Agree g ctx ctx' → digestLen ≤ dest.length →
      ∃ out, finalize ctx dest = .ok out ∧ finalize ctx' dest = .ok out)
    {chunks : List (List UInt8)} (hkeeps : KeepsTails g.block 0 chunks) :
    SameDigest (fun ctx chunks dest =>
      updates g process (init ctx) chunks >>= fun ctx => finalize ctx dest) chunks := by
  intro ctx dest hdest
  obtain ⟨many, one, hmany, hone, hagree⟩ := updates_agree process (hinit ctx) hkeeps
  obtain ⟨out, hout, hout'⟩ := hfinalize many one dest hagree hdest
  refine ⟨out, ?_, ?_⟩
  · simp only [hmany, Exec.ok_bind, hout]
  · simp only [updates, List.foldlM_cons, List.foldlM_nil, hone, Exec.ok_bind,
      Exec.pure_eq_ok, hout']

theorem md2Finalize_agree (ctx ctx' : Md2Context) (dest : List UInt8)
    (h : Agree geometry16 ctx ctx') (hdest : digestLen ≤ dest.length) :
    ∃ out, md2Finalize ctx dest = .ok out ∧ md2Finalize ctx' dest = .ok out := by
  have htail : ctx.tail.bytes.take (ctx.size &&& 15).toNat =
      ctx'.tail.bytes.take (ctx'.size &&& 15).toNat := h.tail_eq
  have hlen : ∀ v : Vector UInt8 16, 0 + v.toList.length ≤ dest.length := by
    intro v
    rw [Vector.length_toList]
    exact hdest
  rw [md2Finalize_eq, md2Finalize_eq, htail, h.chain_eq]
  exact ⟨_, writeBytes_of_le (hlen _), writeBytes_of_le (hlen _)⟩

theorem md2Digest_same {chunks : List (List UInt8)} (hkeeps : KeepsTails 16 0 chunks) :
    SameDigest md2Digest chunks :=
  sameDigest_of_keepsTails (g := geometry16) md2ProcessChunk (fun _ => rfl)
    md2Finalize_agree hkeeps

/-- What MD4 and MD5 have in common: contexts that agree are finished alike. -/
theorem finish_store_agree (process : Words → List UInt8 → Words)
    (ctx ctx' : Context Words 64) (dest : List UInt8) (h : Agree geometry64 ctx ctx')
    (hdest : digestLen ≤ dest.length) :
    ∃ out, (finish process ctx >>= fun chain => chain.store dest) = .ok out ∧
      (finish process ctx' >>= fun chain => chain.store dest) = .ok out := by
  rw [finish_agree process h, finish_eq, Exec.ok_bind, Words.store_ok _ hdest]
  exact ⟨_, rfl, rfl⟩

theorem md4Digest_same {chunks : List (List UInt8)} (hkeeps : KeepsTails 64 0 chunks) :
    SameDigest md4Digest chunks := by
  refine sameDigest_of_keepsTails (g := geometry64) md4ProcessChunk (fun _ => rfl) ?_ hkeeps
  intro ctx ctx' dest h hdest
  rw [md4Finalize, md4Finalize, md4Finish_eq, md4Finish_eq]
  exact finish_store_agree md4ProcessChunk ctx ctx' dest h hdest

theorem md5Digest_same {chunks : List (List UInt8)} (hkeeps : KeepsTails 64 0 chunks) :
    SameDigest md5Digest chunks :=
  sameDigest_of_keepsTails (g := geometry64) md5ProcessChunk (fun _ => rfl)
    (finish_store_agree md5ProcessChunk) hkeeps

/-- For each of the three: updates that complete no tail give the digest of the
concatenation, and they are the only ones that hand over its blocks. -/
theorem chunkedDigests (chunks : List (List UInt8)) :
    ((KeepsTails 16 0 chunks → SameDigest md2Digest chunks) ∧
        (SameBlocks geometry16 chunks ↔ KeepsTails 16 0 chunks)) ∧
      (KeepsTails 64 0 chunks → SameDigest md4Digest chunks) ∧
        (KeepsTails 64 0 chunks → SameDigest md5Digest chunks) ∧
          (SameBlocks geometry64 chunks ↔ KeepsTails 64 0 chunks) :=
  ⟨⟨md2Digest_same, sameBlocks_iff geometry16 chunks⟩, md4Digest_same, md5Digest_same,
    sameBlocks_iff geometry64 chunks⟩

/-- Two updates of less than a block together. -/
theorem chunkedDigests_short :
    SameDigest md2Digest [[1], [2, 3]] ∧ SameDigest md4Digest [[1], [2, 3]] ∧
      SameDigest md5Digest [[1], [2, 3]] := by
  obtain ⟨⟨h2, -⟩, h4, h5, -⟩ := chunkedDigests [[1], [2, 3]]
  exact ⟨h2 (by decide), h4 (by decide), h5 (by decide)⟩

end Hlibc.Md
