import Hlibc.Crypto.MdDigest

/-!
# What an MD context holds of its stream

After any sequence of updates the context counts the bytes fed and its tail
starts with those behind the last full block, also where a tail that became
complete was lost.  So every copy of the next call has room in the tail.
-/

set_option autoImplicit false

namespace Hlibc.Md

/-! ## The invariant -/

/-- `size` counts the bytes of `s` in its type, and the tail starts with the last
`size mod B` of them. -/
structure Tracks {σ : Type} {B : ℕ} (ctx : Context σ B) (s : List UInt8) : Prop where
  size_eq : ctx.size.toNat = s.length % 2 ^ 64
  tail_eq : ctx.tail.bytes.take (ctx.size.toNat % B) =
    s.drop (s.length - ctx.size.toNat % B)

/-- From any memory on, initialisation and a sequence of updates lead to a context that
tracks what was fed, without an access outside an object, and finalisation has none either. -/
def KeepsStream {σ : Type} {B : ℕ} (init : Context σ B → Context σ B)
    (update : Context σ B → List UInt8 → ℕ → Exec (Context σ B))
    (finalize : Context σ B → List UInt8 → Exec (List UInt8)) (chunks : List (List UInt8)) :
    Prop :=
  ∀ ctx, ∃ ctx', chunks.foldlM (fun ctx src => update ctx src src.length) (init ctx) = .ok ctx' ∧
    Tracks ctx' chunks.flatten ∧
      ∀ dest, digestLen ≤ dest.length → Exec.Returns (finalize ctx' dest)

variable {g : Geometry} {σ : Type} {ctx : Context σ g.block} {s : List UInt8}

/-- The bytes behind the last full block are the last ones. -/
theorem leftover_eq_drop (B : ℕ) (s : List UInt8) :
    leftover B s = s.drop (s.length - s.length % B) := by
  have hdiv := Nat.div_add_mod s.length B
  rw [leftover]
  congr 1
  omega

theorem Holds.tracks (h : Holds g ctx s) : Tracks ctx s := by
  have hsize : ctx.size.toNat = s.length % 2 ^ 64 := by
    rw [h.size_eq, BitVec.toNat_ofNat]
  have hmod : ctx.size.toNat % g.block = s.length % g.block := by
    rw [hsize, Nat.mod_mod_of_dvd _ g.block_dvd]
  refine ⟨hsize, ?_⟩
  rw [hmod, h.tail_eq, leftover_eq_drop]

/-- The invariant of an update function, with a finalisation that returns. -/
theorem updates_keepsStream (process : σ → List UInt8 → σ)
    {init : Context σ g.block → Context σ g.block}
    {finalize : Context σ g.block → List UInt8 → Exec (List UInt8)}
    (hinit : ∀ ctx, (init ctx).size = 0)
    (hfinalize : ∀ ctx dest, digestLen ≤ dest.length → Exec.Returns (finalize ctx dest))
    (chunks : List (List UInt8)) :
    KeepsStream init (update g process) finalize chunks := by
  intro ctx
  obtain ⟨ctx', hrun, hholds, -⟩ := updates_spec process (holds_nil (hinit ctx)) chunks
  exact ⟨ctx', hrun, hholds.tracks, hfinalize ctx'⟩

/-! ## The three digests -/

theorem md2Finalize_returns (ctx : Md2Context) (dest : List UInt8)
    (hdest : digestLen ≤ dest.length) : Exec.Returns (md2Finalize ctx dest) := by
  obtain ⟨out, hout, -⟩ := md2Finalize_agree ctx ctx dest ⟨rfl, rfl, rfl⟩ hdest
  exact ⟨out, hout⟩

theorem finish_store_returns (process : Words → List UInt8 → Words) (ctx : Context Words 64)
    (dest : List UInt8) (hdest : digestLen ≤ dest.length) :
    Exec.Returns (finish process ctx >>= fun chain => chain.store dest) := by
  obtain ⟨out, hout, -⟩ := finish_store_agree process ctx ctx dest ⟨rfl, rfl, rfl⟩ hdest
  exact ⟨out, hout⟩

/-- The invariant of MD2, of MD4 and of MD5. -/
theorem md_keepsStream (chunks : List (List UInt8)) :
    KeepsStream md2Init md2Update md2Finalize chunks ∧
      KeepsStream md4Init md4Update md4Finalize chunks ∧
        KeepsStream md5Init md5Update md5Finalize chunks := by
  refine ⟨?_, ?_, ?_⟩
  · exact updates_keepsStream (g := geometry16) md2ProcessChunk (fun _ => rfl)
      md2Finalize_returns chunks
  · apply updates_keepsStream (g := geometry64) md4ProcessChunk (fun _ => rfl)
    intro ctx dest hdest
    rw [md4Finalize, md4Finish_eq]
    exact finish_store_returns md4ProcessChunk ctx dest hdest
  · exact updates_keepsStream (g := geometry64) md5ProcessChunk (fun _ => rfl)
      (finish_store_returns md5ProcessChunk) chunks

end Hlibc.Md
