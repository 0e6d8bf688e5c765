import Hlibc.Crypto.MdDigest
import Hlibc.Crypto.MdStandard

/-!
# Going on from a digest

`md4_finalize` and `md5_finalize` write out the whole chaining state.  So the updates can go
on from a digest and the number of bytes that it is of, as if the message and its padding had
just been fed: the digest of a message tells the digests of all messages that start with it
and its padding.
-/

set_option autoImplicit false

namespace Hlibc.Md

/-- The words that a digest starts with. -/
def digestWords (digest : List UInt8) : Words where
  a := getWord digest 0
  b := getWord digest 1
  c := getWord digest 2
  d := getWord digest 3

/-- A context with the words of a digest that has counted `n` bytes. -/
def resumed (digest : List UInt8) (n : ℕ) (tail : Buffer 64) : Context Words 64 where
  chain := digestWords digest
  size := BitVec.ofNat 64 n
  tail := tail

/-- From the digest of `m` in any `dest`, the updates with `chunks` and the finalization come
to the digest of `m` with its padding and then `chunks`. -/
def GoesOn (digest : Context Words 64 → List (List UInt8) → List UInt8 → Exec (List UInt8))
    (update : Context Words 64 → List UInt8 → ℕ → Exec (Context Words 64))
    (finalize : Context Words 64 → List UInt8 → Exec (List UInt8)) (m : List UInt8)
    (chunks : List (List UInt8)) : Prop :=
  ∀ ctx ctx' tail dest dest', digestLen ≤ dest.length → digestLen ≤ dest'.length →
    ∃ d out, digest ctx [m] dest = .ok d ∧
      (chunks.foldlM (fun ctx src => update ctx src src.length)
          (resumed d (m ++ bitPadding m).length tail) >>= fun ctx => finalize ctx dest') = .ok out ∧
      digest ctx' ((m ++ bitPadding m) :: chunks) dest' = .ok out ∧
      (KeepsTails 64 0 chunks →
        digest ctx' [m ++ bitPadding m ++ chunks.flatten] dest' = .ok out)

/-! ## The words of a digest -/

theorem getWord_append (idx : ℕ) {front : List UInt8} (x : BitVec 32) (rest : List UInt8)
    (hfront : front.length = 4 * idx) : getWord (front ++ (leBytes 4 x ++ rest)) idx = x := by
  have hlen : (leBytes 4 x).length = 4 := length_leBytes 4 x
  rw [getWord, List.drop_left' hfront, List.take_left' hlen, leWord_leBytes (w := 32) (n := 4) rfl]

theorem digestWords_bytes (w : Words) (rest : List UInt8) :
    digestWords (w.bytes ++ rest) = w := by
  have hlen : ∀ x : BitVec 32, (leBytes 4 x).length = 4 := fun x => length_leBytes 4 x
  have ha := getWord_append 0 w.a (leBytes 4 w.b ++ (leBytes 4 w.c ++ (leBytes 4 w.d ++ rest)))
    List.length_nil
  have hb := getWord_append 1 w.b (leBytes 4 w.c ++ (leBytes 4 w.d ++ rest)) (hlen w.a)
  have hc := getWord_append 2 w.c (leBytes 4 w.d ++ rest)
    (by simp only [List.length_append, hlen] : (leBytes 4 w.a ++ leBytes 4 w.b).length = 8)
  have hd := getWord_append 3 w.d rest
    (by simp only [List.length_append, hlen] :
      (leBytes 4 w.a ++ leBytes 4 w.b ++ leBytes 4 w.c).length = 12)
  simp only [List.append_assoc, List.nil_append] at ha hb hc hd
  simp only [digestWords, Words.bytes, List.append_assoc, ha, hb, hc, hd]

/-! ## Calls behind full blocks -/

/-- What a call hands over depends only on how full the tail is. -/
theorem handedAll_congr {B n n' : ℕ} (hmod : n % B = n' % B) (chunks : List (List UInt8)) :
    handedAll B n chunks = handedAll B n' chunks := by
  induction chunks generalizing n n' with
  | nil => rfl
  | cons c cs ih =>
      have hnext : (n + c.length) % B = (n' + c.length) % B := Nat.ModEq.add_right _ hmod
      rw [handedAll, handedAll, ih hnext, handed, handed, hmod]

theorem keepsTails_congr {B n n' : ℕ} (hmod : n % B = n' % B) {chunks : List (List UInt8)}
    (hkeeps : KeepsTails B n chunks) : KeepsTails B n' chunks := by
  induction chunks generalizing n n' with
  | nil => trivial
  | cons c cs ih =>
      have hnext : (n + c.length) % B = (n' + c.length) % B := Nat.ModEq.add_right _ hmod
      obtain ⟨hkeep, hrest⟩ := hkeeps
      rw [hmod] at hkeep
      exact ⟨hkeep, ih hnext hrest⟩

theorem length_append_bitPadding (m : List UInt8) : (m ++ bitPadding m).length % 64 = 0 := by
  rw [List.length_append, bitPadding]
  simp only [List.length_append, List.length_cons, List.length_replicate, length_leBytes]
  omega

section Resume

variable (process : Words → List UInt8 → Words)

/-- After full blocks, the tail of a context is of no matter. -/
theorem resumed_holds {d s : List UInt8} (hs : s.length % 64 = 0) (tail : Buffer 64) :
    Holds geometry64 (resumed d s.length tail) s where
  size_eq := rfl
  tail_eq := by
    have hnone : s.length % geometry64.block = 0 := hs
    rw [hnone, List.take_zero]
    exact (List.eq_nil_of_length_eq_zero (by rw [length_leftover]; exact hs)).symm

/-- The updates from a digest leave a context that agrees with the one that they leave
behind the message and its padding. -/
theorem resumed_agree {ctx : Context Words 64} (hsize : ctx.size = 0) {s : List UInt8}
    (hs : s.length % 64 = 0) (rest : List UInt8) (tail : Buffer 64) (chunks : List (List UInt8)) :
    ∃ many one,
      updates geometry64 process (resumed
        (((blocksOf 64 s).foldl process ctx.chain).bytes ++ rest) s.length tail) chunks =
          .ok many ∧
      updates geometry64 process ctx (s :: chunks) = .ok one ∧ Agree geometry64 many one := by
  obtain ⟨many, hmany, hholds, hchain⟩ := updates_spec process
    (resumed_holds (d := ((blocksOf 64 s).foldl process ctx.chain).bytes ++ rest) hs tail) chunks
  obtain ⟨one, hone, hholds', hchain'⟩ := updates_spec process
    (holds_nil (g := geometry64) hsize) (s :: chunks)
  rw [List.flatten_cons, List.nil_append] at hholds'
  refine ⟨many, one, hmany, hone, ?_, ?_, ?_⟩
  · have hcount : s.length % geometry64.block =
        (([] : List UInt8).length + s.length) % geometry64.block := by
      rw [List.length_nil, Nat.zero_add]
    rw [hchain, hchain', handedAll, List.foldl_append, List.length_nil, handed_zero,
      handedAll_congr hcount, resumed, digestWords_bytes]
    rfl
  · rw [hholds.size_eq, hholds'.size_eq]
  · rw [hholds.used, hholds'.used, hholds.tail_eq, hholds'.tail_eq]

theorem goesOn {init : Context Words 64 → Context Words 64}
    (hinit : ∀ ctx ctx', (init ctx).size = 0 ∧ (init ctx).chain = (init ctx').chain)
    (hsame : ∀ {chunks}, KeepsTails 64 0 chunks → SameDigest (fun ctx chunks dest =>
      updates geometry64 process (init ctx) chunks >>= fun ctx =>
        finish process ctx >>= fun chain => chain.store dest) chunks)
    (m : List UInt8) (chunks : List (List UInt8)) :
    GoesOn (fun ctx chunks dest => updates geometry64 process (init ctx) chunks >>= fun ctx =>
        finish process ctx >>= fun chain => chain.store dest)
      (update geometry64 process)
      (fun ctx dest => finish process ctx >>= fun chain => chain.store dest) m chunks := by
  intro ctx ctx' tail dest dest' hdest hdest'
  obtain ⟨fed, hfed, hfinish⟩ := update_finish process (hinit ctx ctx).1 m
  rw [(hinit ctx ctx').2] at hfinish
  have hpadded := length_append_bitPadding m
  obtain ⟨many, one, hmany, hone, hagree⟩ := resumed_agree process (hinit ctx' ctx).1
    hpadded (dest.drop 16) tail chunks
  obtain ⟨out, hout, hout'⟩ := finish_store_agree process many one dest' hagree hdest'
  have hdigest : (updates geometry64 process (init ctx') ((m ++ bitPadding m) :: chunks) >>=
      fun ctx => finish process ctx >>= fun chain => chain.store dest') = .ok out := by
    rw [hone, Exec.ok_bind, hout']
  refine ⟨((blocksOf 64 (m ++ bitPadding m)).foldl process (init ctx').chain).bytes ++ dest.drop 16,
    out, ?_, ?_, hdigest, fun hkeeps => ?_⟩
  · simp only [updates, List.foldlM_cons, List.foldlM_nil, hfed, Exec.ok_bind, Exec.pure_eq_ok,
      hfinish]
    exact Words.store_ok _ hdest
  · have hrun := congrArg (· >>= fun ctx => finish process ctx >>= fun chain => chain.store dest')
      hmany
    simp only [Exec.ok_bind, hout] at hrun
    exact hrun
  · have hall : KeepsTails 64 0 ((m ++ bitPadding m) :: chunks) :=
      ⟨Or.inl rfl, keepsTails_congr (by rw [Nat.zero_add, hpadded]) hkeeps⟩
    obtain ⟨out', hchunks, hflat⟩ := hsame hall ctx' dest' hdest'
    rw [List.flatten_cons] at hflat
    rw [hflat, ← hchunks]
    exact hdigest

end Resume

/-- For every message, the digest that MD4 or MD5 writes is enough to go on with, however the
bytes behind the message and its padding are fed. -/
theorem mdDigests_goOn (m : List UInt8) (chunks : List (List UInt8)) :
    GoesOn md4Digest md4Update md4Finalize m chunks ∧
      GoesOn md5Digest md5Update md5Finalize m chunks := by
  constructor
  · have hfinalize : md4Finalize = fun ctx dest =>
        finish md4ProcessChunk ctx >>= fun chain => chain.store dest := by
      funext ctx dest
      rw [md4Finalize, md4Finish_eq]
    have hdigest : md4Digest = fun ctx chunks dest =>
        updates geometry64 md4ProcessChunk (md4Init ctx) chunks >>= fun ctx =>
          finish md4ProcessChunk ctx >>= fun chain => chain.store dest := by
      funext ctx chunks dest
      rw [md4Digest, hfinalize]
      rfl
    have hsame := @md4Digest_same
    rw [hdigest] at hsame ⊢
    rw [hfinalize]
    exact goesOn md4ProcessChunk (fun _ _ => ⟨rfl, rfl⟩) hsame m chunks
  · exact goesOn md5ProcessChunk (fun _ _ => ⟨rfl, rfl⟩) md5Digest_same m chunks

end Hlibc.Md
