import Mathlib.Logic.Function.Basic
import Hlibc.Bitmap

/-!
# Programs over one bitmap

A program sees an array of bits only through the values of `bit_test` and of the
`bit_test_and_…` functions.  A whole run of calls answers as a family of bits of which
the updates change bit `i` and the tests read its mirror image.
-/

set_option autoImplicit false

namespace Hlibc.Bitmap

/-! ## Runs of calls -/

/-- A call on the array. -/
inductive Call where
  | test (i : ℕ)
  | update (u : Update) (i : ℕ)
  | testAnd (u : Update) (i : ℕ)

/-- The index of a call. -/
def Call.index : Call → ℕ
  | test i => i
  | update _ i => i
  | testAnd _ i => i

/-- The index at which a call tests a bit, if it does. -/
def Call.tested : Call → Option ℕ
  | test i => some i
  | update _ _ => none
  | testAnd _ i => some i

/-- The update a call makes, if it makes one. -/
def Call.updated : Call → Option (Update × ℕ)
  | test _ => none
  | update u i => some (u, i)
  | testAnd u i => some (u, i)

/-- One call: the value it returns, if it returns one, and the array. -/
def Call.exec : Call → List UInt8 → Exec (Option Bool × List UInt8)
  | test i, base => do
      let x ← bitTest base i
      .ok (some x, base)
  | update u i, base => do
      let base ← u.exec base i
      .ok (none, base)
  | testAnd u i, base => do
      let (x, base) ← u.testAnd base i
      .ok (some x, base)

/-- The values that the calls of a run return. -/
def runCalls : List UInt8 → List Call → Exec (List Bool)
  | _, [] => .ok []
  | base, call :: calls => do
      let (x, base) ← call.exec base
      let xs ← runCalls base calls
      .ok (x.toList ++ xs)

/-! ## Families of bits -/

/-- The bits behind a call. -/
def Call.next (call : Call) (bits : ℕ → Bool) : ℕ → Bool :=
  match call.updated with
  | none => bits
  | some (u, i) => Function.update bits i (u.value (bits i))

/-- The values of a run over a family of bits, where a test at `i` reads bit
`reads i`. -/
def answers (reads : ℕ → ℕ) : (ℕ → Bool) → List Call → List Bool
  | _, [] => []
  | bits, call :: calls =>
      (call.tested.map fun i => bits (reads i)).toList ++
        answers reads (call.next bits) calls

/-- What the updates at index `k` among some calls make of a bit. -/
def written (k : ℕ) : List Call → Bool → Bool
  | [], b => b
  | call :: calls, b =>
      match call.updated with
      | none => written k calls b
      | some (u, i) => written k calls (if k = i then u.value b else b)

/-- At every test of the run the updates so far at the index and those at its mirror
image make the same of the bit that a test there read at the start. -/
def Balanced (bits : ℕ → Bool) (calls : List Call) : Prop :=
  ∀ before call after, calls = before ++ call :: after → ∀ i ∈ call.tested,
    written (mirror i) before (bits (mirror i)) = written i before (bits (mirror i))

variable {base : List UInt8} {call : Call} {calls : List Call}

theorem written_cons (k : ℕ) (call : Call) (calls : List Call) (bits : ℕ → Bool) :
    written k (call :: calls) (bits k) = written k calls (call.next bits k) := by
  rw [written, Call.next]
  cases call.updated with
  | none => rfl
  | some w =>
      obtain ⟨u, i⟩ := w
      by_cases hk : k = i
      · subst hk
        simp
      · simp [hk]

/-- Two families answer alike exactly if at every test they have the same bit. -/
theorem answers_eq_iff (r₁ r₂ : ℕ → ℕ) (calls : List Call) (f g : ℕ → Bool) :
    answers r₁ f calls = answers r₂ g calls ↔
      ∀ before call after, calls = before ++ call :: after → ∀ i ∈ call.tested,
        written (r₁ i) before (f (r₁ i)) = written (r₂ i) before (g (r₂ i)) := by
  induction calls generalizing f g with
  | nil => simp [answers]
  | cons call calls ih =>
      have hsplit : answers r₁ f (call :: calls) = answers r₂ g (call :: calls) ↔
          (∀ i ∈ call.tested, f (r₁ i) = g (r₂ i)) ∧
            answers r₁ (call.next f) calls = answers r₂ (call.next g) calls := by
        rw [answers, answers]
        cases call.tested with
        | none => simp
        | some i => simp
      rw [hsplit, ih]
      constructor
      · rintro ⟨hhere, hlater⟩ before call' after heq i hi
        cases before with
        | nil =>
            obtain ⟨rfl, rfl⟩ := List.cons.inj heq
            exact hhere i hi
        | cons first before =>
            obtain ⟨rfl, rfl⟩ := List.cons.inj heq
            rw [written_cons, written_cons]
            exact hlater before call' after rfl i hi
      · intro hall
        refine ⟨fun i hi => hall [] call calls rfl i hi, ?_⟩
        rintro before call' after rfl i hi
        have hthere := hall (call :: before) call' after rfl i hi
        rwa [written_cons, written_cons] at hthere

/-! ## The array as a family of bits -/

theorem mirror_lt {i : ℕ} (h : i < 8 * base.length) : mirror i < 8 * base.length := by
  rw [mirror]
  omega

/-- The answers depend on the bits of the array alone. -/
theorem answers_congr {reads : ℕ → ℕ} {n : ℕ} (hreads : ∀ i < n, reads i < n)
    (hindex : ∀ call ∈ calls, call.index < n) {f g : ℕ → Bool} (h : ∀ k < n, f k = g k) :
    answers reads f calls = answers reads g calls := by
  induction calls generalizing f g with
  | nil => rfl
  | cons call calls ih =>
      have hcall : call.index < n := hindex call List.mem_cons_self
      have hnext : ∀ k < n, call.next f k = call.next g k := by
        intro k hk
        cases call with
        | test i => exact h k hk
        | update u i => simp [Call.next, Call.updated, Function.update_apply, h k hk, h i hcall]
        | testAnd u i => simp [Call.next, Call.updated, Function.update_apply, h k hk, h i hcall]
      rw [answers, answers, ih (fun c hc => hindex c (List.mem_cons_of_mem _ hc)) hnext]
      congr 2
      cases call with
      | test i => simp [Call.tested, h _ (hreads i hcall)]
      | update u i => rfl
      | testAnd u i => simp [Call.tested, h _ (hreads i hcall)]

theorem exec_answer (h : call.index < 8 * base.length) :
    ∃ base', call.exec base =
        .ok (call.tested.map fun i => bitAt base (mirror i), base') ∧
      base'.length = base.length ∧
      ∀ k < 8 * base.length, bitAt base' k = call.next (bitAt base) k := by
  have hchange : ∀ (u : Update) i, i < 8 * base.length → ∃ base', u.exec base i = .ok base' ∧
      base'.length = base.length ∧ ∀ k < 8 * base.length,
        bitAt base' k = Function.update (bitAt base) i (u.value (bitAt base i)) k := by
    intro u i hi
    obtain ⟨base', hexec, hlen, hbits⟩ := u.exec_ok hi
    refine ⟨base', hexec, hlen, fun k hk => ?_⟩
    rw [hbits k hk, Function.update_apply]
    by_cases hki : k = i
    · rw [if_pos hki, if_pos hki, hki]
    · rw [if_neg hki, if_neg hki]
  cases call with
  | test i =>
      refine ⟨base, ?_, rfl, fun k _ => rfl⟩
      rw [Call.exec, bitTest_eq (i := i) h]
      rfl
  | update u i =>
      obtain ⟨base', hexec, hlen, hbits⟩ := hchange u i h
      refine ⟨base', ?_, hlen, hbits⟩
      rw [Call.exec, hexec]
      rfl
  | testAnd u i =>
      obtain ⟨base', hexec, hlen, hbits⟩ := hchange u i h
      refine ⟨base', ?_, hlen, hbits⟩
      rw [Call.exec, u.testAnd_eq, bitTest_eq (i := i) h, Exec.ok_bind, hexec]
      rfl

/-- A run of calls at indices of the array answers as its bits do. -/
theorem runCalls_answers (hindex : ∀ call ∈ calls, call.index < 8 * base.length) :
    runCalls base calls = .ok (answers mirror (bitAt base) calls) := by
  induction calls generalizing base with
  | nil => rfl
  | cons call calls ih =>
      obtain ⟨base', hexec, hlen, hbits⟩ := exec_answer (hindex call List.mem_cons_self)
      have hlater : ∀ c ∈ calls, c.index < 8 * base.length :=
        fun c hc => hindex c (List.mem_cons_of_mem _ hc)
      have hrest : runCalls base' calls = .ok (answers mirror (bitAt base') calls) :=
        ih (by rwa [hlen])
      rw [runCalls, hexec, Exec.ok_bind, answers]
      simp only [hrest, Exec.ok_bind]
      rw [answers_congr (fun i hi => mirror_lt hi) hlater hbits]

/-- Every run of calls at indices of the array returns.  Its values are those of a bitmap
that starts with what `bit_test` reads, is changed and is tested at the indices of the
calls, exactly if the run is balanced; and they are always those of the bitmap in which
the tests read mirrored. -/
theorem runCalls_plain_iff (base : List UInt8) (calls : List Call)
    (hindex : ∀ call ∈ calls, call.index < 8 * base.length) :
    ∃ xs, runCalls base calls = .ok xs ∧ xs = answers mirror (bitAt base) calls ∧
      (xs = answers id (fun i => bitAt base (mirror i)) calls ↔
        Balanced (bitAt base) calls) := by
  refine ⟨_, runCalls_answers hindex, rfl, ?_⟩
  exact answers_eq_iff mirror id calls (bitAt base) fun i => bitAt base (mirror i)

/-- A bit that is set is not seen set, unless its mirror image is set too. -/
theorem runCalls_plain_iff_byte :
    (∃ xs, runCalls [0] [.update .set 1, .update .set 6, .test 1] = .ok xs ∧
        xs = answers mirror (bitAt [0]) [.update .set 1, .update .set 6, .test 1] ∧
        (xs = answers id (fun i => bitAt [0] (mirror i))
            [.update .set 1, .update .set 6, .test 1] ↔
          Balanced (bitAt [0]) [.update .set 1, .update .set 6, .test 1])) ∧
      runCalls [0] [.update .set 1, .update .set 6, .test 1] = .ok [true] ∧
      runCalls [0] [.update .set 1, .test 1] = .ok [false] :=
  ⟨runCalls_plain_iff _ _ (by decide), by decide, by decide⟩

end Hlibc.Bitmap
