import Mathlib.Algebra.BigOperators.Group.Finset.Basic
import Mathlib.Algebra.Order.BigOperators.Group.Finset
import Hlibc.Spinlock

/-!
# How often the spinlock spins

Both acquiring functions take a set flag for success and leave the flag set, so
a thread is turned away only by a flag that `spinlock_init` or `spinlock_unlock`
has cleared, and turning it away uses that clearing up.  The accounts below are
of any stretch of a run: they start in any state.
-/

set_option autoImplicit false

namespace Hlibc.Spin

section System

variable {Tid : Type*}

/-- A pass of `spinlock_lock` that goes on, or a `spinlock_trylock` that answers
`EBUSY`. -/
def turnedAway : State Tid × Action Tid → Bool
  | (s, .testAndSet _) => decide ((spinlockLockPass s.lock).1 = none)
  | (s, .trylock _) => decide ((spinlockTrylock s.lock).1 = EBUSY)
  | _ => false

/-- A pass of `spinlock_lock` that returns 0, or a `spinlock_trylock` that
answers 0. -/
def letIn : State Tid × Action Tid → Bool
  | (s, .testAndSet _) => decide ((spinlockLockPass s.lock).1 = some 0)
  | (s, .trylock _) => decide ((spinlockTrylock s.lock).1 = 0)
  | _ => false

def tries : State Tid × Action Tid → Bool
  | (_, .testAndSet _) => true
  | (_, .trylock _) => true
  | _ => false

def unlocks : State Tid × Action Tid → Bool
  | (_, .unlock _) => true
  | _ => false

/-- A `spinlock_unlock` that finds the flag set. -/
def clears (p : State Tid × Action Tid) : Bool :=
  unlocks p && p.1.lock.flag

def yields : State Tid × Action Tid → Bool
  | (_, .schedYield _) => true
  | _ => false

/-- The inner counter of a thread inside `spinlock_lock`. -/
def Pc.passes : Pc → ℕ
  | .idle => 0
  | .spinning i => i

@[simp] theorem Pc.passes_idle : Pc.idle.passes = 0 := rfl

@[simp] theorem Pc.passes_spinning (i : ℕ) : (Pc.spinning i).passes = i := rfl

theorem turnedAway_testAndSet (s : State Tid) (t : Tid) :
    turnedAway (s, .testAndSet t) = !s.lock.flag := by
  cases hflag : s.lock.flag <;>
    simp [turnedAway, spinlockLockPass, atomicFlagTestAndSet, hflag]

theorem turnedAway_trylock (s : State Tid) (t : Tid) :
    turnedAway (s, .trylock t) = !s.lock.flag := by
  cases hflag : s.lock.flag <;>
    simp [turnedAway, spinlockTrylock, atomicFlagTestAndSet, hflag, EBUSY]

/-- Every test-and-set lets its thread in or turns it away. -/
theorem tries_eq (p : State Tid × Action Tid) :
    (tries p).toNat = (letIn p).toNat + (turnedAway p).toNat := by
  obtain ⟨s, l⟩ := p
  cases l with
  | enterLock t => rfl
  | schedYield t => rfl
  | unlock t => rfl
  | testAndSet t =>
      rw [turnedAway_testAndSet]
      cases hflag : s.lock.flag <;>
        simp [tries, letIn, spinlockLockPass, atomicFlagTestAndSet, hflag]
  | trylock t =>
      rw [turnedAway_trylock]
      cases hflag : s.lock.flag <;>
        simp [tries, letIn, spinlockTrylock, atomicFlagTestAndSet, hflag, EBUSY]

variable [DecidableEq Tid]

/-- A thread that is turned away leaves the flag set behind it, and nothing but
an unlock clears it again. -/
theorem flag_step {s s' : State Tid} {l : Action Tid}
    (h : spinStep s l = some s') :
    s'.lock.flag.toNat + (clears (s, l)).toNat =
      s.lock.flag.toNat + (turnedAway (s, l)).toNat := by
  rcases spinStep_cases h with ⟨hlock, -, hntry, hntas⟩ | ⟨t, rfl, hlock, -⟩ |
    ⟨t, rfl, hlock, -⟩ | ⟨t, rfl, -, hlock, -⟩
  · cases l with
    | testAndSet t => exact absurd rfl (hntas t)
    | trylock t => exact absurd rfl (hntry t)
    | enterLock t => simp [clears, unlocks, turnedAway, hlock]
    | schedYield t => simp [clears, unlocks, turnedAway, hlock]
    | unlock t =>
        have hflag : s.lock.flag = false := by
          simp only [spinStep, Option.ite_none_right_eq_some,
            Option.some.injEq] at h
          obtain ⟨_, rfl⟩ := h
          rw [← hlock]
          rfl
        simp [clears, unlocks, turnedAway, hlock, hflag]
  · rw [turnedAway_testAndSet]
    cases hflag : s.lock.flag <;> simp [clears, unlocks, hlock, hflag]
  · rw [turnedAway_trylock]
    cases hflag : s.lock.flag <;> simp [clears, unlocks, hlock, hflag]
  · cases hflag : s.lock.flag <;>
      simp [clears, unlocks, turnedAway, hlock, hflag]

section Counters

variable [Fintype Tid]

/-- The passes that the threads inside `spinlock_lock` have behind them since
they called it or yielded. -/
def State.passes (s : State Tid) : ℕ := ∑ t, (s.pc t).passes

theorem sum_passes_update (pc : Tid → Pc) (t : Tid) (p : Pc) :
    (∑ u, (Function.update pc t p u).passes) + (pc t).passes =
      (∑ u, (pc u).passes) + p.passes := by
  have hrest : ∑ u ∈ Finset.univ.erase t, (Function.update pc t p u).passes =
      ∑ u ∈ Finset.univ.erase t, (pc u).passes := by
    refine Finset.sum_congr rfl fun u hu => ?_
    rw [Function.update_of_ne (Finset.ne_of_mem_erase hu)]
  have hnew := Finset.sum_erase_add Finset.univ
    (fun u => (Function.update pc t p u).passes) (Finset.mem_univ t)
  have hold := Finset.sum_erase_add Finset.univ
    (fun u => (pc u).passes) (Finset.mem_univ t)
  simp only [Function.update_self] at hnew
  omega

/-- A pass is counted when it turns its thread away, and a yield takes
`spinLimit` passes out of the count. -/
theorem passes_step {s s' : State Tid} {l : Action Tid}
    (h : spinStep s l = some s') :
    s'.passes + spinLimit * (yields (s, l)).toNat ≤
      s.passes + (turnedAway (s, l)).toNat := by
  cases l with
  | enterLock t =>
      simp only [spinStep, Option.ite_none_right_eq_some, Option.some.injEq] at h
      obtain ⟨hpc, rfl⟩ := h
      have hsum := sum_passes_update s.pc t (.spinning 0)
      rw [hpc] at hsum
      simpa [State.passes, yields, turnedAway] using hsum.le
  | schedYield t =>
      simp only [spinStep, Option.ite_none_right_eq_some, Option.some.injEq] at h
      obtain ⟨hpc, rfl⟩ := h
      have hsum := sum_passes_update s.pc t (.spinning 0)
      rw [hpc] at hsum
      simpa [State.passes, yields, turnedAway] using hsum.le
  | unlock t =>
      simp only [spinStep, Option.ite_none_right_eq_some, Option.some.injEq] at h
      obtain ⟨_, rfl⟩ := h
      simp [State.passes, yields]
  | trylock t =>
      simp only [spinStep, Option.ite_none_right_eq_some, Option.some.injEq] at h
      obtain ⟨hpc, rfl⟩ := h
      have hsum := sum_passes_update s.pc t .idle
      rw [hpc] at hsum
      simp only [State.passes, State.answer, yields, Bool.toNat_false, Nat.mul_zero]
      simp only [Pc.passes_idle] at hsum
      omega
  | testAndSet t =>
      cases hpc : s.pc t with
      | idle => simp [spinStep, hpc] at h
      | spinning i =>
          rw [turnedAway_testAndSet]
          cases hflag : s.lock.flag with
          | true =>
              simp only [spinStep, hpc, spinlockLockPass, atomicFlagTestAndSet,
                hflag, if_true, Option.ite_none_right_eq_some,
                Option.some.injEq] at h
              obtain ⟨_, rfl⟩ := h
              have hsum := sum_passes_update s.pc t .idle
              simp only [Pc.passes_idle] at hsum
              simp only [State.passes, State.answer, yields, Bool.toNat_false,
                Nat.mul_zero]
              omega
          | false =>
              simp only [spinStep, hpc, spinlockLockPass, atomicFlagTestAndSet,
                hflag, Bool.false_eq_true, if_false,
                Option.ite_none_right_eq_some, Option.some.injEq] at h
              obtain ⟨_, rfl⟩ := h
              have hsum := sum_passes_update s.pc t (.spinning (i + 1))
              rw [hpc] at hsum
              simp only [Pc.passes_spinning] at hsum
              simp only [State.passes, yields, Bool.toNat_false, Nat.mul_zero,
                Bool.not_false, Bool.toNat_true]
              omega

end Counters

/-- The threads turned away in a stretch of a run, by the flag at its ends. -/
theorem turnedAway_count {s s' : State Tid} {tr : List (State Tid × Action Tid)}
    (hrun : Run spinStep s tr s') :
    tr.countP turnedAway + s.lock.flag.toNat =
      tr.countP clears + s'.lock.flag.toNat := by
  have hle := hrun.count_le (fun s => s.lock.flag.toNat) clears turnedAway 1 1
    (fun s l s' h => by
      have hstep := flag_step h
      omega)
  have hge := hrun.count_le (fun s => 1 - s.lock.flag.toNat) turnedAway clears 1 1
    (fun s l s' h => by
      have hstep := flag_step h
      have hbefore := Bool.toNat_le s.lock.flag
      have hafter := Bool.toNat_le s'.lock.flag
      omega)
  have hbefore := Bool.toNat_le s.lock.flag
  have hafter := Bool.toNat_le s'.lock.flag
  omega

theorem letIn_count {s s' : State Tid} {tr : List (State Tid × Action Tid)}
    (hrun : Run spinStep s tr s') :
    tr.countP tries = tr.countP letIn + tr.countP turnedAway := by
  induction hrun with
  | nil s => rfl
  | @cons s _ _ l tr _ _ ih =>
      have hhere := tries_eq (s, l)
      simp only [Run.countP_cons_toNat]
      omega

/-- In any stretch of any run, with any number of threads: threads are turned away
as often as an unlock clears a set flag, once more where the flag is clear at the
start and set at the end, and once less where it is set at the start and clear at
the end; every other test-and-set lets its thread in; and each `sched_yield` has
used up `spinLimit` passes, of those under way at the start, one for each unlock,
and one more. -/
theorem spinStep_accounts [Fintype Tid] {s s' : State Tid}
    {tr : List (State Tid × Action Tid)} (hrun : Run spinStep s tr s') :
    tr.countP turnedAway + s.lock.flag.toNat =
        tr.countP clears + s'.lock.flag.toNat ∧
      tr.countP tries ≤ tr.countP letIn + tr.countP unlocks + 1 ∧
      s'.passes + spinLimit * tr.countP yields ≤
        s.passes + tr.countP unlocks + 1 := by
  have haway := turnedAway_count hrun
  have hclears : tr.countP clears ≤ tr.countP unlocks :=
    List.countP_mono_left fun p _ hp => by
      simp only [clears, Bool.and_eq_true] at hp
      exact hp.1
  have hafter := Bool.toNat_le s'.lock.flag
  refine ⟨haway, ?_, ?_⟩
  · have htries := letIn_count hrun
    omega
  · have hpasses := hrun.count_le State.passes yields turnedAway spinLimit 1
      (fun s l s' h => by simpa using passes_step h)
    omega

end System

/-- Thread 0 is turned away by the fresh flag and again by the one that thread 1
has cleared. -/
theorem spinStep_accounts_handOver :
    ∃ (tr : List (State (Fin 2) × Action (Fin 2))) (s : State (Fin 2)),
      Run spinStep (initial { flag := true }) tr s ∧
        tr.countP turnedAway = 2 ∧
        2 + 0 = tr.countP clears + s.lock.flag.toNat ∧
        tr.countP tries ≤ tr.countP letIn + tr.countP unlocks + 1 ∧
        s.passes + spinLimit * tr.countP yields ≤ 0 + tr.countP unlocks + 1 := by
  have hsome : (runActions (initial { flag := true }) handOver).isSome = true := by
    decide
  obtain ⟨⟨tr, s⟩, hrun⟩ := Option.isSome_iff_exists.mp hsome
  have haway : (runActions (initial { flag := true }) handOver).all
      (fun p => p.1.countP turnedAway == 2) = true := by
    decide
  rw [hrun] at haway
  simp only [Option.all_some, beq_iff_eq] at haway
  have hrun' := run_of_runActions hrun
  have hall := spinStep_accounts hrun'
  rw [haway] at hall
  have hstart : (initial { flag := true } : State (Fin 2)).passes = 0 := by
    decide
  rw [hstart] at hall
  exact ⟨tr, s, hrun', haway, hall⟩

end Hlibc.Spin
