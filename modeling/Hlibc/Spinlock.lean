import Mathlib.Data.Fintype.Basic
import Mathlib.Tactic.Common
import Hlibc.Errno
import Hlibc.Support.Runs

/-!
# The spinlock and its users

`spinlock_lock`, `spinlock_trylock` and `spinlock_unlock` are interleaved by any
number of threads.  A thread that is inside `spinlock_lock` carries the counter
of the inner loop; `atomic_flag_test_and_set` and `atomic_flag_clear` are single
steps.  A thread holds the lock from the step at which its `spinlock_lock` or
`spinlock_trylock` returned 0 until its `spinlock_unlock`.

`atomic_flag_test_and_set` returns the *previous* value of the flag, and both
acquiring functions take a true answer for success.
-/

set_option autoImplicit false

namespace Hlibc.Spin

/-! ## The functions of the source -/

/-- `struct spinlock`. -/
structure Spinlock where
  flag : Bool
  deriving DecidableEq

/-- `atomic_flag_test_and_set`: the previous value, and the flag set. -/
def atomicFlagTestAndSet (lock : Spinlock) : Bool × Spinlock :=
  (lock.flag, { flag := true })

/-- `atomic_flag_clear`. -/
def atomicFlagClear (_lock : Spinlock) : Spinlock :=
  { flag := false }

def spinlockInit (lock : Spinlock) : ℤ × Spinlock :=
  (0, atomicFlagClear lock)

def spinlockUnlock (lock : Spinlock) : ℤ × Spinlock :=
  (0, atomicFlagClear lock)

def spinlockTrylock (lock : Spinlock) : ℤ × Spinlock :=
  if (atomicFlagTestAndSet lock).1 then
    (0, (atomicFlagTestAndSet lock).2)
  else
    (EBUSY, (atomicFlagTestAndSet lock).2)

/-- The passes of the inner loop of `spinlock_lock` between two yields. -/
def spinLimit : ℕ := 100000

/-- One pass of the inner loop of `spinlock_lock`: the value it returns, or
`none` when it goes on to the next pass. -/
def spinlockLockPass (lock : Spinlock) : Option ℤ × Spinlock :=
  if (atomicFlagTestAndSet lock).1 then
    (some 0, (atomicFlagTestAndSet lock).2)
  else
    (none, (atomicFlagTestAndSet lock).2)

/-! ## Threads that share one lock -/

/-- Where a thread stands: outside the lock's functions, or in
`spinlock_lock` with its inner counter at `i`. -/
inductive Pc where
  | idle
  | spinning (i : ℕ)
  deriving DecidableEq

/-- The lock, and for each thread its program point and whether it holds. -/
structure State (Tid : Type*) where
  lock : Spinlock
  pc : Tid → Pc
  holds : Tid → Bool

/-- The atomic steps a thread can take. -/
inductive Action (Tid : Type*) where
  /-- Call `spinlock_lock`. -/
  | enterLock (t : Tid)
  /-- One `atomic_flag_test_and_set` of `spinlock_lock`. -/
  | testAndSet (t : Tid)
  /-- `sched_yield`, after which the inner counter starts again. -/
  | schedYield (t : Tid)
  | trylock (t : Tid)
  | unlock (t : Tid)

section System

variable {Tid : Type*} [DecidableEq Tid]

/-- Thread `t` has been answered `ret`; it holds the lock if that is 0. -/
def State.answer (s : State Tid) (t : Tid) (ret : ℤ) (lock : Spinlock) :
    State Tid where
  lock := lock
  pc := Function.update s.pc t .idle
  holds := Function.update s.holds t (s.holds t || decide (ret = 0))

/-- One step of the system, or `none` where the thread is not at that point.
A thread unlocks only a lock it holds. -/
def spinStep (s : State Tid) : Action Tid → Option (State Tid)
  | .enterLock t =>
      if s.pc t = .idle then
        some { s with pc := Function.update s.pc t (.spinning 0) }
      else none
  | .testAndSet t =>
      match s.pc t with
      | .idle => none
      | .spinning i =>
          if i < spinLimit then
            match spinlockLockPass s.lock with
            | (some ret, lock) => some (s.answer t ret lock)
            | (none, lock) =>
                some { s with
                  lock := lock
                  pc := Function.update s.pc t (.spinning (i + 1)) }
          else none
  | .schedYield t =>
      if s.pc t = .spinning spinLimit then
        some { s with pc := Function.update s.pc t (.spinning 0) }
      else none
  | .trylock t =>
      if s.pc t = .idle then
        some (s.answer t (spinlockTrylock s.lock).1 (spinlockTrylock s.lock).2)
      else none
  | .unlock t =>
      if s.pc t = .idle ∧ s.holds t = true then
        some { s with
          lock := (spinlockUnlock s.lock).2
          holds := Function.update s.holds t false }
      else none

/-- The lock fresh from `spinlock_init`, whatever its memory held, with every
thread outside and none holding. -/
def initial (memory : Spinlock) : State Tid where
  lock := (spinlockInit memory).2
  pc := fun _ => .idle
  holds := fun _ => false

def NoHolder (s : State Tid) : Prop := ∀ t, s.holds t = false

def AtMostOneHolder (s : State Tid) : Prop :=
  ∀ t u, s.holds t = true → s.holds u = true → t = u

/-- `spinlock_trylock` would answer 0 exactly when nobody holds the lock. -/
def TrylockExact (s : State Tid) : Prop :=
  (spinlockTrylock s.lock).1 = 0 ↔ NoHolder s

/-- What the lock is for, of a run and the state it ends in: never two holders,
and every `spinlock_trylock` of the run succeeds exactly on a free lock. -/
structure MutualExclusion (tr : List (State Tid × Action Tid)) (s : State Tid) :
    Prop where
  final : AtMostOneHolder s
  passed : ∀ p ∈ tr, AtMostOneHolder p.1
  trylock : ∀ p ∈ tr, ∀ t, p.2 = .trylock t → TrylockExact p.1

/-! ## Two holders -/

/-- Two threads call `spinlock_lock` on a fresh lock.  Thread 0 sets the flag on
its first pass and returns on its second; thread 1 returns on its first. -/
def twoLockers : List (Action (Fin 2)) :=
  [.enterLock 0, .testAndSet 0, .testAndSet 0, .enterLock 1, .testAndSet 1]

/-- The run of a list of actions, when each of them is possible. -/
def runActions (s : State Tid) :
    List (Action Tid) → Option (List (State Tid × Action Tid) × State Tid)
  | [] => some ([], s)
  | l :: ls => do
      let s' ← spinStep s l
      let (tr, t) ← runActions s' ls
      pure ((s, l) :: tr, t)

theorem run_of_runActions {ls : List (Action Tid)} {s t : State Tid}
    {tr : List (State Tid × Action Tid)}
    (h : runActions s ls = some (tr, t)) : Run spinStep s tr t := by
  induction ls generalizing s tr with
  | nil =>
      simp only [runActions, Option.some.injEq, Prod.mk.injEq] at h
      obtain ⟨rfl, rfl⟩ := h
      exact Run.nil s
  | cons l ls ih =>
      simp only [runActions, Option.bind_eq_bind, Option.bind_eq_some_iff,
        Option.pure_def, Option.some.injEq, Prod.mk.injEq, Prod.exists] at h
      obtain ⟨s', hs', tr', t', hrest, rfl, rfl⟩ := h
      exact Run.cons hs' (ih hrest)

theorem spinlock_two_holders :
    ¬ ∀ (memory : Spinlock) (tr : List (State (Fin 2) × Action (Fin 2)))
      (s : State (Fin 2)), Run spinStep (initial memory) tr s →
        MutualExclusion tr s := by
  intro h
  have hsome : (runActions (initial { flag := false }) twoLockers).isSome = true := by
    decide
  obtain ⟨⟨tr, s⟩, hrun⟩ := Option.isSome_iff_exists.mp hsome
  have hfinal := (h _ tr s (run_of_runActions hrun)).final
  have hholds : (runActions (initial { flag := false }) twoLockers).all
      (fun p => p.2.holds 0 && p.2.holds 1) = true := by
    decide
  rw [hrun] at hholds
  simp only [Option.all_some, Bool.and_eq_true] at hholds
  exact absurd (hfinal 0 1 hholds.1 hholds.2) (by decide)

/-! ## When the lock does exclude -/

/-- A step that does not run into the inverted test: a pass of `spinlock_lock`
does not find the flag set while another thread holds, and `spinlock_trylock`
runs when nobody holds and an earlier test-and-set has left the flag set. -/
def StepOk (s : State Tid) : Action Tid → Prop
  | .testAndSet t =>
      s.lock.flag = true → ∀ u, s.holds u = true → u = t
  | .trylock _ => s.lock.flag = true ∧ NoHolder s
  | _ => True

/-- What every state of a good run satisfies: one holder at most, and the flag
is set as long as there is one. -/
structure Guarded (s : State Tid) : Prop where
  one : AtMostOneHolder s
  flag : ∀ t, s.holds t = true → s.lock.flag = true

omit [DecidableEq Tid] in
theorem initial_guarded (memory : Spinlock) :
    Guarded (initial memory : State Tid) where
  one := by simp [AtMostOneHolder, initial]
  flag := by simp [initial]

/-- Everything a step can do to the lock and to the holders. -/
theorem spinStep_cases {s s' : State Tid} {l : Action Tid}
    (h : spinStep s l = some s') :
    (s'.lock = s.lock ∧ s'.holds = s.holds ∧ (∀ t, l ≠ .trylock t) ∧
        ∀ t, l ≠ .testAndSet t) ∨
      (∃ t, l = .testAndSet t ∧ s'.lock = { flag := true } ∧
        s'.holds = if s.lock.flag then Function.update s.holds t true
          else s.holds) ∨
      (∃ t, l = .trylock t ∧ s'.lock = { flag := true } ∧
        s'.holds = if s.lock.flag then Function.update s.holds t true
          else s.holds) ∨
      (∃ t, l = .unlock t ∧ s.holds t = true ∧ s'.lock = { flag := false } ∧
        s'.holds = Function.update s.holds t false) := by
  cases l with
  | enterLock t =>
      simp only [spinStep, Option.ite_none_right_eq_some, Option.some.injEq] at h
      obtain ⟨_, rfl⟩ := h
      exact Or.inl ⟨rfl, rfl, by simp, by simp⟩
  | schedYield t =>
      simp only [spinStep, Option.ite_none_right_eq_some, Option.some.injEq] at h
      obtain ⟨_, rfl⟩ := h
      exact Or.inl ⟨rfl, rfl, by simp, by simp⟩
  | testAndSet t =>
      refine Or.inr (Or.inl ⟨t, rfl, ?_⟩)
      cases hpc : s.pc t with
      | idle => simp [spinStep, hpc] at h
      | spinning i =>
          cases hflag : s.lock.flag with
          | true =>
              simp only [spinStep, hpc, spinlockLockPass, atomicFlagTestAndSet,
                hflag, if_true, Option.ite_none_right_eq_some,
                Option.some.injEq] at h
              obtain ⟨_, rfl⟩ := h
              simp [State.answer]
          | false =>
              simp only [spinStep, hpc, spinlockLockPass, atomicFlagTestAndSet,
                hflag, Bool.false_eq_true, if_false,
                Option.ite_none_right_eq_some, Option.some.injEq] at h
              obtain ⟨_, rfl⟩ := h
              simp
  | trylock t =>
      refine Or.inr (Or.inr (Or.inl ⟨t, rfl, ?_⟩))
      simp only [spinStep, Option.ite_none_right_eq_some, Option.some.injEq] at h
      obtain ⟨_, rfl⟩ := h
      cases hflag : s.lock.flag with
      | true =>
          simp [State.answer, spinlockTrylock, atomicFlagTestAndSet, hflag]
      | false =>
          simp [State.answer, spinlockTrylock, atomicFlagTestAndSet, hflag, EBUSY]
  | unlock t =>
      simp only [spinStep, Option.ite_none_right_eq_some, Option.some.injEq] at h
      obtain ⟨⟨_, hholds⟩, rfl⟩ := h
      exact Or.inr (Or.inr (Or.inr ⟨t, rfl, hholds, rfl, rfl⟩))

/-- The state after a test-and-set by `t` that found the flag as `s` has it. -/
theorem guarded_testAndSet {s s' : State Tid} {t : Tid} (hs : Guarded s)
    (hok : s.lock.flag = true → ∀ u, s.holds u = true → u = t)
    (hlock : s'.lock = { flag := true })
    (hholds : s'.holds =
      if s.lock.flag then Function.update s.holds t true else s.holds) :
    Guarded s' := by
  constructor
  · cases hflag : s.lock.flag with
    | false =>
        rw [hflag] at hholds
        intro u v hu hv
        rw [hholds] at hu hv
        exact hs.one u v hu hv
    | true =>
        rw [hflag] at hholds
        have honly : ∀ u, s'.holds u = true → u = t := by
          intro u hu
          by_cases hut : u = t
          · exact hut
          · rw [hholds] at hu
            simp only [if_true, Function.update_of_ne hut] at hu
            exact hok hflag u hu
        intro u v hu hv
        exact (honly u hu).trans (honly v hv).symm
  · intro _ _
    rw [hlock]

/-- A step that meets the condition keeps the invariant. -/
theorem guarded_step (s : State Tid) (l : Action Tid) (s' : State Tid)
    (hs : Guarded s) (hok : StepOk s l) (h : spinStep s l = some s') :
    Guarded s' := by
  rcases spinStep_cases h with ⟨hlock, hholds, -, -⟩ | ⟨t, rfl, hlock, hholds⟩ |
    ⟨t, rfl, hlock, hholds⟩ | ⟨t, rfl, ht, hlock, hholds⟩
  · constructor
    · intro u v hu hv
      rw [hholds] at hu hv
      exact hs.one u v hu hv
    · intro u hu
      rw [hholds] at hu
      rw [hlock]
      exact hs.flag u hu
  · exact guarded_testAndSet hs hok hlock hholds
  · refine guarded_testAndSet hs (fun _ u hu => ?_) hlock hholds
    rw [hok.2 u] at hu
    exact absurd hu Bool.false_ne_true
  · have hnone : ∀ u, s'.holds u = false := by
      intro u
      by_cases hut : u = t
      · simp [hholds, hut]
      · rw [hholds, Function.update_of_ne hut]
        by_contra hu
        exact hut (hs.one u t (by simpa using hu) ht)
    constructor
    · intro u v hu
      rw [hnone u] at hu
      exact absurd hu Bool.false_ne_true
    · intro u hu
      rw [hnone u] at hu
      exact absurd hu Bool.false_ne_true

omit [DecidableEq Tid] in
/-- Under the condition `spinlock_trylock` answers as it should. -/
theorem trylockExact_of_stepOk {s : State Tid} {t : Tid}
    (hok : StepOk s (.trylock t)) : TrylockExact s := by
  obtain ⟨hflag, hnone⟩ := hok
  simp [TrylockExact, spinlockTrylock, atomicFlagTestAndSet, hflag, hnone]

/-- Conversely a step between good states, exact if it is a `spinlock_trylock`,
meets the condition. -/
theorem stepOk_of_good {s s' : State Tid} {l : Action Tid} (hs : Guarded s)
    (hnext : AtMostOneHolder s') (htry : ∀ t, l = .trylock t → TrylockExact s)
    (h : spinStep s l = some s') : StepOk s l := by
  rcases spinStep_cases h with ⟨-, -, hntry, hntas⟩ | ⟨t, rfl, -, hholds⟩ |
    ⟨t, rfl, -, -⟩ | ⟨t, rfl, -⟩
  · cases l with
    | testAndSet t => exact absurd rfl (hntas t)
    | trylock t => exact absurd rfl (hntry t)
    | enterLock t => trivial
    | schedYield t => trivial
    | unlock t => trivial
  · intro hflag u hu
    rw [hflag] at hholds
    by_contra hut
    refine hut (hnext u t ?_ ?_)
    · simp [hholds, Function.update_of_ne hut, hu]
    · simp [hholds]
  · have hexact := htry t rfl
    have hret : (spinlockTrylock s.lock).1 = 0 ↔ s.lock.flag = true := by
      cases hflag : s.lock.flag with
      | true => simp [spinlockTrylock, atomicFlagTestAndSet, hflag]
      | false => simp [spinlockTrylock, atomicFlagTestAndSet, hflag, EBUSY]
    have hiff : s.lock.flag = true ↔ NoHolder s := hret.symm.trans hexact
    have hnone : NoHolder s := by
      by_contra hsome
      obtain ⟨u, hu⟩ := not_forall.mp hsome
      exact hsome (hiff.mp (hs.flag u (by simpa using hu)))
    exact ⟨hiff.mpr hnone, hnone⟩
  · trivial

/-- In every run from a fresh lock: mutual exclusion and the exactness of
`spinlock_trylock` hold throughout if and only if every step of the run met
`StepOk` in the state it left. -/
theorem mutualExclusion_iff {memory : Spinlock}
    {tr : List (State Tid × Action Tid)} {s : State Tid}
    (hrun : Run spinStep (initial memory) tr s) :
    MutualExclusion tr s ↔ ∀ p ∈ tr, StepOk p.1 p.2 := by
  constructor
  · intro hgood
    refine hrun.steps_of_states (I := Guarded) (P := AtMostOneHolder) ?_
      guarded_step (initial_guarded memory) hgood.final hgood.passed
    intro a l b hmem ha _ hb hstep
    refine stepOk_of_good ha hb (fun t ht => ?_) hstep
    exact hgood.trylock (a, l) hmem t ht
  · intro hok
    obtain ⟨hend, hmid⟩ := hrun.invariant guarded_step (initial_guarded memory) hok
    refine ⟨hend.one, fun p hp => (hmid p hp).one, ?_⟩
    intro p hp t ht
    have hp' := hok p hp
    rw [ht] at hp'
    exact trylockExact_of_stepOk hp'

end System

instance stepOkDecidable {Tid : Type*} [Fintype Tid] [DecidableEq Tid]
    (s : State Tid) (l : Action Tid) : Decidable (StepOk s l) :=
  match l with
  | .testAndSet t => inferInstanceAs
      (Decidable (s.lock.flag = true → ∀ u, s.holds u = true → u = t))
  | .trylock _ => inferInstanceAs
      (Decidable (s.lock.flag = true ∧ ∀ t, s.holds t = false))
  | .enterLock _ => isTrue trivial
  | .schedYield _ => isTrue trivial
  | .unlock _ => isTrue trivial

/-- Thread 0 leaves the flag set, thread 1 takes and releases the lock by
`spinlock_trylock`, and then thread 0 takes and releases it. -/
def handOver : List (Action (Fin 2)) :=
  [.enterLock 0, .testAndSet 0, .trylock 1, .unlock 1, .testAndSet 0,
    .testAndSet 0, .unlock 0]

theorem mutualExclusion_handOver :
    ∃ (tr : List (State (Fin 2) × Action (Fin 2))) (s : State (Fin 2)),
      Run spinStep (initial { flag := true }) tr s ∧
        tr.map (fun p => p.1.holds 1) =
          [false, false, false, true, false, false, false] ∧
        MutualExclusion tr s := by
  have hsome : (runActions (initial { flag := true }) handOver).isSome = true := by
    decide
  obtain ⟨⟨tr, s⟩, hrun⟩ := Option.isSome_iff_exists.mp hsome
  have hholds : (runActions (initial { flag := true }) handOver).map
      (fun p => p.1.map fun q => q.1.holds 1) =
        some [false, false, false, true, false, false, false] := by
    decide
  have hok : (runActions (initial { flag := true }) handOver).all
      (fun p => p.1.all fun q => decide (StepOk q.1 q.2)) = true := by
    decide
  rw [hrun] at hholds hok
  have hrun' := run_of_runActions hrun
  refine ⟨tr, s, hrun', by simpa using hholds, (mutualExclusion_iff hrun').mpr ?_⟩
  intro p hp
  simp only [Option.all_some, List.all_eq_true, decide_eq_true_eq] at hok
  exact hok p hp

end Hlibc.Spin
