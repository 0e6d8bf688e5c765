import Hlibc.Htest.Script

/-!
# Suites

`htest_run_suite` runs the units of a suite between its hooks.  `setjmp` is called behind
`init`, whose result is not looked at, and in front of the unit.  So a jump out of `init` has
nowhere to go, and one out of `destroy` leads back to the call of `destroy`.
-/

set_option autoImplicit false

namespace Hlibc.Htest

/-! ## The functions of a suite -/

/-- `struct htest_unit`. -/
structure TestUnit where
  name : Text
  run : Script Unit

/-- `struct htest_suite`, whose units are those in front of the entry without a function.  The
code of a hook depends on the number of the unit, and that of `destroy` on how often it was
called for the unit before. -/
structure Suite where
  units : List TestUnit
  name : Text
  skip : Bool
  init : Option (ℕ → Script ℤ)
  destroy : Option (ℕ → ℕ → Script Unit)
  log : Bool

/-- `struct htest_stats`. -/
structure Stats where
  total : ℕ
  passed : ℕ
  failed : ℕ
  skipped : ℕ
  deriving DecidableEq

/-- Statistics that are zero. -/
def Stats.zero : Stats where
  total := 0
  passed := 0
  failed := 0
  skipped := 0

/-- The call of `init`.  The jump buffer was zeroed, so a jump has nowhere to go. -/
def runInit (malloc : Malloc) (suite : Suite) (num : ℕ) (s : State) : Exec State :=
  match suite.init with
  | none => .ok s
  | some init => do
      let (code, s) ← (init num).run malloc s
      match code with
      | some code => .ok (s.note (.init num code))
      | none => .error .null

/-- A call of `destroy`; a jump leads to `setjmp`, which goes on with the next one. -/
def runDestroyPass (malloc : Malloc) (hook : ℕ → Script Unit) (num : ℕ) (st : ℕ × State) :
    Exec (Pass (ℕ × State) State) := do
  let (result, s) ← (hook st.1).run malloc (st.2.note (.destroy num))
  match result with
  | some _ => .ok (.done s)
  | none => .ok (.next (st.1 + 1, s))

/-- The calls of `destroy`, at most `budget` of them. -/
def runDestroy (malloc : Malloc) (budget : ℕ) (suite : Suite) (num : ℕ) (s : State) :
    Exec State :=
  match suite.destroy with
  | none => .ok s
  | some destroy => loop (runDestroyPass malloc (destroy num) num) budget (0, s)

/-- A unit and its hooks.  Where the unit leaves by a jump, it goes on behind it as well. -/
def runCase (malloc : Malloc) (budget : ℕ) (suite : Suite) (num : ℕ) (unit : TestUnit)
    (s : State) : Exec State := do
  let s ← runInit malloc suite num s
  let s := { s with test := { s.test with returnJmp := true } }
  let (_, s) ← unit.run.run malloc (s.note (.run num))
  runDestroy malloc budget suite num s

/-- The message of the test behind a separator, if there is one. -/
def StatusMsg.behind (sep : String) (msg : StatusMsg) : Text :=
  if msg.chars = [] then [] else ascii sep ++ msg.chars

/-- The `switch` over the status of the test. -/
def recordStatus (num : ℕ) (stats : Stats) (s : State) : Stats × State :=
  let title := ascii (toString num) ++ ascii " - " ++ s.test.name
  match s.test.status with
  | .skipped =>
      ({ stats with skipped := stats.skipped + 1 },
        s.log s.test.log
          (ascii "ok " ++ title ++ ascii " # SKIP" ++ s.test.statusMsg.behind " "))
  | .passed =>
      ({ stats with passed := stats.passed + 1 },
        s.log s.test.log (ascii "ok " ++ title ++ s.test.statusMsg.behind " # "))
  | .failed =>
      ({ stats with failed := stats.failed + 1 },
        s.log s.test.log (ascii "not ok " ++ title ++ s.test.statusMsg.behind " # "))

/-- A pass of the loop over the units. -/
def runUnit (malloc : Malloc) (budget : ℕ) (suite : Suite) (num : ℕ) (unit : TestUnit)
    (stats : Stats) (s : State) : Exec (Stats × State) := do
  let stats := { stats with total := stats.total + 1 }
  let (code, s) ← htestInit unit.name suite.log s
  if code ≠ 0 then
    .ok (stats, s.log suite.log (ascii "Failed to initialize test case: " ++ unit.name))
  else do
    let s ←
      if suite.skip then .ok { s with test := { s.test with status := .skipped } }
      else runCase malloc budget suite num unit s
    let (stats, s) := recordStatus num stats s
    let s ← htestDestroy s
    .ok (stats, s)

/-- The loop over the units, from number `num` on. -/
def runUnits (malloc : Malloc) (budget : ℕ) (suite : Suite) :
    ℕ → List TestUnit → Stats → State → Exec (Stats × State)
  | _, [], stats, s => .ok (stats, s)
  | num, unit :: units, stats, s => do
      let (stats, s) ← runUnit malloc budget suite num unit stats s
      runUnits malloc budget suite (num + 1) units stats s

/-- The lines behind the units. -/
def logResults (suite : Suite) (stats : Stats) (s : State) : State :=
  let s :=
    if stats.total = 0 then s.log suite.log (ascii "# Warning: Test suite empty") else s
  s.log suite.log
    (ascii "# Results: passed: " ++ ascii (toString stats.passed) ++ ascii ", failed: " ++
      ascii (toString stats.failed) ++ ascii ", skipped: " ++ ascii (toString stats.skipped) ++
      ascii ", total: " ++ ascii (toString stats.total) ++ ascii "\n")

/-- `htest_run_suite`, with its statistics at the end. -/
def htestRunSuite (malloc : Malloc) (budget : ℕ) (suite : Suite) (log : Bool) (s : State) :
    Exec (ℤ × Stats × State) := do
  let stats := Stats.zero
  let s := { s with test := Test.zero }
  let suite := { suite with log := log }
  let s := s.log suite.log (ascii "# Suite: " ++ suite.name)
  let (stats, s) ← runUnits malloc budget suite 1 suite.units stats s
  .ok (0, stats, logResults suite stats s)

/-! ## The property of a suite -/

/-- The call of a unit, or of `destroy` behind it. -/
def Event.ofRun (num : ℕ) (event : Event) : Bool :=
  event = .run num ∨ event = .destroy num

/-- What the calls for a unit should be: the unit runs exactly when the suite is not skipped and
`init`, if present, returned 0, and then `destroy`, if present, is called once behind it. -/
structure UnitHolds (suite : Suite) (num : ℕ) (made : List Event) : Prop where
  run_iff : .run num ∈ made ↔
    suite.skip = false ∧ (suite.init.isSome = true → .init num 0 ∈ made)
  order : made.filter (Event.ofRun num) =
    if .run num ∈ made then .run num :: (if suite.destroy.isSome then [.destroy num] else [])
    else []

/-- The suite returns, every unit is treated so, and the statistics count the units. -/
def SuiteHolds (malloc : Malloc) (budget : ℕ) (suite : Suite) (log : Bool) (s : State) : Prop :=
  ∃ stats s' made, htestRunSuite malloc budget suite log s = .ok (0, stats, s') ∧
    s'.calls = s.calls ++ made ∧
    (∀ num, 1 ≤ num → num ≤ suite.units.length → UnitHolds suite num made) ∧
    stats.passed + stats.failed + stats.skipped = stats.total ∧
    stats.total = suite.units.length

/-- For the unit, the suite is skipped, or `init` returns 0 and the first call of `destroy`
returns. -/
def Meets (suite : Suite) (num : ℕ) : Prop :=
  suite.skip = true ∨
    (∀ init, suite.init = some init → (init num).result = some 0) ∧
      ∀ destroy, suite.destroy = some destroy → (destroy num 0).result.isSome = true

/-! ## The calls for a unit -/

/-- The calls of `init`. -/
def InitCalls (suite : Suite) (num : ℕ) (events : List Event) : Prop :=
  match suite.init with
  | none => events = []
  | some init => ∃ code, (init num).result = some code ∧ events = [.init num code]

/-- The calls of `destroy`; there is one where the first returns. -/
def DestroyCalls (suite : Suite) (num : ℕ) (events : List Event) : Prop :=
  match suite.destroy with
  | none => events = []
  | some destroy =>
      ∃ more, events = List.replicate (more + 1) (.destroy num) ∧
        (more = 0 ↔ (destroy num 0).result.isSome = true)

/-- The calls for a unit of a suite that is not skipped. -/
def CaseCalls (suite : Suite) (num : ℕ) (events : List Event) : Prop :=
  ∃ inits destroys, InitCalls suite num inits ∧ DestroyCalls suite num destroys ∧
    events = inits ++ [.run num] ++ destroys

section Hooks

variable {suite : Suite} {num : ℕ} {events : List Event}

theorem InitCalls.zero_mem_iff (h : InitCalls suite num events) :
    (suite.init.isSome = true → .init num 0 ∈ events) ↔
      ∀ init, suite.init = some init → (init num).result = some 0 := by
  rw [InitCalls] at h
  cases hinit : suite.init with
  | none => simp
  | some init =>
      rw [hinit] at h
      obtain ⟨code, hcode, rfl⟩ := h
      simp [hcode, eq_comm]

theorem InitCalls.eq_init (h : InitCalls suite num events) :
    ∀ event ∈ events, ∃ code, event = .init num code := by
  rw [InitCalls] at h
  cases hinit : suite.init with
  | none =>
      rw [hinit] at h
      simp [h]
  | some init =>
      rw [hinit] at h
      obtain ⟨code, -, rfl⟩ := h
      simp

theorem DestroyCalls.eq_destroy (h : DestroyCalls suite num events) :
    ∀ event ∈ events, event = .destroy num := by
  rw [DestroyCalls] at h
  cases hdestroy : suite.destroy with
  | none =>
      rw [hdestroy] at h
      simp [h]
  | some destroy =>
      rw [hdestroy] at h
      obtain ⟨more, rfl, -⟩ := h
      exact fun event hevent => List.eq_of_mem_replicate hevent

theorem DestroyCalls.eq_once_iff (h : DestroyCalls suite num events) :
    (events = if suite.destroy.isSome then [.destroy num] else []) ↔
      ∀ destroy, suite.destroy = some destroy → (destroy num 0).result.isSome = true := by
  rw [DestroyCalls] at h
  cases hdestroy : suite.destroy with
  | none =>
      rw [hdestroy] at h
      simp [h]
  | some destroy =>
      rw [hdestroy] at h
      obtain ⟨more, rfl, hmore⟩ := h
      have honce : List.replicate (more + 1) (Event.destroy num) = [.destroy num] ↔ more = 0 := by
        constructor
        · intro heq
          have hlength := congrArg List.length heq
          simpa using hlength
        · rintro rfl
          rfl
      simp [honce, hmore]

/-- The calls for a unit that was run are as they should be exactly where its hooks are. -/
theorem CaseCalls.holds_iff (h : CaseCalls suite num events) (hskip : suite.skip = false) :
    UnitHolds suite num events ↔ Meets suite num := by
  obtain ⟨inits, destroys, hinits, hdestroys, rfl⟩ := h
  have hrun : Event.run num ∈ inits ++ [Event.run num] ++ destroys := by simp
  have hinit : Event.init num 0 ∈ inits ++ [Event.run num] ++ destroys ↔ .init num 0 ∈ inits := by
    have hnot : Event.init num 0 ∉ destroys := fun hmem =>
      Event.noConfusion (hdestroys.eq_destroy _ hmem)
    simp [hnot]
  have hinits' : inits.filter (Event.ofRun num) = [] := by
    rw [List.filter_eq_nil_iff]
    intro event hevent
    obtain ⟨code, rfl⟩ := hinits.eq_init event hevent
    simp [Event.ofRun]
  have hdestroys' : destroys.filter (Event.ofRun num) = destroys := by
    rw [List.filter_eq_self]
    intro event hevent
    simp [Event.ofRun, hdestroys.eq_destroy event hevent]
  have horder : (inits ++ [Event.run num] ++ destroys).filter (Event.ofRun num) =
      .run num :: destroys := by
    rw [List.filter_append, List.filter_append, hinits', hdestroys']
    simp [Event.ofRun]
  constructor
  · intro hholds
    have hbehind := hholds.order
    rw [horder, if_pos hrun] at hbehind
    refine Or.inr ⟨hinits.zero_mem_iff.mp fun hsome => ?_, ?_⟩
    · exact hinit.mp ((hholds.run_iff.mp hrun).2 hsome)
    · exact hdestroys.eq_once_iff.mp (List.cons.inj hbehind).2
  · rintro (hskipped | ⟨hzero, honce⟩)
    · exact absurd (hskip.symm.trans hskipped) Bool.false_ne_true
    · refine ⟨iff_of_true hrun ⟨hskip, fun hsome => ?_⟩, ?_⟩
      · exact hinit.mpr (hinits.zero_mem_iff.mpr hzero hsome)
      · rw [horder, if_pos hrun, hdestroys.eq_once_iff.mpr honce]

/-- No call for a unit of a suite that is skipped. -/
theorem unitHolds_nil (hskip : suite.skip = true) : UnitHolds suite num [] := by
  refine ⟨?_, rfl⟩
  simp [hskip]

theorem unitHolds_filter {made : List Event} :
    UnitHolds suite num (made.filter (Event.about num)) ↔ UnitHolds suite num made := by
  have hmem : ∀ event, event.about num = true →
      (event ∈ made.filter (Event.about num) ↔ event ∈ made) := by
    intro event habout
    rw [List.mem_filter, and_iff_left habout]
  have hrun := hmem (.run num) (decide_eq_true rfl)
  have hinit := hmem (.init num 0) (decide_eq_true rfl)
  have horder : (made.filter (Event.about num)).filter (Event.ofRun num) =
      made.filter (Event.ofRun num) := by
    rw [List.filter_filter]
    apply List.filter_congr
    intro event _
    cases event <;> simp [Event.about, Event.ofRun]
  constructor
  · rintro ⟨hiff, hcalls⟩
    rw [hrun, hinit] at hiff
    rw [horder] at hcalls
    simp only [hrun] at hcalls
    exact ⟨hiff, hcalls⟩
  · rintro ⟨hiff, hcalls⟩
    refine ⟨by rw [hrun, hinit]; exact hiff, ?_⟩
    rw [horder]
    simp only [hrun]
    exact hcalls

end Hooks

/-! ## The run of a suite -/

/-- A part of the run for a unit makes calls with `P` and keeps a list of handles, or ends with a
fault, which it does only where it `fails`. -/
def Performs (base : Finset ℕ) (num : ℕ) (s : State) (part : Exec State)
    (P : List Event → Prop) (fails : Prop) : Prop :=
  (∃ s' events, part = .ok s' ∧ P events ∧ (∃ l, Holds base s' l) ∧
    Adds s s' (only num events)) ∨ fails ∧ ∃ e, part = .error e

section Run

variable {base : Finset ℕ} {malloc : Malloc} {suite : Suite} {num : ℕ} {s : State}
  {l : List (ℕ × Handle)}

theorem runInit_performs (h : Holds base s l) (malloc : Malloc) (suite : Suite) (num : ℕ) :
    Performs base num s (runInit malloc suite num s) (InitCalls suite num)
      (¬ ∀ init, suite.init = some init → (init num).result = some 0) := by
  rw [runInit]
  cases hinit : suite.init with
  | none =>
      refine Or.inl ⟨s, [], rfl, ?_, ⟨l, h⟩, Adds.nothing s num⟩
      rw [InitCalls, hinit]
  | some init =>
      have hfails : (init num).result = none →
          ¬ ∀ init', some init = some init' → (init' num).result = some 0 := by
        intro hresult hzero
        rw [hzero init rfl] at hresult
        cases hresult
      rcases h.script malloc (init num) with ⟨s₁, hrun, hkeeps⟩ | ⟨hresult, -, hrun⟩
      · simp only [hrun, Exec.ok_bind]
        cases hresult : (init num).result with
        | none => exact Or.inr ⟨hfails hresult, _, rfl⟩
        | some code =>
            obtain ⟨l₁, h₁⟩ := hkeeps.holds
            refine Or.inl ⟨_, [.init num code], rfl, ?_, ⟨l₁, h₁.note _⟩, ?_⟩
            · rw [InitCalls, hinit]
              exact ⟨code, hresult, rfl⟩
            · exact hkeeps.adds.then (adds_note s₁ fun _ => rfl)
      · simp only [hrun, Exec.error_bind]
        exact Or.inr ⟨hfails hresult, _, rfl⟩

/-- A call of `destroy` leaves the loop exactly where it returns. -/
theorem runDestroyPass_eq (h : Holds base s l) (hjmp : s.test.returnJmp = true)
    (malloc : Malloc) (hook : ℕ → Script Unit) (num count : ℕ) :
    ∃ s', runDestroyPass malloc hook num (count, s) =
        .ok (if (hook count).result.isSome then .done s' else .next (count + 1, s')) ∧
      (∃ l', Holds base s' l') ∧ Adds s s' (only num [.destroy num]) ∧
        s'.test.returnJmp = true := by
  rcases (h.note (.destroy num)).script malloc (hook count) with
    ⟨s', hrun, hkeeps⟩ | ⟨-, hjmp', -⟩
  · refine ⟨s', ?_, hkeeps.holds, ?_, hkeeps.returnJmp.trans hjmp⟩
    · rw [runDestroyPass, hrun]
      cases (hook count).result <;> rfl
    · exact (adds_note s fun _ => rfl).and_nothing hkeeps.adds
  · exact absurd (hjmp'.symm.trans hjmp) Bool.false_ne_true

/-- `destroy` is called until it returns, or as often as the budget allows. -/
theorem runDestroy_loop (h : Holds base s l) (hjmp : s.test.returnJmp = true)
    (hook : ℕ → Script Unit) (count budget : ℕ) :
    Performs base num s (loop (runDestroyPass malloc hook num) budget (count, s))
      (fun events => ∃ more, events = List.replicate (more + 1) (.destroy num)) True := by
  induction budget generalizing s l count with
  | zero => exact Or.inr ⟨trivial, .budget, rfl⟩
  | succ budget ih =>
      obtain ⟨s₁, hpass, ⟨l₁, h₁⟩, hadds, hjmp₁⟩ := runDestroyPass_eq h hjmp malloc hook num count
      cases hreturns : (hook count).result.isSome with
      | true =>
          rw [hreturns] at hpass
          exact Or.inl ⟨s₁, _, loop_done hpass budget, ⟨0, rfl⟩, ⟨l₁, h₁⟩, hadds⟩
      | false =>
          rw [hreturns] at hpass
          rw [loop_next hpass]
          rcases ih h₁ hjmp₁ (count + 1) with ⟨s', _, hloop, ⟨more, rfl⟩, hheld, hadds'⟩ | hfault
          · exact Or.inl ⟨s', _, hloop, ⟨more + 1, rfl⟩, hheld, hadds.and_only hadds'⟩
          · exact Or.inr hfault

/-- `destroy` is called once, if it is there and returns then. -/
theorem runDestroy_performs (h : Holds base s l) (hjmp : s.test.returnJmp = true)
    (malloc : Malloc) (budget : ℕ) (suite : Suite) (num : ℕ) :
    Performs base num s (runDestroy malloc (budget + 1) suite num s) (DestroyCalls suite num)
      (¬ ∀ destroy, suite.destroy = some destroy → (destroy num 0).result.isSome = true) := by
  rw [runDestroy]
  cases hdestroy : suite.destroy with
  | none =>
      refine Or.inl ⟨s, [], rfl, ?_, ⟨l, h⟩, Adds.nothing s num⟩
      rw [DestroyCalls, hdestroy]
  | some destroy =>
      obtain ⟨s₁, hpass, ⟨l₁, h₁⟩, hadds, hjmp₁⟩ :=
        runDestroyPass_eq h hjmp malloc (destroy num) num 0
      cases hreturns : (destroy num 0).result.isSome with
      | true =>
          rw [hreturns] at hpass
          refine Or.inl ⟨s₁, _, loop_done hpass budget, ?_, ⟨l₁, h₁⟩, hadds⟩
          rw [DestroyCalls, hdestroy]
          exact ⟨0, rfl, iff_of_true rfl hreturns⟩
      | false =>
          rw [hreturns] at hpass
          simp only [loop_next hpass]
          rcases runDestroy_loop h₁ hjmp₁ (destroy num) 1 budget with
            ⟨s', _, hloop, ⟨more, rfl⟩, hheld, hadds'⟩ | ⟨-, hfault⟩
          · refine Or.inl ⟨s', _, hloop, ?_, hheld, hadds.and_only hadds'⟩
            rw [DestroyCalls, hdestroy]
            refine ⟨more + 1, rfl, iff_of_false (Nat.succ_ne_zero _) ?_⟩
            rw [hreturns]
            exact Bool.false_ne_true
          · refine Or.inr ⟨fun honce => ?_, hfault⟩
            rw [honce destroy rfl] at hreturns
            cases hreturns

theorem runCase_performs (h : Holds base s l) (hskip : suite.skip = false) (malloc : Malloc)
    (budget num : ℕ) (unit : TestUnit) :
    Performs base num s (runCase malloc (budget + 1) suite num unit s) (CaseCalls suite num)
      (¬ Meets suite num) := by
  have hmeets : Meets suite num →
      (∀ init, suite.init = some init → (init num).result = some 0) ∧
        ∀ destroy, suite.destroy = some destroy → (destroy num 0).result.isSome = true := by
    intro hmeets
    exact hmeets.resolve_left fun hskip' => Bool.false_ne_true (hskip.symm.trans hskip')
  rcases runInit_performs h malloc suite num with
    ⟨s₁, inits, hinit, hinits, ⟨l₁, h₁⟩, hadds₁⟩ | ⟨hfails, e, hinit⟩
  · let armed := { s₁ with test := { s₁.test with returnJmp := true } }
    have harmed : Holds base armed l₁ := Untouched.holds (s := s₁) ⟨rfl, rfl, rfl, rfl⟩ h₁
    rcases (harmed.note (.run num)).script malloc unit.run with
      ⟨s₂, hrun, hkeeps⟩ | ⟨-, hjmp, -⟩
    · obtain ⟨l₂, h₂⟩ := hkeeps.holds
      have hunit : Adds s₁ s₂ (only num [.run num]) :=
        (adds_note armed fun _ => rfl).and_nothing hkeeps.adds
      have hadds₂ := hadds₁.and_only hunit
      have hcase : runCase malloc (budget + 1) suite num unit s =
          runDestroy malloc (budget + 1) suite num s₂ := by
        rw [runCase, hinit, Exec.ok_bind]
        exact congrArg (· >>= fun r => runDestroy malloc (budget + 1) suite num r.2) hrun
      rw [hcase]
      rcases runDestroy_performs h₂ hkeeps.returnJmp malloc budget suite num with
        ⟨s', destroys, hdestroy, hdestroys, hheld, hadds'⟩ | ⟨hfails, hfault⟩
      · refine Or.inl ⟨s', _, hdestroy, ?_, hheld, hadds₂.and_only hadds'⟩
        exact ⟨inits, destroys, hinits, hdestroys, rfl⟩
      · exact Or.inr ⟨fun hmeet => hfails (hmeets hmeet).2, hfault⟩
    · cases hjmp
  · rw [runCase, hinit]
    exact Or.inr ⟨fun hmeet => hfails (hmeets hmeet).1, e, rfl⟩

/-- The statistics count `n` more units. -/
def Counts (n : ℕ) (stats stats' : Stats) : Prop :=
  stats'.passed + stats'.failed + stats'.skipped =
    stats.passed + stats.failed + stats.skipped + n ∧ stats'.total = stats.total + n

theorem recordStatus_counts (num : ℕ) (stats : Stats) (s : State) :
    Counts 1 stats (recordStatus num { stats with total := stats.total + 1 } s).1 ∧
      Untouched s (recordStatus num { stats with total := stats.total + 1 } s).2 := by
  rw [recordStatus]
  cases s.test.status with
  | passed => exact ⟨⟨by simp only; omega, rfl⟩, s.log_untouched _ _⟩
  | skipped => exact ⟨⟨by simp only; omega, rfl⟩, s.log_untouched _ _⟩
  | failed => exact ⟨⟨by simp only; omega, rfl⟩, s.log_untouched _ _⟩

/-- A unit that was run or skipped is recorded, and its resources are released. -/
theorem runUnit_records (h : Holds base s l) (num : ℕ) (stats : Stats) :
    ∃ stats' s', (do
        let (stats, s) := recordStatus num { stats with total := stats.total + 1 } s
        let s ← htestDestroy s
        .ok (stats, s)) = Except.ok (stats', s') ∧
      Counts 1 stats stats' ∧ Adds s s' fun _ => [] := by
  obtain ⟨hcounts, hkept⟩ := recordStatus_counts num stats s
  obtain ⟨s', hdestroy, -, hcalls, -⟩ := (hkept.holds h).htestDestroy
  refine ⟨_, s', ?_, hcounts, l.map (Handle.released ∘ Prod.snd), ?_, fun num => ?_⟩
  · simp only [hdestroy, Exec.ok_bind]
  · rw [hcalls, hkept.calls]
  · rw [List.filter_eq_nil_iff]
    intro event hevent
    obtain ⟨p, -, rfl⟩ := List.mem_map.mp hevent
    exact Bool.false_ne_true

/-- A pass of the loop counts the unit, and its calls are as they should be exactly where its
hooks are. -/
theorem runUnit_ends (malloc : Malloc) (budget : ℕ) (suite : Suite) (num : ℕ) (unit : TestUnit)
    (stats : Stats) (s : State) :
    (∃ stats' s' events,
      runUnit malloc (budget + 1) suite num unit stats s = .ok (stats', s') ∧
        Adds s s' (only num events) ∧ (UnitHolds suite num events ↔ Meets suite num) ∧
          Counts 1 stats stats') ∨
      ¬ Meets suite num ∧ ∃ e, runUnit malloc (budget + 1) suite num unit stats s = .error e := by
  obtain ⟨s₀, hinit, h₀, hcalls₀⟩ := htestInit_holds unit.name suite.log s
  have hadds₀ : Adds s s₀ fun _ => [] := Adds.of_eq hcalls₀
  cases hskip : suite.skip with
  | true =>
      let skipped := { s₀ with test := { s₀.test with status := .skipped } }
      have hskipped : Holds s.live skipped [] := Untouched.holds (s := s₀) ⟨rfl, rfl, rfl, rfl⟩ h₀
      obtain ⟨stats', s', hrecord, hcounts, hadds'⟩ := runUnit_records hskipped num stats
      refine Or.inl ⟨stats', s', [], ?_, ?_, ?_, hcounts⟩
      · rw [runUnit, hinit]
        simp only [Exec.ok_bind, hskip, if_true]
        exact hrecord
      · rw [only_nil]
        exact hadds₀.then hadds'
      · exact iff_of_true (unitHolds_nil hskip) (Or.inl hskip)
  | false =>
      rcases runCase_performs h₀ hskip malloc budget num unit with
        ⟨s₁, events, hcase, hevents, ⟨l₁, h₁⟩, hadds₁⟩ | ⟨hfails, e, hcase⟩
      · obtain ⟨stats', s', hrecord, hcounts, hadds'⟩ := runUnit_records h₁ num stats
        refine Or.inl ⟨stats', s', events, ?_, ?_, hevents.holds_iff hskip, hcounts⟩
        · rw [runUnit, hinit]
          simp only [Exec.ok_bind, hskip, hcase]
          exact hrecord
        · exact hadds₀.then (hadds₁.and_nothing hadds')
      · refine Or.inr ⟨hfails, e, ?_⟩
        rw [runUnit, hinit]
        simp only [Exec.ok_bind, hskip, hcase]
        rfl

/-- The loop counts the units from `num` on, and the calls for each are as they should be
exactly where its hooks are. -/
theorem runUnits_ends (malloc : Malloc) (budget : ℕ) (suite : Suite) (num : ℕ)
    (units : List TestUnit) (stats : Stats) (s : State) :
    (∃ stats' s' hooks,
      runUnits malloc (budget + 1) suite num units stats s = .ok (stats', s') ∧
        Adds s s' hooks ∧ (∀ n < num, hooks n = []) ∧
          (∀ n, num ≤ n → n < num + units.length →
            (UnitHolds suite n (hooks n) ↔ Meets suite n)) ∧
            Counts units.length stats stats') ∨
      (∃ n, num ≤ n ∧ n < num + units.length ∧ ¬ Meets suite n) ∧
        ∃ e, runUnits malloc (budget + 1) suite num units stats s = .error e := by
  induction units generalizing num stats s with
  | nil =>
      refine Or.inl ⟨stats, s, _, rfl, Adds.of_eq rfl, fun _ _ => rfl, ?_, rfl, rfl⟩
      intro n hle hlt
      exact absurd hlt (Nat.not_lt.mpr hle)
  | cons unit units ih =>
      rw [runUnits]
      rcases runUnit_ends malloc budget suite num unit stats s with
        ⟨stats₁, s₁, events, hunit, hadds₁, hiff₁, hcounts₁⟩ | ⟨hfails, e, hunit⟩
      · simp only [hunit, Exec.ok_bind]
        rcases ih (num + 1) stats₁ s₁ with
          ⟨stats', s', hooks, hunits, hadds', hbefore, hiff, hcounts⟩ |
            ⟨⟨n, hle, hlt, hfails⟩, hfault⟩
        · refine Or.inl ⟨stats', s', _, hunits, hadds₁.trans hadds', ?_, ?_, ?_⟩
          · intro n hn
            rw [hbefore n (by omega), only, Function.update_of_ne (by omega)]
            rfl
          · intro n hle hlt
            rcases Nat.eq_or_lt_of_le hle with rfl | hlt'
            · rw [hbefore num (Nat.lt_succ_self num), only, Function.update_self,
                List.append_nil]
              exact hiff₁
            · rw [only, Function.update_of_ne (by omega), List.nil_append]
              exact hiff n hlt' (by rw [List.length_cons] at hlt; omega)
          · obtain ⟨hsum₁, htotal₁⟩ := hcounts₁
            obtain ⟨hsum, htotal⟩ := hcounts
            rw [List.length_cons]
            exact ⟨by omega, by omega⟩
        · refine Or.inr ⟨⟨n, by omega, ?_, hfails⟩, hfault⟩
          rw [List.length_cons]
          omega
      · rw [hunit]
        refine Or.inr ⟨⟨num, le_rfl, ?_, hfails⟩, e, rfl⟩
        rw [List.length_cons]
        omega

theorem logResults_untouched (suite : Suite) (stats : Stats) (s : State) :
    Untouched s (logResults suite stats s) := by
  rw [logResults]
  split
  · exact (State.log_untouched _ _ _).trans (State.log_untouched _ _ _)
  · exact State.log_untouched _ _ _

/-- Where a suite logs makes no difference to its calls. -/
theorem unitHolds_log (log : Bool) {made : List Event} :
    UnitHolds { suite with log := log } num made ↔ UnitHolds suite num made :=
  ⟨fun h => ⟨h.run_iff, h.order⟩, fun h => ⟨h.run_iff, h.order⟩⟩

end Run

/-- `htest_run_suite` runs the units as it should, and counts them, exactly where the suite is
skipped, or for every unit `init` returns 0 and the first call of `destroy` returns. -/
theorem htestRunSuite_holds_iff (malloc : Malloc) (budget : ℕ) (suite : Suite) (log : Bool)
    (s : State) :
    SuiteHolds malloc (budget + 1) suite log s ↔
      ∀ num, 1 ≤ num → num ≤ suite.units.length → Meets suite num := by
  let begun := ({ s with test := Test.zero } : State).log log (ascii "# Suite: " ++ suite.name)
  have hbegun : begun.calls = s.calls := (State.log_untouched _ _ _).calls
  have hsuite : htestRunSuite malloc (budget + 1) suite log s =
      runUnits malloc (budget + 1) { suite with log := log } 1 suite.units
        Stats.zero begun >>= fun r =>
          .ok (0, r.1, logResults { suite with log := log } r.1 r.2) := rfl
  rcases runUnits_ends malloc budget { suite with log := log } 1 suite.units
    Stats.zero begun with
    ⟨stats, s', hooks, hunits, ⟨made, hcalls, hmade⟩, -, hiff, hcounts⟩ |
      ⟨⟨num, hle, hlt, hfails⟩, e, hunits⟩
  · rw [hunits, Exec.ok_bind] at hsuite
    rw [hbegun, ← (logResults_untouched { suite with log := log } stats s').calls] at hcalls
    have hunit : ∀ num, 1 ≤ num → num ≤ suite.units.length →
        (UnitHolds suite num made ↔ Meets suite num) := by
      intro num hle hlt
      rw [← unitHolds_filter, hmade, ← unitHolds_log log]
      exact hiff num hle (by omega)
    constructor
    · rintro ⟨stats', s'', made', hrun, hcalls', hholds, -, -⟩ num hle hlt
      have heq := hsuite.symm.trans hrun
      simp only [Except.ok.injEq, Prod.mk.injEq, true_and] at heq
      obtain ⟨rfl, rfl⟩ := heq
      obtain rfl := List.append_cancel_left (hcalls.symm.trans hcalls')
      exact (hunit num hle hlt).mp (hholds num hle hlt)
    · intro hmeets
      have hsum := hcounts.1.trans (Nat.zero_add _)
      have htotal := hcounts.2.trans (Nat.zero_add _)
      refine ⟨stats, _, made, hsuite, hcalls, ?_, hsum.trans htotal.symm, htotal⟩
      exact fun num hle hlt => (hunit num hle hlt).mpr (hmeets num hle hlt)
  · rw [hunits, Exec.error_bind] at hsuite
    refine iff_of_false ?_ fun hmeets => hfails (hmeets num hle (by omega))
    rintro ⟨stats, s', made, hrun, -⟩
    cases hsuite.symm.trans hrun

/-- A suite of one unit, with an `init` that returns an error. -/
def failingInit : Suite where
  units := [{ name := ascii "unit", run := { steps := [], ending := .returns () } }]
  name := ascii "suite"
  skip := false
  init := some fun _ => { steps := [], ending := .returns 1 }
  destroy := none
  log := false

/-- The unit is run though `init` returned an error. -/
theorem htestRunSuite_ignores_init : ¬ SuiteHolds bump 1 failingInit false blank := by
  have hcalls : (htestRunSuite bump 1 failingInit false blank).map (fun r => r.2.2.calls) =
      .ok [.init 1 1, .run 1] := rfl
  rintro ⟨stats, s', made, hrun, hmade, hholds, -, -⟩
  rw [hrun] at hcalls
  obtain rfl : made = [.init 1 1, .run 1] := hmade.symm.trans (Except.ok.inj hcalls)
  obtain ⟨-, hinit⟩ := (hholds 1 le_rfl le_rfl).run_iff.mp (by decide)
  exact absurd (hinit rfl) (by decide)

end Hlibc.Htest
