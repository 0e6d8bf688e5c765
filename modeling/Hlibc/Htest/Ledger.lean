import Hlibc.Htest.Report

/-!
# The ledger of a suite

Whatever the hooks and the unit of a test create, `htest_destroy` releases behind it, the last
resource first, and frees its handles.  So a run of a suite gives back all memory and closes all
files, unless it closes a file that could not be opened.
-/

set_option autoImplicit false

namespace Hlibc.Htest

/-! ## What the code creates -/

/-- The resource that a step creates. -/
def Step.creates : Step → List Call
  | .create call => if call.found then [call] else []
  | _ => []

/-- The resources that the steps create, up to the step that leaves. -/
def stepsCreates : List Step → List Call
  | [] => []
  | step :: steps => step.creates ++ if step.goesOn then stepsCreates steps else []

/-- The resources that the calls of `destroy` create, from the one with this number until one
returns. -/
def destroyCreates (hook : ℕ → Script Unit) : ℕ → ℕ → List Call
  | 0, _ => []
  | budget + 1, count =>
      stepsCreates (hook count).steps ++
        if (hook count).result.isSome then [] else destroyCreates hook budget (count + 1)

/-- The resources of a test. -/
def Suite.creates (budget : ℕ) (suite : Suite) (num : ℕ) (unit : TestUnit) : List Call :=
  if suite.skip then []
  else
    (suite.init.elim [] fun init => stepsCreates (init num).steps) ++
      stepsCreates unit.run.steps ++
      suite.destroy.elim [] fun destroy => destroyCreates (destroy num) budget 0

/-- The resources of the tests, from number `num` on. -/
def Suite.createsFrom (budget : ℕ) (suite : Suite) : ℕ → List TestUnit → List (List Call)
  | _, [] => []
  | num, unit :: units =>
      suite.creates budget num unit :: suite.createsFrom budget (num + 1) units

/-- The calls of `create` and `destroy` for the resources of a test. -/
def ledger (calls : List Call) : List Event :=
  calls.map Call.created ++ calls.reverse.map fun call => call.handle.released

/-- The event is a call of `create` or `destroy` of a resource. -/
def Event.ofResource : Event → Bool
  | .create _ _ _ => true
  | .release _ _ => true
  | _ => false

/-- The events in between, of which these are about resources. -/
def Books (s s' : State) (events : List Event) : Prop :=
  ∃ made, s'.calls = s.calls ++ made ∧ made.filter Event.ofResource = events

/-- These events are about resources, and the handles that are allocated are as before. -/
structure Settles (s s' : State) (events : List Event) : Prop where
  books : Books s s' events
  live : s'.live = s.live

/-- The test has created the resources `calls`, and its list the handles of these besides the
ones before. -/
structure Acquires (base : Finset ℕ) (s : State) (l : List (ℕ × Handle)) (s' : State)
    (l' : List (ℕ × Handle)) (calls : List Call) : Prop where
  holds : Holds base s' l'
  handles : l'.map Prod.snd = calls.reverse.map Call.handle ++ l.map Prod.snd
  books : Books s s' (calls.map Call.created)

section Books

variable {base : Finset ℕ} {s s' s'' : State} {l l' l'' : List (ℕ × Handle)}
  {calls calls' : List Call} {events events' : List Event} {malloc : Malloc} {ρ : Type}

theorem Books.of_eq (h : s'.calls = s.calls) : Books s s' [] :=
  ⟨[], by rw [h, List.append_nil], rfl⟩

theorem Books.trans (h : Books s s' events) (h' : Books s' s'' events') :
    Books s s'' (events ++ events') := by
  obtain ⟨made, hcalls, hmade⟩ := h
  obtain ⟨made', hcalls', hmade'⟩ := h'
  exact ⟨made ++ made', by rw [hcalls', hcalls, List.append_assoc],
    by rw [List.filter_append, hmade, hmade']⟩

theorem Settles.trans (h : Settles s s' events) (h' : Settles s' s'' events') :
    Settles s s'' (events ++ events') :=
  ⟨h.books.trans h'.books, h'.live.trans h.live⟩

theorem Untouched.settles (h : Untouched s s') : Settles s s' [] :=
  ⟨Books.of_eq h.calls, h.live⟩

theorem Acquires.trans (h : Acquires base s l s' l' calls)
    (h' : Acquires base s' l' s'' l'' calls') : Acquires base s l s'' l'' (calls ++ calls') where
  holds := h'.holds
  handles := by
    rw [h'.handles, h.handles, List.reverse_append, List.map_append, List.append_assoc]
  books := by
    rw [List.map_append]
    exact h.books.trans h'.books

theorem Holds.untouched (h : Holds base s l) (hkept : Untouched s s') :
    Acquires base s l s' l [] :=
  ⟨hkept.holds h, rfl, Books.of_eq hkept.calls⟩

theorem Holds.noted (h : Holds base s l) {event : Event} (hevent : event.ofResource = false) :
    Acquires base s l (s.note event) l [] := by
  refine ⟨h.note event, rfl, [event], rfl, List.filter_eq_nil_iff.mpr ?_⟩
  intro e he
  rw [List.mem_singleton.mp he, hevent]
  exact Bool.false_ne_true

theorem htestReturn_untouched {status : Status} {msg : Option Text}
    (h : htestReturn (htestSetStatus status msg s) = .ok s') : Untouched s s' := by
  rw [eq_of_check h]
  exact (htestSetStatus_untouched status msg s).1

theorem htestAssert_untouched {assertion : Assertion} {behind : Text} {goesOn : Bool}
    (h : htestAssert assertion behind s = .ok (goesOn, s')) : Untouched s s' := by
  rw [htestAssert] at h
  cases hresult : assertion.result with
  | true =>
      rw [hresult] at h
      obtain ⟨-, rfl⟩ := Prod.mk.inj (Except.ok.inj h)
      exact ⟨rfl, rfl, rfl, rfl⟩
  | false =>
      rw [hresult] at h
      obtain ⟨s₁, hfail, heq⟩ := Exec.bind_eq_ok.mp h
      obtain ⟨-, rfl⟩ := Prod.mk.inj (Except.ok.inj heq)
      exact ((State.log_untouched _ _ _).trans (State.log_untouched _ _ _)).trans
        (htestReturn_untouched hfail)

theorem htestCreateResource_acquires {call : Call} {data : Option ℕ} (hheld : Holds base s l)
    (h : htestCreateResource malloc call.res call.arg call.found call.data s = .ok (data, s')) :
    ∃ l', Acquires base s l s' l' (Step.create call).creates := by
  rw [Step.creates]
  cases hfound : call.found with
  | true =>
      have hhead : (s.links.next .resources).Valid s.live :=
        hheld.valid (hheld.neighbours List.mem_cons_self).1
      rw [htestCreateResource_eq malloc s hfound rfl hhead] at h
      obtain ⟨rfl, rfl⟩ := Prod.mk.inj (Except.ok.inj h)
      have hattach := hheld.attach (malloc.fresh s.mallocs s.live) call
      exact ⟨_, hattach, rfl, [call.created], rfl, rfl⟩
  | false =>
      simp only [htestCreateResource, hfound, Bool.not_false, if_true] at h
      obtain ⟨s₁, hfail, heq⟩ := Exec.bind_eq_ok.mp h
      obtain ⟨rfl, rfl⟩ := Prod.mk.inj (Except.ok.inj heq)
      have hkept := htestReturn_untouched hfail
      exact ⟨l, hheld.untouched ⟨hkept.links, hkept.handles, hkept.live, hkept.calls⟩⟩

theorem runStep_acquires {step : Step} {goesOn : Bool} (hheld : Holds base s l)
    (h : runStep malloc step s = .ok (goesOn, s')) :
    ∃ l', Acquires base s l s' l' step.creates := by
  cases step with
  | create call =>
      obtain ⟨⟨data, s₁⟩, hcreate, heq⟩ := Exec.bind_eq_ok.mp h
      obtain ⟨-, rfl⟩ := Prod.mk.inj (Except.ok.inj heq)
      exact htestCreateResource_acquires hheld hcreate
  | setStatus status msg =>
      obtain ⟨-, rfl⟩ := Prod.mk.inj (Except.ok.inj h)
      exact ⟨l, hheld.untouched (htestSetStatus_untouched status msg s).1⟩
  | setData data =>
      obtain ⟨-, rfl⟩ := Prod.mk.inj (Except.ok.inj h)
      exact ⟨l, hheld.untouched ⟨rfl, rfl, rfl, rfl⟩⟩
  | log level line =>
      obtain ⟨-, rfl⟩ := Prod.mk.inj (Except.ok.inj h)
      exact ⟨l, hheld.untouched (State.log_untouched _ _ _)⟩
  | error line =>
      obtain ⟨-, rfl⟩ := Prod.mk.inj (Except.ok.inj h)
      exact ⟨l, hheld.untouched (State.log_untouched _ _ _)⟩
  | warn line =>
      obtain ⟨-, rfl⟩ := Prod.mk.inj (Except.ok.inj h)
      exact ⟨l, hheld.untouched (State.log_untouched _ _ _)⟩
  | info line =>
      obtain ⟨-, rfl⟩ := Prod.mk.inj (Except.ok.inj h)
      exact ⟨l, hheld.untouched (State.log_untouched _ _ _)⟩
  | assert assertion behind => exact ⟨l, hheld.untouched (htestAssert_untouched h)⟩

theorem runSteps_acquires {steps : List Step} {ended : Bool} (hheld : Holds base s l)
    (h : runSteps malloc steps s = .ok (ended, s')) :
    ∃ l', Acquires base s l s' l' (stepsCreates steps) := by
  induction steps generalizing s l with
  | nil =>
      obtain ⟨rfl, rfl⟩ := Prod.mk.inj (Except.ok.inj h)
      exact ⟨l, hheld.untouched ⟨rfl, rfl, rfl, rfl⟩⟩
  | cons step steps ih =>
      obtain ⟨⟨goesOn, s₁⟩, hstep, h⟩ := Exec.bind_eq_ok.mp h
      obtain ⟨l₁, hfirst⟩ := runStep_acquires hheld hstep
      obtain ⟨-, rfl⟩ := runStep_shows hstep
      rw [stepsCreates]
      cases hgoesOn : step.goesOn with
      | true =>
          simp only [hgoesOn, if_true] at h
          obtain ⟨l', hrest⟩ := ih hfirst.holds h
          exact ⟨l', hfirst.trans hrest⟩
      | false =>
          simp only [hgoesOn, Bool.false_eq_true, if_false] at h
          obtain ⟨-, rfl⟩ := Prod.mk.inj (Except.ok.inj h)
          rw [if_neg Bool.false_ne_true, List.append_nil]
          exact ⟨l₁, hfirst⟩

theorem Ending.run_untouched {ending : Ending ρ} {result : Option ρ}
    (h : ending.run s = .ok (result, s')) : Untouched s s' := by
  cases ending with
  | returns r =>
      obtain ⟨-, rfl⟩ := Prod.mk.inj (Except.ok.inj h)
      exact ⟨rfl, rfl, rfl, rfl⟩
  | htestPass msg =>
      obtain ⟨s₁, hreturn, heq⟩ := Exec.bind_eq_ok.mp h
      obtain ⟨-, rfl⟩ := Prod.mk.inj (Except.ok.inj heq)
      exact htestReturn_untouched hreturn
  | htestSkip msg =>
      obtain ⟨s₁, hreturn, heq⟩ := Exec.bind_eq_ok.mp h
      obtain ⟨-, rfl⟩ := Prod.mk.inj (Except.ok.inj heq)
      exact htestReturn_untouched hreturn
  | htestFail msg =>
      obtain ⟨s₁, hreturn, heq⟩ := Exec.bind_eq_ok.mp h
      obtain ⟨-, rfl⟩ := Prod.mk.inj (Except.ok.inj heq)
      exact htestReturn_untouched hreturn

/-- A call of the code acquires what its steps create. -/
theorem Script.run_acquires {script : Script ρ} {result : Option ρ} (hheld : Holds base s l)
    (h : script.run malloc s = .ok (result, s')) :
    ∃ l', Acquires base s l s' l' (stepsCreates script.steps) := by
  obtain ⟨⟨ended, s₁⟩, hsteps, h⟩ := Exec.bind_eq_ok.mp h
  obtain ⟨l₁, hacquires⟩ := runSteps_acquires hheld hsteps
  refine ⟨l₁, ?_⟩
  have hkept : Untouched s₁ s' := by
    cases ended with
    | true => exact Ending.run_untouched h
    | false =>
        obtain ⟨-, rfl⟩ := Prod.mk.inj (Except.ok.inj h)
        exact ⟨rfl, rfl, rfl, rfl⟩
  have hall := hacquires.trans (hacquires.holds.untouched hkept)
  rwa [List.append_nil] at hall

/-! ## Tests -/

theorem runInit_acquires {suite : Suite} {num : ℕ} (hheld : Holds base s l)
    (h : runInit malloc suite num s = .ok s') :
    ∃ l', Acquires base s l s' l'
      (suite.init.elim [] fun init => stepsCreates (init num).steps) := by
  rw [runInit] at h
  cases hinit : suite.init with
  | none =>
      rw [hinit] at h
      obtain rfl := Except.ok.inj h
      exact ⟨l, hheld.untouched ⟨rfl, rfl, rfl, rfl⟩⟩
  | some init =>
      rw [hinit] at h
      obtain ⟨⟨code, s₁⟩, hrun, h⟩ := Exec.bind_eq_ok.mp h
      obtain ⟨l₁, hacquires⟩ := Script.run_acquires hheld hrun
      cases code with
      | none => cases h
      | some code =>
          obtain rfl := Except.ok.inj h
          have hevent : (Event.init num code).ofResource = false := rfl
          have hall := hacquires.trans (hacquires.holds.noted hevent)
          rw [List.append_nil] at hall
          exact ⟨l₁, hall⟩

theorem runDestroy_loop_acquires {hook : ℕ → Script Unit} {num : ℕ} (budget count : ℕ)
    (hheld : Holds base s l)
    (h : loop (runDestroyPass malloc hook num) budget (count, s) = .ok s') :
    ∃ l', Acquires base s l s' l' (destroyCreates hook budget count) := by
  induction budget generalizing s l count with
  | zero => cases h
  | succ budget ih =>
      cases hpass : runDestroyPass malloc hook num (count, s) with
      | error e =>
          rw [loop_error hpass] at h
          cases h
      | ok pass =>
          obtain ⟨⟨result, s₁⟩, hrun, hrest⟩ := Exec.bind_eq_ok.mp hpass
          have hevent : (Event.destroy num).ofResource = false := rfl
          have hnoted := hheld.noted hevent
          obtain ⟨l₁, hacquires⟩ := Script.run_acquires hnoted.holds hrun
          obtain ⟨-, rfl⟩ := Script.run_shows hrun
          have hfirst := hnoted.trans hacquires
          rw [List.nil_append] at hfirst
          rw [destroyCreates]
          cases hresult : (hook count).result with
          | some u =>
              simp only [hresult] at hrest
              obtain rfl := Except.ok.inj hrest
              rw [loop_done hpass] at h
              obtain rfl := Except.ok.inj h
              rw [Option.isSome_some, if_pos rfl, List.append_nil]
              exact ⟨l₁, hfirst⟩
          | none =>
              simp only [hresult] at hrest
              obtain rfl := Except.ok.inj hrest
              rw [loop_next hpass] at h
              obtain ⟨l₂, hlater⟩ := ih (count + 1) hfirst.holds h
              rw [Option.isSome_none, if_neg Bool.false_ne_true]
              exact ⟨l₂, hfirst.trans hlater⟩

theorem runCase_acquires {budget : ℕ} {suite : Suite} {num : ℕ} {unit : TestUnit}
    (hheld : Holds base s l) (hskip : suite.skip = false)
    (h : runCase malloc budget suite num unit s = .ok s') :
    ∃ l', Acquires base s l s' l' (suite.creates budget num unit) := by
  obtain ⟨s₁, hinit, h⟩ := Exec.bind_eq_ok.mp h
  obtain ⟨⟨result, s₂⟩, hrun, h⟩ := Exec.bind_eq_ok.mp h
  change runDestroy malloc budget suite num s₂ = .ok s' at h
  rw [Suite.creates, hskip, if_neg Bool.false_ne_true]
  obtain ⟨l₁, hfirst⟩ := runInit_acquires hheld hinit
  have hkept : Untouched s₁ { s₁ with test := { s₁.test with returnJmp := true } } :=
    ⟨rfl, rfl, rfl, rfl⟩
  have harmed := hfirst.holds.untouched hkept
  have hevent : (Event.run num).ofResource = false := rfl
  have hnoted := harmed.trans (harmed.holds.noted hevent)
  obtain ⟨l₂, hunit⟩ := Script.run_acquires hnoted.holds hrun
  have hsecond := hfirst.trans (hnoted.trans hunit)
  rw [runDestroy] at h
  cases hdestroy : suite.destroy with
  | none =>
      rw [hdestroy] at h
      obtain rfl := Except.ok.inj h
      refine ⟨l₂, ?_⟩
      simpa using hsecond
  | some destroy =>
      rw [hdestroy] at h
      obtain ⟨l₃, hlast⟩ := runDestroy_loop_acquires budget 0 hsecond.holds h
      refine ⟨l₃, ?_⟩
      simpa using hsecond.trans hlast

/-- Behind a test, what it created was released, and its handles were freed. -/
theorem htestDestroy_settles (hacquires : Acquires s.live s [] s' l' calls)
    (h : htestDestroy s' = .ok s'') : Settles s s'' (ledger calls) := by
  obtain ⟨s₁, hdestroy, hempty, hcalls, -⟩ := hacquires.holds.htestDestroy
  obtain rfl := Except.ok.inj (h.symm.trans hdestroy)
  have hhandles := hacquires.handles
  rw [List.map_nil, List.append_nil] at hhandles
  refine ⟨hacquires.books.trans ⟨_, hcalls, ?_⟩, hempty.live_eq⟩
  rw [← List.map_map, hhandles, List.map_map, List.filter_eq_self.mpr]
  · rfl
  · intro event hevent
    obtain ⟨call, -, rfl⟩ := List.mem_map.mp hevent
    rfl

theorem recordStatus_untouched (num : ℕ) (stats : Stats) (s : State) :
    Untouched s (recordStatus num stats s).2 := by
  rw [recordStatus]
  cases s.test.status <;> exact s.log_untouched _ _

theorem runUnit_settles {budget : ℕ} {suite : Suite} {num : ℕ} {unit : TestUnit}
    {stats stats' : Stats} (h : runUnit malloc budget suite num unit stats s = .ok (stats', s')) :
    Settles s s' (ledger (suite.creates budget num unit)) := by
  obtain ⟨s₀, hinit, hnone, hcalls⟩ := htestInit_holds unit.name suite.log s
  simp only [runUnit, hinit, Exec.ok_bind, ne_eq, not_true_eq_false, if_false] at h
  have hbegun : Settles s s₀ [] := ⟨Books.of_eq hcalls, hnone.live_eq⟩
  rw [← hnone.live_eq] at hnone
  cases hskip : suite.skip with
  | true =>
      rw [hskip, if_pos rfl] at h
      obtain ⟨s₁, hdestroy, heq⟩ := Exec.bind_eq_ok.mp h
      obtain ⟨-, rfl⟩ := Prod.mk.inj (Except.ok.inj heq)
      have hrecord := recordStatus_untouched num { stats with total := stats.total + 1 }
        { s₀ with test := { s₀.test with status := .skipped } }
      have hkept : Untouched s₀ _ :=
        ⟨hrecord.links, hrecord.handles, hrecord.live, hrecord.calls⟩
      rw [Suite.creates, hskip, if_pos rfl]
      exact hbegun.trans (htestDestroy_settles (hnone.untouched hkept) hdestroy)
  | false =>
      rw [hskip, if_neg Bool.false_ne_true] at h
      obtain ⟨s₁, hcase, h⟩ := Exec.bind_eq_ok.mp h
      obtain ⟨s₂, hdestroy, heq⟩ := Exec.bind_eq_ok.mp h
      obtain ⟨-, rfl⟩ := Prod.mk.inj (Except.ok.inj heq)
      obtain ⟨l₁, hacquires⟩ := runCase_acquires hnone hskip hcase
      have hkept := recordStatus_untouched num { stats with total := stats.total + 1 } s₁
      have hall := hacquires.trans (hacquires.holds.untouched hkept)
      rw [List.append_nil] at hall
      exact hbegun.trans (htestDestroy_settles hall hdestroy)

theorem runUnits_settles {budget : ℕ} {suite : Suite} {num : ℕ} {units : List TestUnit}
    {stats stats' : Stats}
    (h : runUnits malloc budget suite num units stats s = .ok (stats', s')) :
    Settles s s' ((suite.createsFrom budget num units).flatMap ledger) := by
  induction units generalizing num stats s with
  | nil =>
      obtain ⟨-, rfl⟩ := Prod.mk.inj (Except.ok.inj h)
      exact ⟨Books.of_eq rfl, rfl⟩
  | cons unit units ih =>
      obtain ⟨⟨stats₁, s₁⟩, hunit, h⟩ := Exec.bind_eq_ok.mp h
      rw [Suite.createsFrom, List.flatMap_cons]
      exact (runUnit_settles hunit).trans (ih h)

theorem createsFrom_log (budget : ℕ) (suite : Suite) (log : Bool) (num : ℕ)
    (units : List TestUnit) :
    ({ suite with log := log } : Suite).createsFrom budget num units =
      suite.createsFrom budget num units := by
  induction units generalizing num with
  | nil => rfl
  | cons unit units ih => exact congrArg (suite.creates budget num unit :: ·) (ih (num + 1))

/-- A run of a suite books what each of its tests created and released. -/
theorem htestRunSuite_settles {budget : ℕ} {suite : Suite} {log : Bool} {code : ℤ} {stats : Stats}
    (h : htestRunSuite malloc budget suite log s = .ok (code, stats, s')) :
    Settles s s' ((suite.createsFrom budget 1 suite.units).flatMap ledger) := by
  obtain ⟨⟨stats₁, s₁⟩, hunits, heq⟩ := Exec.bind_eq_ok.mp h
  simp only [Except.ok.injEq, Prod.mk.injEq] at heq
  obtain ⟨-, -, rfl⟩ := heq
  have hsettles := runUnits_settles hunits
  rw [createsFrom_log] at hsettles
  have hzero : Untouched s { s with test := Test.zero } := ⟨rfl, rfl, rfl, rfl⟩
  have hhead := (hzero.trans (State.log_untouched _ log (ascii "# Suite: " ++ suite.name))).settles
  have htail := (logResults_untouched { suite with log := log } stats₁ s₁).settles
  have hall := (hhead.trans hsettles).trans htail
  rwa [List.nil_append, List.append_nil] at hall

end Books

/-! ## Memory and files -/

/-- `htest_memory_resource`, its functions known by numbers. -/
def htestMemoryResource : Resource where
  destroy := 1
  create := 2

/-- `htest_fstream_resource`. -/
def htestFstreamResource : Resource where
  destroy := 3
  create := 4

/-- `htest_string_resource`. -/
def htestStringResource : Resource where
  destroy := 5
  create := 6

/-- The blocks that `malloc` handed out, and the files that are open. -/
structure World where
  blocks : Finset ℕ
  files : Finset ℕ
  deriving DecidableEq

namespace World

variable (w : World)

/-- `malloc` hands out the block at `addr`, or none. -/
def malloc (addr : ℕ) : World := if addr = 0 then w else { w with blocks := insert addr w.blocks }

/-- `free`. -/
def free (addr : ℕ) : Exec World :=
  if addr = 0 then .ok w
  else if addr ∈ w.blocks then .ok { w with blocks := w.blocks.erase addr }
  else .error .write

/-- `fopen` opens the file at `addr`, or none. -/
def fopen (addr : ℕ) : World := if addr = 0 then w else { w with files := insert addr w.files }

/-- `fclose`. -/
def fclose (addr : ℕ) : Exec World :=
  if addr = 0 then .error .null
  else if addr ∈ w.files then .ok { w with files := w.files.erase addr }
  else .error .read

/-- `stralloc`: a block of `n + 1` bytes, the last of which is written. -/
def stralloc (n addr : ℕ) : Exec World :=
  let size := (n + 1) % 2 ^ 64
  let w := w.malloc addr
  if addr = 0 then .ok w
  else if n < size then .ok w
  else .error .write

/-- What the functions of the resources do. -/
def perform (w : World) : Event → Exec World
  | .create fn arg data =>
      if fn = htestMemoryResource.create then .ok (w.malloc data)
      else if fn = htestFstreamResource.create then .ok (w.fopen data)
      else if fn = htestStringResource.create then w.stralloc arg data
      else .ok w
  | .release fn data =>
      if fn = htestMemoryResource.destroy then w.free data
      else if fn = htestFstreamResource.destroy then w.fclose data
      else if fn = htestStringResource.destroy then w.free data
      else .ok w
  | _ => .ok w

/-- The calls one after the other. -/
def performAll : World → List Event → Exec World
  | w, [] => .ok w
  | w, event :: events => w.perform event >>= fun w => performAll w events

end World

/-- A call of `htest_malloc`, `htest_fopen` or `htest_stralloc`. -/
inductive Call.Known (call : Call) : Prop where
  | malloc : call.res = htestMemoryResource → Call.Known call
  | fopen : call.res = htestFstreamResource → Call.Known call
  | stralloc : call.res = htestStringResource → Call.Known call

/-- A file was opened, and the size of a string with its terminator is one. -/
structure Call.Sound (call : Call) : Prop where
  opened : call.res = htestFstreamResource → call.data ≠ 0
  sized : call.res = htestStringResource → call.data ≠ 0 → call.arg < 2 ^ 64 - 1

/-- `malloc` hands out no block that is in use, and `fopen` no file that is open. -/
def Grants : World → List Call → Prop
  | _, [] => True
  | w, call :: calls =>
      (call.data ∉ w.blocks ∧ call.data ∉ w.files) ∧
        ∀ w', w.perform call.created = .ok w' → Grants w' calls

section World

variable {w w' : World} {call : Call} {calls : List Call}

theorem performAll_append (w : World) (l l' : List Event) :
    w.performAll (l ++ l') = w.performAll l >>= fun w => w.performAll l' := by
  induction l generalizing w with
  | nil => rfl
  | cons event l ih =>
      rw [List.cons_append, World.performAll, World.performAll]
      cases w.perform event with
      | error e => rfl
      | ok w' => exact ih w'

theorem performAll_filter (w : World) (l : List Event) :
    w.performAll (l.filter Event.ofResource) = w.performAll l := by
  induction l generalizing w with
  | nil => rfl
  | cons event l ih =>
      cases hevent : event.ofResource with
      | true =>
          rw [List.filter_cons_of_pos hevent, World.performAll, World.performAll]
          exact congrArg (w.perform event >>= ·) (funext ih)
      | false =>
          have hperform : w.perform event = .ok w := by
            cases event <;> first | rfl | cases hevent
          rw [List.filter_cons_of_neg (by rw [hevent]; exact Bool.false_ne_true),
            World.performAll, hperform, Exec.ok_bind, ih]

/-- What a sound call acquires, its release gives back. -/
theorem perform_sound (hknown : call.Known) (hblock : call.data ∉ w.blocks)
    (hfile : call.data ∉ w.files) (hsound : call.Sound) :
    ∃ w', w.perform call.created = .ok w' ∧ w'.perform call.handle.released = .ok w := by
  obtain ⟨res, arg, found, data⟩ := call
  have hmalloc : (w.malloc data).free data = .ok w := by
    by_cases hnull : data = 0
    · simp [World.malloc, World.free, hnull]
    · simp [World.malloc, World.free, hnull, Finset.erase_insert hblock]
  rcases hknown with rfl | rfl | rfl
  · exact ⟨_, rfl, hmalloc⟩
  · have hnull : data ≠ 0 := hsound.opened rfl
    refine ⟨_, rfl, ?_⟩
    have hfopen : (w.fopen data).fclose data = .ok w := by
      simp [World.fopen, World.fclose, hnull, Finset.erase_insert hfile]
    exact hfopen
  · refine ⟨w.malloc data, ?_, hmalloc⟩
    have hstralloc : w.stralloc arg data = .ok (w.malloc data) := by
      by_cases hnull : data = 0
      · simp [World.stralloc, hnull]
      · have hsized : arg < 2 ^ 64 - 1 := hsound.sized rfl hnull
        have hsize : arg < (arg + 1) % 2 ^ 64 := by omega
        simp only [World.stralloc, hnull, hsize, if_false, if_true]
    exact hstralloc

/-- A call that is not sound writes behind its block, or leaves a null pointer to be closed. -/
theorem perform_not_sound (hknown : call.Known) (hsound : ¬ call.Sound) :
    (∃ e, w.perform call.created = .error e) ∨
      w.perform call.created = .ok w ∧
        ∀ w' : World, ∃ e, w'.perform call.handle.released = .error e := by
  obtain ⟨res, arg, found, data⟩ := call
  rcases hknown with rfl | rfl | rfl
  · exact absurd ⟨nofun, nofun⟩ hsound
  · have hnull : data = 0 := by
      by_contra hne
      exact hsound ⟨fun _ => hne, nofun⟩
    subst hnull
    exact Or.inr ⟨rfl, fun w' => ⟨.null, rfl⟩⟩
  · left
    have hlarge : data ≠ 0 ∧ ¬ arg < 2 ^ 64 - 1 := by
      by_contra hsmall
      refine hsound ⟨nofun, fun _ hne => ?_⟩
      by_contra harg
      exact hsmall ⟨hne, harg⟩
    have hsize : ¬ arg < (arg + 1) % 2 ^ 64 := by omega
    refine ⟨.write, ?_⟩
    have hstralloc : w.stralloc arg data = .error .write := by
      simp only [World.stralloc, hlarge.1, hsize, if_false]
    exact hstralloc

theorem ledger_cons (call : Call) (calls : List Call) :
    ledger (call :: calls) = call.created :: (ledger calls ++ [call.handle.released]) := by
  simp [ledger]

/-- Behind a test, memory and files are as in front of it, or there was a fault. -/
theorem performAll_ledger (hknown : ∀ call ∈ calls, call.Known) (hgrants : Grants w calls) :
    ((∀ call ∈ calls, call.Sound) → w.performAll (ledger calls) = .ok w) ∧
      ((¬ ∀ call ∈ calls, call.Sound) → ∃ e, w.performAll (ledger calls) = .error e) := by
  induction calls generalizing w with
  | nil => exact ⟨fun _ => rfl, fun h => absurd (fun _ hmem => absurd hmem List.not_mem_nil) h⟩
  | cons call calls ih =>
      obtain ⟨⟨hblock, hfile⟩, hlater⟩ := hgrants
      obtain ⟨hcall, hrest⟩ := List.forall_mem_cons.mp hknown
      rw [List.forall_mem_cons, ledger_cons, World.performAll]
      by_cases hsound : call.Sound
      · obtain ⟨w', hcreated, hreleased⟩ := perform_sound hcall hblock hfile hsound
        obtain ⟨hall, hsome⟩ := ih hrest (hlater w' hcreated)
        rw [hcreated, Exec.ok_bind, performAll_append]
        constructor
        · intro hsounds
          rw [hall hsounds.2, Exec.ok_bind, World.performAll, hreleased]
          rfl
        · intro hnot
          obtain ⟨e, he⟩ := hsome fun hsounds => hnot ⟨hsound, hsounds⟩
          exact ⟨e, by rw [he, Exec.error_bind]⟩
      · refine ⟨fun hsounds => absurd hsounds.1 hsound, fun _ => ?_⟩
        rcases perform_not_sound (w := w) hcall hsound with ⟨e, he⟩ | ⟨hcreated, hreleased⟩
        · exact ⟨e, by rw [he, Exec.error_bind]⟩
        · obtain ⟨hall, hsome⟩ := ih hrest (hlater w hcreated)
          rw [hcreated, Exec.ok_bind, performAll_append]
          by_cases hsounds : ∀ call ∈ calls, call.Sound
          · obtain ⟨e, he⟩ := hreleased w
            exact ⟨e, by rw [hall hsounds, Exec.ok_bind, World.performAll, he, Exec.error_bind]⟩
          · obtain ⟨e, he⟩ := hsome hsounds
            exact ⟨e, by rw [he, Exec.error_bind]⟩

/-- Behind all tests, memory and files are as in front of them, or there was a fault. -/
theorem performAll_ledgers {tests : List (List Call)}
    (hknown : ∀ calls ∈ tests, ∀ call ∈ calls, call.Known)
    (hgrants : ∀ calls ∈ tests, Grants w calls) :
    ((∀ calls ∈ tests, ∀ call ∈ calls, call.Sound) →
        w.performAll (tests.flatMap ledger) = .ok w) ∧
      ((¬ ∀ calls ∈ tests, ∀ call ∈ calls, call.Sound) →
        ∃ e, w.performAll (tests.flatMap ledger) = .error e) := by
  induction tests with
  | nil => exact ⟨fun _ => rfl, fun h => absurd (fun _ hmem => absurd hmem List.not_mem_nil) h⟩
  | cons calls tests ih =>
      obtain ⟨hcalls, hrest⟩ := List.forall_mem_cons.mp hknown
      obtain ⟨hgrant, hgrants⟩ := List.forall_mem_cons.mp hgrants
      obtain ⟨hall, hsome⟩ := performAll_ledger hcalls hgrant
      obtain ⟨hall', hsome'⟩ := ih hrest hgrants
      rw [List.forall_mem_cons, List.flatMap_cons, performAll_append]
      constructor
      · intro hsounds
        rw [hall hsounds.1, Exec.ok_bind, hall' hsounds.2]
      · intro hnot
        by_cases hsounds : ∀ call ∈ calls, call.Sound
        · obtain ⟨e, he⟩ := hsome' fun hsounds' => hnot ⟨hsounds, hsounds'⟩
          exact ⟨e, by rw [hall hsounds, Exec.ok_bind, he]⟩
        · obtain ⟨e, he⟩ := hsome hsounds
          exact ⟨e, by rw [he, Exec.error_bind]⟩

end World

/-- A run of a suite that returns has freed its handles, and leaves the memory and the files as they
were, however its tests end, exactly if every file that was asked for was opened and no block was
handed out for a string whose size has no successor; else freeing and closing, or writing the
terminator, is a fault. -/
theorem htestRunSuite_gives_back {malloc : Malloc} {budget : ℕ} {suite : Suite} {log : Bool}
    {s s' : State} {code : ℤ} {stats : Stats} {w : World}
    (hrun : htestRunSuite malloc budget suite log s = .ok (code, stats, s'))
    (hknown : ∀ calls ∈ suite.createsFrom budget 1 suite.units, ∀ call ∈ calls, call.Known)
    (hgrants : ∀ calls ∈ suite.createsFrom budget 1 suite.units, Grants w calls) :
    s'.live = s.live ∧ ∃ made, s'.calls = s.calls ++ made ∧
      (w.performAll made = .ok w ↔
        ∀ calls ∈ suite.createsFrom budget 1 suite.units, ∀ call ∈ calls, call.Sound) ∧
      ∀ w', w.performAll made = .ok w' → w' = w := by
  obtain ⟨⟨made, hcalls, hmade⟩, hlive⟩ := htestRunSuite_settles hrun
  obtain ⟨hall, hsome⟩ := performAll_ledgers hknown hgrants
  rw [← hmade, performAll_filter] at hall hsome
  refine ⟨hlive, made, hcalls, ⟨fun hreturns => ?_, hall⟩, fun w' hreturns => ?_⟩
  · by_contra hnot
    obtain ⟨e, he⟩ := hsome hnot
    rw [he] at hreturns
    cases hreturns
  · by_cases hsounds : ∀ calls ∈ suite.createsFrom budget 1 suite.units, ∀ call ∈ calls, call.Sound
    · exact Except.ok.inj (hreturns.symm.trans (hall hsounds))
    · obtain ⟨e, he⟩ := hsome hsounds
      rw [he] at hreturns
      cases hreturns

/-- A suite whose test gets memory and opens a file, and fails. -/
def keepsResources : Suite where
  units := [{ name := ascii "unit"
              run := { steps := [.create ⟨htestMemoryResource, 16, true, 100⟩,
                         .create ⟨htestFstreamResource, 8, true, 200⟩]
                       ending := .htestFail none } }]
  name := ascii "suite"
  skip := false
  init := none
  destroy := none
  log := false

theorem htestRunSuite_gives_back_two :
    ∃ code stats s' made, htestRunSuite bump 1 keepsResources false blank = .ok (code, stats, s') ∧
      s'.live = ∅ ∧ s'.calls = blank.calls ++ made ∧
        (World.mk ∅ ∅).performAll made = .ok ⟨∅, ∅⟩ := by
  obtain ⟨⟨code, stats, s'⟩, hrun⟩ :
      ∃ r, htestRunSuite bump 1 keepsResources false blank = .ok r := ⟨_, rfl⟩
  have hcreates : keepsResources.createsFrom 1 1 keepsResources.units =
      [[⟨htestMemoryResource, 16, true, 100⟩, ⟨htestFstreamResource, 8, true, 200⟩]] := rfl
  have hknown : ∀ calls ∈ keepsResources.createsFrom 1 1 keepsResources.units,
      ∀ call ∈ calls, call.Known := by
    simp only [hcreates, List.forall_mem_singleton, List.forall_mem_cons]
    exact ⟨.malloc rfl, .fopen rfl⟩
  have hgrants : ∀ calls ∈ keepsResources.createsFrom 1 1 keepsResources.units,
      Grants ⟨∅, ∅⟩ calls := by
    simp only [hcreates, List.forall_mem_singleton]
    refine ⟨by decide, fun w' hw' => ?_⟩
    obtain rfl : World.mk {100} ∅ = w' := Except.ok.inj hw'
    exact ⟨by decide, fun _ _ => trivial⟩
  have hsound : ∀ calls ∈ keepsResources.createsFrom 1 1 keepsResources.units,
      ∀ call ∈ calls, call.Sound := by
    simp only [hcreates, List.forall_mem_singleton, List.forall_mem_cons]
    exact ⟨⟨nofun, nofun⟩, ⟨fun _ => by decide, nofun⟩⟩
  obtain ⟨hlive, made, hcalls, hback, -⟩ := htestRunSuite_gives_back hrun hknown hgrants
  exact ⟨code, stats, s', made, hrun, hlive, hcalls, hback.mpr hsound⟩

end Hlibc.Htest
