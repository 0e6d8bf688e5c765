import Hlibc.Htest.Resource

/-!
# The code of hooks and units

The code of a hook or a unit is known by what it does with the test and by how it ends.
`htest_pass`, `htest_skip` and `htest_fail` leave it by a jump to where `setjmp` was called, if
it was.  Whatever the code does, the list of the test keeps its handles.
-/

set_option autoImplicit false

namespace Hlibc.Htest

/-- How the code of a hook or a unit ends. -/
inductive Ending (ρ : Type) where
  | returns (result : ρ)
  | htestPass (msg : Option Text)
  | htestSkip (msg : Option Text)
  | htestFail (msg : Option Text)

/-- The code of a hook or a unit, on a test. -/
structure Script (ρ : Type) where
  steps : List Step
  ending : Ending ρ

section Scripts

variable {ρ : Type}

/-- The end of the code; no result where it leaves by a jump. -/
def Ending.run : Ending ρ → State → Exec (Option ρ × State)
  | .returns result, s => .ok (some result, s)
  | .htestPass msg, s => do
      let s ← Htest.htestPass msg s
      .ok (none, s)
  | .htestSkip msg, s => do
      let s ← Htest.htestSkip msg s
      .ok (none, s)
  | .htestFail msg, s => do
      let s ← Htest.htestFail msg s
      .ok (none, s)

/-- A call of the code; no result where it leaves by a jump. -/
def Script.run (malloc : Malloc) (script : Script ρ) (s : State) : Exec (Option ρ × State) := do
  let (ended, s) ← runSteps malloc script.steps s
  if ended then script.ending.run s else .ok (none, s)

/-- The step does not leave by a jump. -/
def Step.goesOn : Step → Bool
  | .create call => call.found
  | .assert assertion _ => assertion.result
  | _ => true

/-- The result, if the code ends by returning it. -/
def Ending.result : Ending ρ → Option ρ
  | .returns result => some result
  | _ => none

/-- What a call of the code returns, if it does not leave by a jump. -/
def Script.result (script : Script ρ) : Option ρ :=
  if script.steps.all Step.goesOn then script.ending.result else none

end Scripts

/-! ## The calls of the hooks -/

/-- The call of a hook or the unit for the unit with this number. -/
def Event.about (num : ℕ) : Event → Bool
  | .init n _ => n = num
  | .run n => n = num
  | .destroy n => n = num
  | _ => false

/-- The events in between, those about each unit being the ones of `hooks`. -/
def Adds (s s' : State) (hooks : ℕ → List Event) : Prop :=
  ∃ made, s'.calls = s.calls ++ made ∧ ∀ num, made.filter (Event.about num) = hooks num

/-- Events about one unit. -/
def only (num : ℕ) (events : List Event) : ℕ → List Event :=
  Function.update (fun _ => []) num events

section Calls

variable {s s' s'' : State} {hooks hooks' : ℕ → List Event}

theorem Adds.of_eq (h : s'.calls = s.calls) : Adds s s' fun _ => [] :=
  ⟨[], by rw [h, List.append_nil], fun _ => rfl⟩

theorem Adds.trans (h : Adds s s' hooks) (h' : Adds s' s'' hooks') :
    Adds s s'' fun num => hooks num ++ hooks' num := by
  obtain ⟨made, hcalls, hmade⟩ := h
  obtain ⟨made', hcalls', hmade'⟩ := h'
  refine ⟨made ++ made', by rw [hcalls', hcalls, List.append_assoc], fun num => ?_⟩
  rw [List.filter_append, hmade, hmade']

theorem only_nil (num : ℕ) : only num [] = fun _ => [] :=
  Function.update_eq_self num _

theorem only_append (num : ℕ) (events events' : List Event) :
    (fun n => only num events n ++ only num events' n) = only num (events ++ events') := by
  funext n
  by_cases hn : n = num
  · subst hn
    simp [only]
  · simp [only, hn]

/-- Nothing about a unit, and then events about one. -/
theorem Adds.then (h : Adds s s' fun _ => []) (h' : Adds s' s'' hooks) : Adds s s'' hooks :=
  h.trans h'

theorem Adds.nothing (s : State) (num : ℕ) : Adds s s (only num []) := by
  rw [only_nil]
  exact Adds.of_eq rfl

theorem Adds.and_nothing (h : Adds s s' hooks) (h' : Adds s' s'' fun _ => []) :
    Adds s s'' hooks := by
  have h'' := h.trans h'
  simpa only [List.append_nil] using h''

theorem Adds.and_only {num : ℕ} {events events' : List Event} (h : Adds s s' (only num events))
    (h' : Adds s' s'' (only num events')) : Adds s s'' (only num (events ++ events')) := by
  rw [← only_append]
  exact h.trans h'

theorem adds_note (s : State) {num : ℕ} {event : Event}
    (hevent : ∀ n, event.about n = decide (num = n)) :
    Adds s (s.note event) (only num [event]) := by
  refine ⟨[event], rfl, fun n => ?_⟩
  rw [List.filter_cons, hevent]
  by_cases hn : num = n
  · subst hn
    simp [only]
  · simp [only, hn, Ne.symm hn]

end Calls

/-! ## What a call leaves -/

/-- The list, the handles and the calls are as before. -/
structure Untouched (s s' : State) : Prop where
  links : s'.links = s.links
  handles : s'.handles = s.handles
  live : s'.live = s.live
  calls : s'.calls = s.calls

/-- The test has a list of handles, no hook was called, and the jump buffer was kept. -/
structure Keeps (base : Finset ℕ) (s s' : State) : Prop where
  holds : ∃ l, Holds base s' l
  adds : Adds s s' fun _ => []
  returnJmp : s'.test.returnJmp = s.test.returnJmp

/-- A call has this result and keeps the test, or it leaves by a jump and has nowhere to go. -/
def Ends {α : Type} (base : Finset ℕ) (s : State) (call : Exec (α × State)) (result : α)
    (leaves : Prop) : Prop :=
  (∃ s', call = .ok (result, s') ∧ Keeps base s s') ∨
    leaves ∧ s.test.returnJmp = false ∧ call = .error .null

section Run

variable {base : Finset ℕ} {s s' s'' : State} {l : List (ℕ × Handle)} {ρ : Type}

theorem Untouched.holds (h : Untouched s s') (hheld : Holds base s l) : Holds base s' l := by
  refine ⟨?_, fun addr => ?_, hheld.apart, fun p hp => ?_⟩
  · rw [h.links]
    exact hheld.linked
  · rw [h.live]
    exact hheld.live_iff addr
  · rw [h.handles]
    exact hheld.stored p hp

theorem Holds.note (h : Holds base s l) (event : Event) : Holds base (s.note event) l :=
  ⟨h.linked, h.live_iff, h.apart, h.stored⟩

theorem State.log_untouched (s : State) (file : Bool) (line : Text) :
    Untouched s (s.log file line) := by
  cases file <;> exact ⟨rfl, rfl, rfl, rfl⟩

theorem State.log_test (s : State) (file : Bool) (line : Text) :
    (s.log file line).test = s.test := by
  cases file <;> rfl

theorem Untouched.trans (h : Untouched s s') (h' : Untouched s' s'') : Untouched s s'' where
  links := h'.links.trans h.links
  handles := h'.handles.trans h.handles
  live := h'.live.trans h.live
  calls := h'.calls.trans h.calls

theorem htestSetStatus_untouched (status : Status) (msg : Option Text) (s : State) :
    Untouched s (htestSetStatus status msg s) ∧
      (htestSetStatus status msg s).test.returnJmp = s.test.returnJmp := by
  cases msg with
  | none => exact ⟨⟨rfl, rfl, rfl, rfl⟩, rfl⟩
  | some msg =>
      simp only [htestSetStatus, htestWarn, htestLog, State.log]
      split
      · cases s.test.log <;> exact ⟨⟨rfl, rfl, rfl, rfl⟩, rfl⟩
      · exact ⟨⟨rfl, rfl, rfl, rfl⟩, rfl⟩

theorem Keeps.trans (h : Keeps base s s') (h' : Keeps base s' s'') : Keeps base s s'' :=
  ⟨h'.holds, h.adds.then h'.adds, h'.returnJmp.trans h.returnJmp⟩

theorem Holds.keeps (h : Holds base s l) (hkept : Untouched s s')
    (hjmp : s'.test.returnJmp = s.test.returnJmp) : Keeps base s s' :=
  ⟨⟨l, hkept.holds h⟩, Adds.of_eq hkept.calls, hjmp⟩

/-- A jump sets the status, or has nowhere to go. -/
theorem Holds.leaves {α : Type} (h : Holds base s l) (status : Status) (msg : Option Text)
    (result : α) :
    Ends base s
      (do
        let s ← htestReturn (htestSetStatus status msg s)
        .ok (result, s))
      result True := by
  obtain ⟨hkept, hjmp⟩ := htestSetStatus_untouched status msg s
  rw [htestReturn, hjmp]
  cases hs : s.test.returnJmp with
  | true => exact Or.inl ⟨_, rfl, h.keeps hkept hjmp⟩
  | false => exact Or.inr ⟨trivial, hs, rfl⟩

/-- A call of `htest_create_resource` returns data or leaves. -/
theorem Holds.create (h : Holds base s l) (malloc : Malloc) (call : Call) :
    ∃ data, data.isSome = call.found ∧
      Ends base s (htestCreateResource malloc call.res call.arg call.found call.data s) data
        (call.found = false) := by
  cases hfound : call.found with
  | true =>
      have hhead : (s.links.next .resources).Valid s.live :=
        h.valid (h.neighbours List.mem_cons_self).1
      have hcreate := htestCreateResource_eq malloc s hfound rfl hhead
      rw [hfound] at hcreate
      refine ⟨_, rfl, Or.inl ⟨_, hcreate, ⟨_, h.attach (malloc.fresh _ _) call⟩, ?_, rfl⟩⟩
      exact ⟨[call.created], rfl, fun _ => rfl⟩
  | false =>
      have hasked : Holds base { s with mallocs := s.mallocs + 1 } l :=
        Untouched.holds (s := s) ⟨rfl, rfl, rfl, rfl⟩ h
      refine ⟨none, rfl, ?_⟩
      rcases hasked.leaves .failed (some (ascii
          "Internal error: Could not allocate memory to track resource.")) none with
        ⟨s', hleave, hkeeps⟩ | ⟨-, hjmp, hleave⟩
      · exact Or.inl ⟨s', hleave, hkeeps.holds, hkeeps.adds, hkeeps.returnJmp⟩
      · exact Or.inr ⟨rfl, hjmp, hleave⟩

theorem Holds.logged (h : Holds base s l) (level : LogLevel) (line : Text) :
    Keeps base s (htestLog level line s) := by
  have hjmp : (htestLog level line s).test.returnJmp = s.test.returnJmp := by
    rw [htestLog, State.log_test]
  exact h.keeps (s.log_untouched s.test.log line) hjmp

theorem Holds.assert (h : Holds base s l) (assertion : Assertion) (behind : Text) :
    Ends base s (htestAssert assertion behind s) assertion.result (assertion.result = false) := by
  rw [htestAssert]
  cases assertion.result with
  | true => exact Or.inl ⟨s, rfl, ⟨l, h⟩, Adds.of_eq rfl, rfl⟩
  | false =>
      have hfirst := h.logged .info (failedLine s.test.name assertion)
      obtain ⟨l₁, h₁⟩ := hfirst.holds
      have hboth := hfirst.trans (h₁.logged .info
        (hashLine [testString (htestLog .info (failedLine s.test.name assertion) s).test.data
          behind, assertion.message]))
      obtain ⟨l₂, h₂⟩ := hboth.holds
      rcases h₂.leaves .failed none false with ⟨s', hleave, hkeeps⟩ | ⟨-, hjmp, hleave⟩
      · exact Or.inl ⟨s', hleave, hboth.trans hkeeps⟩
      · exact Or.inr ⟨rfl, hboth.returnJmp.symm.trans hjmp, hleave⟩

theorem Holds.step (h : Holds base s l) (malloc : Malloc) (step : Step) :
    Ends base s (runStep malloc step s) step.goesOn (step.goesOn = false) := by
  cases step with
  | create call =>
      obtain ⟨data, hdata, ⟨s', hcreate, hkeeps⟩ | ⟨hfound, hjmp, hcreate⟩⟩ :=
        h.create malloc call
      · refine Or.inl ⟨s', ?_, hkeeps⟩
        rw [runStep, hcreate]
        exact congrArg (fun goesOn => Except.ok (goesOn, s')) hdata
      · refine Or.inr ⟨hfound, hjmp, ?_⟩
        rw [runStep, hcreate]
        rfl
  | setStatus status msg =>
      obtain ⟨hkept, hjmp⟩ := htestSetStatus_untouched status msg s
      exact Or.inl ⟨_, rfl, h.keeps hkept hjmp⟩
  | setData data => exact Or.inl ⟨_, rfl, h.keeps ⟨rfl, rfl, rfl, rfl⟩ rfl⟩
  | log level line => exact Or.inl ⟨_, rfl, h.logged level line⟩
  | error line => exact Or.inl ⟨_, rfl, h.logged .error _⟩
  | warn line => exact Or.inl ⟨_, rfl, h.logged .warning _⟩
  | info line => exact Or.inl ⟨_, rfl, h.logged .info _⟩
  | assert assertion behind => exact h.assert assertion behind

/-- The steps go on to the last of them, unless one leaves. -/
theorem Holds.runSteps (h : Holds base s l) (malloc : Malloc) (steps : List Step) :
    Ends base s (Htest.runSteps malloc steps s) (steps.all Step.goesOn)
      (steps.all Step.goesOn = false) := by
  induction steps generalizing s l with
  | nil => exact Or.inl ⟨s, rfl, ⟨l, h⟩, Adds.of_eq rfl, rfl⟩
  | cons step steps ih =>
      rw [Htest.runSteps, List.all_cons]
      rcases h.step malloc step with ⟨s₁, hstep, hkeeps⟩ | ⟨hleaves, hjmp, hstep⟩
      · simp only [hstep, Exec.ok_bind]
        cases step.goesOn with
        | false => exact Or.inl ⟨s₁, rfl, hkeeps⟩
        | true =>
            obtain ⟨l₁, h₁⟩ := hkeeps.holds
            rcases ih h₁ with ⟨s', hrun, hkeeps'⟩ | ⟨hall, hjmp, hrun⟩
            · exact Or.inl ⟨s', hrun, hkeeps.trans hkeeps'⟩
            · exact Or.inr ⟨hall, hkeeps.returnJmp.symm.trans hjmp, hrun⟩
      · rw [hstep, hleaves]
        exact Or.inr ⟨rfl, hjmp, rfl⟩

/-- The end of the code returns its result or leaves. -/
theorem Holds.ending (h : Holds base s l) (ending : Ending ρ) :
    Ends base s (ending.run s) ending.result (ending.result = none) := by
  have hjump : ∀ status msg,
      Ends base s
        (do
          let s ← htestReturn (htestSetStatus status msg s)
          .ok (none, s))
        (none : Option ρ) ((none : Option ρ) = none) := by
    intro status msg
    exact (h.leaves status msg none).imp id fun hleave => ⟨rfl, hleave.2⟩
  cases ending with
  | returns result => exact Or.inl ⟨s, rfl, ⟨l, h⟩, Adds.of_eq rfl, rfl⟩
  | htestPass msg => exact hjump .passed msg
  | htestSkip msg => exact hjump .skipped msg
  | htestFail msg => exact hjump .failed msg

/-- A call of the code returns its result or leaves. -/
theorem Holds.script (h : Holds base s l) (malloc : Malloc) (script : Script ρ) :
    Ends base s (script.run malloc s) script.result (script.result = none) := by
  rw [Script.run, Script.result]
  rcases h.runSteps malloc script.steps with ⟨s₁, hsteps, hkeeps⟩ | ⟨hall, hjmp, hsteps⟩
  · rw [hsteps, Exec.ok_bind]
    cases script.steps.all Step.goesOn with
    | false => exact Or.inl ⟨s₁, rfl, hkeeps⟩
    | true =>
        obtain ⟨l₁, h₁⟩ := hkeeps.holds
        rcases h₁.ending script.ending with ⟨s', hend, hkeeps'⟩ | ⟨hnone, hjmp, hend⟩
        · exact Or.inl ⟨s', hend, hkeeps.trans hkeeps'⟩
        · exact Or.inr ⟨hnone, hkeeps.returnJmp.symm.trans hjmp, hend⟩
  · rw [hsteps, hall]
    exact Or.inr ⟨rfl, hjmp, rfl⟩

end Run

end Hlibc.Htest
