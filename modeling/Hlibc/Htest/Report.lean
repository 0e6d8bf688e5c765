import Hlibc.Htest.Suite

/-!
# The report of a suite

What a suite logs depends only on what its code does that shows: the statuses it sets, the lines
it logs and its failed assertions.  Every unit gives these lines in order and behind them one
line with its number, its name and the status that was set last; and the counts at the end are
those of the lines with the statuses.
-/

set_option autoImplicit false

namespace Hlibc.Htest

/-! ## What shows of the code -/

/-- The status of a test and its message. -/
structure Verdict where
  status : Status
  msg : Text

/-- What shows of a test. -/
structure View where
  name : Text
  data : ℕ
  verdict : Verdict

/-- A test as it is in front of its code. -/
def View.fresh (name : Text) : View where
  name := name
  data := 0
  verdict := { status := .passed, msg := [] }

def Test.view (test : Test) : View where
  name := test.name
  data := test.data
  verdict := { status := test.status, msg := test.statusMsg.chars }

/-- What the code of a test does that shows. -/
inductive Mark where
  /-- A call of `htest_set_status`. -/
  | status (status : Status) (msg : Option Text)
  /-- `data` of the test is set. -/
  | data (data : ℕ)
  /-- A line of `htest_log`. -/
  | line (text : Text)
  /-- A line of `htest_error`, `htest_warn` or `htest_info`. -/
  | named (text : Text)
  /-- The lines of an assertion that fails. -/
  | failure (assertion : Assertion) (behind : Text)

/-- The message of a status is cut, and stays where the call has none. -/
def View.after (view : View) : Mark → View
  | .status status msg =>
      { view with
        verdict :=
          { status := status
            msg := (msg.map (List.take (statusMsgSize - 1))).getD view.verdict.msg } }
  | .data data => { view with data := data }
  | _ => view

/-- What is logged for a message that is cut. -/
def cutLine : Text :=
  ascii "Status message too long: wrote " ++ ascii (toString (statusMsgSize - 1)) ++
    ascii " of " ++ ascii (toString (statusMsgSize - 1)) ++ ascii " characters."

/-- The lines that are logged. -/
def View.lines (view : View) : Mark → List Text
  | .status _ msg =>
      if (msg.getD []).length > statusMsgSize - 1 then [namedLine view.name cutLine] else []
  | .data _ => []
  | .line text => [text]
  | .named text => [namedLine view.name text]
  | .failure assertion behind =>
      [failedLine view.name assertion,
        hashLine [testString view.data behind, assertion.message]]

/-- The lines of the marks one after the other. -/
def View.linesOf (view : View) : List Mark → List Text
  | [] => []
  | mark :: marks => view.lines mark ++ (view.after mark).linesOf marks

/-- The lines of `htest_log`. -/
def Mark.logged : Mark → List Text
  | .line text => [text]
  | _ => []

/-- The marks of a step. -/
def Step.marks : Step → List Mark
  | .create call =>
      if call.found then []
      else [.status .failed
        (some (ascii "Internal error: Could not allocate memory to track resource."))]
  | .setStatus status msg => [.status status msg]
  | .setData data => [.data data]
  | .log _ line => [.line line]
  | .error line => [.named line]
  | .warn line => [.named line]
  | .info line => [.named line]
  | .assert assertion behind =>
      if assertion.result then [] else [.failure assertion behind, .status .failed none]

/-- The marks of the steps, up to the one that leaves. -/
def stepsMarks : List Step → List Mark
  | [] => []
  | step :: steps => step.marks ++ if step.goesOn then stepsMarks steps else []

section Scripts

variable {ρ : Type}

/-- The mark at the end of the code. -/
def Ending.marks : Ending ρ → List Mark
  | .returns _ => []
  | .htestPass msg => [.status .passed msg]
  | .htestSkip msg => [.status .skipped msg]
  | .htestFail msg => [.status .failed msg]

/-- The marks of the code. -/
def Script.marks (script : Script ρ) : List Mark :=
  stepsMarks script.steps ++ if script.steps.all Step.goesOn then script.ending.marks else []

end Scripts

/-- The marks of `destroy`, from the call with this number until one returns. -/
def destroyMarks (hook : ℕ → Script Unit) : ℕ → ℕ → List Mark
  | 0, _ => []
  | budget + 1, count =>
      (hook count).marks ++
        if (hook count).result.isSome then [] else destroyMarks hook budget (count + 1)

/-- The marks of a unit that is run, and of its hooks. -/
def Suite.marks (budget : ℕ) (suite : Suite) (num : ℕ) (unit : TestUnit) : List Mark :=
  (suite.init.elim [] fun init => (init num).marks) ++ unit.run.marks ++
    suite.destroy.elim [] fun destroy => destroyMarks (destroy num) budget 0

/-- The verdict on a unit. -/
def Suite.verdict (budget : ℕ) (suite : Suite) (num : ℕ) (unit : TestUnit) : Verdict :=
  if suite.skip then { status := .skipped, msg := [] }
  else ((suite.marks budget num unit).foldl View.after (View.fresh unit.name)).verdict

/-! ## The report -/

/-- A message behind a separator, if there is one. -/
def messageBehind (sep : String) (msg : Text) : Text :=
  if msg = [] then [] else ascii sep ++ msg

/-- The line with the verdict on a unit. -/
def resultLine (num : ℕ) (name : Text) (verdict : Verdict) : Text :=
  let title := ascii (toString num) ++ ascii " - " ++ name
  match verdict.status with
  | .skipped => ascii "ok " ++ title ++ ascii " # SKIP" ++ messageBehind " " verdict.msg
  | .passed => ascii "ok " ++ title ++ messageBehind " # " verdict.msg
  | .failed => ascii "not ok " ++ title ++ messageBehind " # " verdict.msg

/-- The verdicts on the units, from number `num` on. -/
def Suite.verdicts (budget : ℕ) (suite : Suite) : ℕ → List TestUnit → List Verdict
  | _, [] => []
  | num, unit :: units => suite.verdict budget num unit :: suite.verdicts budget (num + 1) units

/-- The lines with the verdicts. -/
def Suite.resultLines (budget : ℕ) (suite : Suite) : ℕ → List TestUnit → List Text
  | _, [] => []
  | num, unit :: units =>
      resultLine num unit.name (suite.verdict budget num unit) ::
        suite.resultLines budget (num + 1) units

/-- The lines that are logged for a unit. -/
def Suite.unitLines (budget : ℕ) (suite : Suite) (num : ℕ) (unit : TestUnit) : List Text :=
  (if suite.skip then [] else (View.fresh unit.name).linesOf (suite.marks budget num unit)) ++
    [resultLine num unit.name (suite.verdict budget num unit)]

/-- The lines that are logged for the units, from number `num` on. -/
def Suite.unitsLines (budget : ℕ) (suite : Suite) : ℕ → List TestUnit → List Text
  | _, [] => []
  | num, unit :: units =>
      suite.unitLines budget num unit ++ suite.unitsLines budget (num + 1) units

/-- The lines of `htest_log` in the code of the units, from number `num` on. -/
def Suite.loggedLines (budget : ℕ) (suite : Suite) : ℕ → List TestUnit → List Text
  | _, [] => []
  | num, unit :: units =>
      (if suite.skip then [] else (suite.marks budget num unit).flatMap Mark.logged) ++
        suite.loggedLines budget (num + 1) units

/-- The statistics with the verdict counted. -/
def Stats.count (stats : Stats) (verdict : Verdict) : Stats where
  total := stats.total + 1
  passed := stats.passed + if verdict.status = .passed then 1 else 0
  failed := stats.failed + if verdict.status = .failed then 1 else 0
  skipped := stats.skipped + if verdict.status = .skipped then 1 else 0

/-- The statistics of the verdicts on the units. -/
def Suite.tally (budget : ℕ) (suite : Suite) : Stats :=
  (suite.verdicts budget 1 suite.units).foldl Stats.count Stats.zero

/-- The line at the end. -/
def resultsLine (stats : Stats) : Text :=
  ascii "# Results: passed: " ++ ascii (toString stats.passed) ++ ascii ", failed: " ++
    ascii (toString stats.failed) ++ ascii ", skipped: " ++ ascii (toString stats.skipped) ++
    ascii ", total: " ++ ascii (toString stats.total) ++ ascii "\n"

/-- The lines that are logged for a suite. -/
def Suite.report (budget : ℕ) (suite : Suite) : List Text :=
  [ascii "# Suite: " ++ suite.name] ++ suite.unitsLines budget 1 suite.units ++
    (if suite.units = [] then [ascii "# Warning: Test suite empty"] else []) ++
    [resultsLine (suite.tally budget)]

/-- The line has the verdict on a unit. -/
def isTestLine (line : Text) : Bool :=
  (ascii "ok ").isPrefixOf line || (ascii "not ok ").isPrefixOf line

/-! ## What does not show -/

/-- The test and what was logged are as before. -/
structure Quiet (s s' : State) : Prop where
  test : s'.test = s.test
  output : s'.output = s.output

section Silence

variable {s s' s'' : State} {node ptr item : Node} {addr : ℕ}

theorem Quiet.refl (s : State) : Quiet s s := ⟨rfl, rfl⟩

theorem Quiet.trans (h : Quiet s s') (h' : Quiet s' s'') : Quiet s s'' :=
  ⟨h'.test.trans h.test, h'.output.trans h.output⟩

/-- A checked write returns the state that is written. -/
theorem eq_of_check {c : Prop} [Decidable c] {e : Fault}
    (h : (if c then Except.ok s' else .error e) = Except.ok s'') : s'' = s' := by
  split at h
  · exact (Except.ok.inj h).symm
  · cases h

theorem writeNext_quiet (h : s.writeNext node ptr = .ok s') : Quiet s s' := by
  rw [eq_of_check h]
  exact ⟨rfl, rfl⟩

theorem writePrev_quiet (h : s.writePrev node ptr = .ok s') : Quiet s s' := by
  rw [eq_of_check h]
  exact ⟨rfl, rfl⟩

theorem writeHandle_quiet {handle : Handle} (h : s.writeHandle addr handle = .ok s') :
    Quiet s s' := by
  rw [eq_of_check h]
  exact ⟨rfl, rfl⟩

theorem free_quiet (h : s.free addr = .ok s') : Quiet s s' := by
  rw [eq_of_check h]
  exact ⟨rfl, rfl⟩

theorem listNodeInit_quiet (h : s.listNodeInit node = .ok s') : Quiet s s' := by
  obtain ⟨s₁, hnext, hprev⟩ := Exec.bind_eq_ok.mp h
  exact (writeNext_quiet hnext).trans (writePrev_quiet hprev)

theorem listAdd_quiet (h : s.listAdd item node = .ok s') : Quiet s s' := by
  obtain ⟨next, -, h⟩ := Exec.bind_eq_ok.mp h
  obtain ⟨s₁, h₁, h⟩ := Exec.bind_eq_ok.mp h
  obtain ⟨s₂, h₂, h⟩ := Exec.bind_eq_ok.mp h
  obtain ⟨s₃, h₃, h₄⟩ := Exec.bind_eq_ok.mp h
  exact (((writeNext_quiet h₁).trans (writePrev_quiet h₂)).trans (writeNext_quiet h₃)).trans
    (writePrev_quiet h₄)

theorem listRm_quiet (h : s.listRm node = .ok s') : Quiet s s' := by
  obtain ⟨prev, -, h⟩ := Exec.bind_eq_ok.mp h
  obtain ⟨next, -, h⟩ := Exec.bind_eq_ok.mp h
  obtain ⟨s₁, h₁, h₂⟩ := Exec.bind_eq_ok.mp h
  exact (writeNext_quiet h₁).trans (writePrev_quiet h₂)

theorem htestDestroy_quiet (h : htestDestroy s = .ok s') : Quiet s s' := by
  obtain ⟨res, -, h⟩ := Exec.bind_eq_ok.mp h
  obtain ⟨tmp, -, h⟩ := Exec.bind_eq_ok.mp h
  refine loop_partial (I := fun st => Quiet s st.state) (Q := Quiet s) ?_ ?_ _ _ _
    (Quiet.refl s) h
  · rintro ⟨node, tmp, s₁⟩ st hquiet hpass
    cases node with
    | resources => cases hpass
    | handle addr =>
        obtain ⟨handle, -, hpass⟩ := Exec.bind_eq_ok.mp hpass
        obtain ⟨s₂, hrm, hpass⟩ := Exec.bind_eq_ok.mp hpass
        obtain ⟨s₃, hfree, hpass⟩ := Exec.bind_eq_ok.mp hpass
        obtain ⟨next, -, hpass⟩ := Exec.bind_eq_ok.mp hpass
        obtain rfl := Pass.next.inj (Except.ok.inj hpass)
        have hnote : Quiet s₁ (s₁.note (.release handle.destroy handle.data)) := ⟨rfl, rfl⟩
        exact ((Quiet.trans hquiet hnote).trans (listRm_quiet hrm)).trans (free_quiet hfree)
  · rintro ⟨node, tmp, s₁⟩ r hquiet hpass
    cases node with
    | resources =>
        obtain rfl := Pass.done.inj (Except.ok.inj hpass)
        exact hquiet
    | handle addr =>
        obtain ⟨handle, -, hpass⟩ := Exec.bind_eq_ok.mp hpass
        obtain ⟨s₂, -, hpass⟩ := Exec.bind_eq_ok.mp hpass
        obtain ⟨s₃, -, hpass⟩ := Exec.bind_eq_ok.mp hpass
        obtain ⟨next, -, hpass⟩ := Exec.bind_eq_ok.mp hpass
        cases Except.ok.inj hpass

end Silence

/-! ## What the code shows -/

/-- Behind the marks, the test has their view, and their lines were logged. -/
structure Shows (s s' : State) (marks : List Mark) : Prop where
  log : s'.test.log = s.test.log
  view : s'.test.view = marks.foldl View.after s.test.view
  output : s'.output = s.output ++ if s.test.log then s.test.view.linesOf marks else []

section Showing

variable {s s' s'' : State} {marks marks' : List Mark} {ρ : Type}

theorem linesOf_append (view : View) (marks marks' : List Mark) :
    view.linesOf (marks ++ marks') =
      view.linesOf marks ++ (marks.foldl View.after view).linesOf marks' := by
  induction marks generalizing view with
  | nil => rfl
  | cons mark marks ih =>
      rw [List.cons_append, View.linesOf, View.linesOf, ih, List.append_assoc]
      rfl

theorem foldl_after_name (view : View) (marks : List Mark) :
    (marks.foldl View.after view).name = view.name := by
  induction marks generalizing view with
  | nil => rfl
  | cons mark marks ih =>
      rw [List.foldl_cons, ih]
      cases mark <;> rfl

theorem Quiet.shows (h : Quiet s s') : Shows s s' [] := by
  refine ⟨by rw [h.test], by rw [h.test]; rfl, ?_⟩
  rw [h.output, View.linesOf, ite_self, List.append_nil]

theorem Shows.trans (h : Shows s s' marks) (h' : Shows s' s'' marks') :
    Shows s s'' (marks ++ marks') where
  log := h'.log.trans h.log
  view := by rw [h'.view, h.view, List.foldl_append]
  output := by
    rw [h'.output, h.output, h.log, h.view, List.append_assoc, linesOf_append]
    split <;> rfl

theorem Shows.quiet (h : Shows s s' marks) (h' : Quiet s' s'') : Shows s s'' marks := by
  have h'' := h.trans h'.shows
  rwa [List.append_nil] at h''

theorem htestLog_shows (level : LogLevel) (line : Text) (s : State) :
    Shows s (htestLog level line s) [.line line] := by
  refine ⟨by rw [htestLog, State.log_test], by rw [htestLog, State.log_test]; rfl, ?_⟩
  rw [htestLog]
  cases s.test.log with
  | true => rfl
  | false => exact (List.append_nil _).symm

theorem htestLog_shows_named (level : LogLevel) (line : Text) (s : State) :
    Shows s (htestLog level (namedLine s.test.name line) s) [.named line] := by
  obtain ⟨hlog, hview, houtput⟩ := htestLog_shows level (namedLine s.test.name line) s
  exact ⟨hlog, hview, houtput⟩

theorem htestSetStatus_shows (status : Status) (msg : Option Text) (s : State) :
    Shows s (htestSetStatus status msg s) [.status status msg] := by
  cases msg with
  | none =>
      refine ⟨rfl, rfl, ?_⟩
      simp [htestSetStatus, View.linesOf, View.lines]
  | some msg =>
      by_cases hlong : msg.length > statusMsgSize - 1
      · cases hlog : s.test.log with
        | true =>
            refine ⟨?_, ?_, ?_⟩ <;>
              simp [htestSetStatus, htestWarn, htestLog, View.linesOf, View.lines, hlong,
                State.log, hlog, cutLine, namedLine, Test.view, View.after]
        | false =>
            refine ⟨?_, ?_, ?_⟩ <;>
              simp [htestSetStatus, htestWarn, htestLog, State.log, hlog, Test.view, View.after]
      · refine ⟨?_, ?_, ?_⟩ <;>
          simp [htestSetStatus, View.linesOf, View.lines, hlong, Test.view, View.after]

theorem htestReturn_shows {status : Status} {msg : Option Text}
    (h : htestReturn (htestSetStatus status msg s) = .ok s') :
    Shows s s' [.status status msg] := by
  rw [eq_of_check h]
  exact htestSetStatus_shows status msg s

theorem htestAssert_shows {assertion : Assertion} {behind : Text} {goesOn : Bool}
    (h : htestAssert assertion behind s = .ok (goesOn, s')) :
    Shows s s' (Step.assert assertion behind).marks ∧ goesOn = assertion.result := by
  rw [htestAssert] at h
  rw [Step.marks]
  cases hresult : assertion.result with
  | true =>
      rw [hresult] at h
      obtain ⟨rfl, rfl⟩ := Prod.mk.inj (Except.ok.inj h)
      exact ⟨(Quiet.refl s).shows, rfl⟩
  | false =>
      rw [hresult] at h
      obtain ⟨s₁, hfail, heq⟩ := Exec.bind_eq_ok.mp h
      obtain ⟨rfl, rfl⟩ := Prod.mk.inj (Except.ok.inj heq)
      have hfirst := htestLog_shows .info (failedLine s.test.name assertion) s
      have hdata : (htestLog .info (failedLine s.test.name assertion) s).test.data =
          s.test.data := by
        rw [htestLog, State.log_test]
      rw [hdata] at hfail
      have hsecond := htestLog_shows .info (hashLine [testString s.test.data behind,
        assertion.message]) (htestLog .info (failedLine s.test.name assertion) s)
      obtain ⟨hlog, hview, houtput⟩ := hfirst.trans hsecond
      have hlines : Shows s _ [.failure assertion behind] := ⟨hlog, hview, houtput⟩
      exact ⟨hlines.trans (htestReturn_shows hfail), rfl⟩

theorem htestCreateResource_shows {malloc : Malloc} {call : Call} {data : Option ℕ}
    (h : htestCreateResource malloc call.res call.arg call.found call.data s = .ok (data, s')) :
    Shows s s' (Step.create call).marks ∧ data.isSome = call.found := by
  cases hfound : call.found with
  | false =>
      simp only [htestCreateResource, hfound, Bool.not_false, if_true] at h
      obtain ⟨s₁, hfail, heq⟩ := Exec.bind_eq_ok.mp h
      obtain ⟨rfl, rfl⟩ := Prod.mk.inj (Except.ok.inj heq)
      have hquiet : Quiet s { s with mallocs := s.mallocs + 1 } := ⟨rfl, rfl⟩
      have hshows := hquiet.shows.trans (htestReturn_shows hfail)
      simp only [Step.marks, hfound, Bool.false_eq_true, if_false]
      exact ⟨hshows, rfl⟩
  | true =>
      simp only [htestCreateResource, hfound, Bool.not_true, Bool.false_eq_true, if_false] at h
      obtain ⟨handle, -, h⟩ := Exec.bind_eq_ok.mp h
      obtain ⟨s₁, h₁, h⟩ := Exec.bind_eq_ok.mp h
      obtain ⟨handle', -, h⟩ := Exec.bind_eq_ok.mp h
      obtain ⟨s₂, h₂, h⟩ := Exec.bind_eq_ok.mp h
      obtain ⟨s₃, h₃, h⟩ := Exec.bind_eq_ok.mp h
      obtain ⟨s₄, h₄, h⟩ := Exec.bind_eq_ok.mp h
      obtain ⟨handle'', -, heq⟩ := Exec.bind_eq_ok.mp h
      obtain ⟨rfl, rfl⟩ := Prod.mk.inj (Except.ok.inj heq)
      have hwritten := writeHandle_quiet h₁
      have hstored : Quiet s s₁ := ⟨hwritten.test, hwritten.output⟩
      have hfilled := writeHandle_quiet h₂
      have hcreated : Quiet s₁ s₂ := ⟨hfilled.test, hfilled.output⟩
      have hadded := (listNodeInit_quiet h₃).trans (listAdd_quiet h₄)
      simp only [Step.marks, hfound, if_true]
      exact ⟨((hstored.trans hcreated).trans hadded).shows, rfl⟩

theorem runStep_shows {malloc : Malloc} {step : Step} {goesOn : Bool}
    (h : runStep malloc step s = .ok (goesOn, s')) :
    Shows s s' step.marks ∧ goesOn = step.goesOn := by
  cases step with
  | create call =>
      obtain ⟨⟨data, s₁⟩, hcreate, heq⟩ := Exec.bind_eq_ok.mp h
      obtain ⟨rfl, rfl⟩ := Prod.mk.inj (Except.ok.inj heq)
      exact htestCreateResource_shows hcreate
  | setStatus status msg =>
      obtain ⟨rfl, rfl⟩ := Prod.mk.inj (Except.ok.inj h)
      exact ⟨htestSetStatus_shows status msg s, rfl⟩
  | setData data =>
      obtain ⟨rfl, rfl⟩ := Prod.mk.inj (Except.ok.inj h)
      refine ⟨⟨rfl, rfl, ?_⟩, rfl⟩
      simp [Step.marks, View.linesOf, View.lines]
  | log level line =>
      obtain ⟨rfl, rfl⟩ := Prod.mk.inj (Except.ok.inj h)
      exact ⟨htestLog_shows level line s, rfl⟩
  | error line =>
      obtain ⟨rfl, rfl⟩ := Prod.mk.inj (Except.ok.inj h)
      exact ⟨htestLog_shows_named .error line s, rfl⟩
  | warn line =>
      obtain ⟨rfl, rfl⟩ := Prod.mk.inj (Except.ok.inj h)
      exact ⟨htestLog_shows_named .warning line s, rfl⟩
  | info line =>
      obtain ⟨rfl, rfl⟩ := Prod.mk.inj (Except.ok.inj h)
      exact ⟨htestLog_shows_named .info line s, rfl⟩
  | assert assertion behind => exact htestAssert_shows h

theorem runSteps_shows {malloc : Malloc} {steps : List Step} {ended : Bool}
    (h : runSteps malloc steps s = .ok (ended, s')) :
    Shows s s' (stepsMarks steps) ∧ ended = steps.all Step.goesOn := by
  induction steps generalizing s with
  | nil =>
      obtain ⟨rfl, rfl⟩ := Prod.mk.inj (Except.ok.inj h)
      exact ⟨(Quiet.refl s).shows, rfl⟩
  | cons step steps ih =>
      obtain ⟨⟨goesOn, s₁⟩, hstep, h⟩ := Exec.bind_eq_ok.mp h
      obtain ⟨hshows, rfl⟩ := runStep_shows hstep
      rw [stepsMarks, List.all_cons]
      cases hgoesOn : step.goesOn with
      | true =>
          simp only [hgoesOn, if_true] at h
          obtain ⟨hrest, hended⟩ := ih h
          rw [if_pos rfl, Bool.true_and]
          exact ⟨hshows.trans hrest, hended⟩
      | false =>
          simp only [hgoesOn, Bool.false_eq_true, if_false] at h
          obtain ⟨rfl, rfl⟩ := Prod.mk.inj (Except.ok.inj h)
          rw [if_neg Bool.false_ne_true, List.append_nil, Bool.false_and]
          exact ⟨hshows, rfl⟩

theorem Ending.run_shows {ending : Ending ρ} {result : Option ρ}
    (h : ending.run s = .ok (result, s')) :
    Shows s s' ending.marks ∧ result = ending.result := by
  cases ending with
  | returns r =>
      obtain ⟨rfl, rfl⟩ := Prod.mk.inj (Except.ok.inj h)
      exact ⟨(Quiet.refl s).shows, rfl⟩
  | htestPass msg =>
      obtain ⟨s₁, hreturn, heq⟩ := Exec.bind_eq_ok.mp h
      obtain ⟨rfl, rfl⟩ := Prod.mk.inj (Except.ok.inj heq)
      exact ⟨htestReturn_shows hreturn, rfl⟩
  | htestSkip msg =>
      obtain ⟨s₁, hreturn, heq⟩ := Exec.bind_eq_ok.mp h
      obtain ⟨rfl, rfl⟩ := Prod.mk.inj (Except.ok.inj heq)
      exact ⟨htestReturn_shows hreturn, rfl⟩
  | htestFail msg =>
      obtain ⟨s₁, hreturn, heq⟩ := Exec.bind_eq_ok.mp h
      obtain ⟨rfl, rfl⟩ := Prod.mk.inj (Except.ok.inj heq)
      exact ⟨htestReturn_shows hreturn, rfl⟩

theorem Script.run_shows {malloc : Malloc} {script : Script ρ} {result : Option ρ}
    (h : script.run malloc s = .ok (result, s')) :
    Shows s s' script.marks ∧ result = script.result := by
  obtain ⟨⟨ended, s₁⟩, hsteps, h⟩ := Exec.bind_eq_ok.mp h
  obtain ⟨hshows, hended⟩ := runSteps_shows hsteps
  simp only [hended] at h
  rw [Script.marks, Script.result]
  split at h
  · next hall =>
      obtain ⟨hend, hresult⟩ := Ending.run_shows h
      rw [if_pos hall, if_pos hall]
      exact ⟨hshows.trans hend, hresult⟩
  · next hall =>
      obtain ⟨rfl, rfl⟩ := Prod.mk.inj (Except.ok.inj h)
      rw [if_neg hall, if_neg hall, List.append_nil]
      exact ⟨hshows, rfl⟩

theorem note_quiet (s : State) (event : Event) : Quiet s (s.note event) := ⟨rfl, rfl⟩

/-! ### Hooks -/

theorem runInit_shows {malloc : Malloc} {suite : Suite} {num : ℕ}
    (h : runInit malloc suite num s = .ok s') :
    Shows s s' (suite.init.elim [] fun init => (init num).marks) := by
  rw [runInit] at h
  cases hinit : suite.init with
  | none =>
      rw [hinit] at h
      obtain rfl := Except.ok.inj h
      exact (Quiet.refl s).shows
  | some init =>
      rw [hinit] at h
      obtain ⟨⟨code, s₁⟩, hrun, h⟩ := Exec.bind_eq_ok.mp h
      obtain ⟨hshows, -⟩ := Script.run_shows hrun
      cases code with
      | none => cases h
      | some code =>
          obtain rfl := Except.ok.inj h
          exact hshows.quiet (note_quiet s₁ _)

theorem runDestroy_loop_shows {malloc : Malloc} {hook : ℕ → Script Unit} {num : ℕ}
    (budget count : ℕ)
    (h : loop (runDestroyPass malloc hook num) budget (count, s) = .ok s') :
    Shows s s' (destroyMarks hook budget count) := by
  induction budget generalizing s count with
  | zero => cases h
  | succ budget ih =>
      cases hpass : runDestroyPass malloc hook num (count, s) with
      | error e =>
          rw [loop_error hpass] at h
          cases h
      | ok pass =>
          obtain ⟨⟨result, s₁⟩, hrun, hrest⟩ := Exec.bind_eq_ok.mp hpass
          obtain ⟨hshows, rfl⟩ := Script.run_shows hrun
          have hfirst := (note_quiet s (.destroy num)).shows.trans hshows
          rw [destroyMarks]
          cases hresult : (hook count).result with
          | some u =>
              simp only [hresult] at hrest
              obtain rfl := Except.ok.inj hrest
              rw [loop_done hpass] at h
              obtain rfl := Except.ok.inj h
              simpa using hfirst
          | none =>
              simp only [hresult] at hrest
              obtain rfl := Except.ok.inj hrest
              rw [loop_next hpass] at h
              simpa using hfirst.trans (ih (count + 1) h)

theorem runCase_shows {malloc : Malloc} {budget : ℕ} {suite : Suite} {num : ℕ} {unit : TestUnit}
    (h : runCase malloc budget suite num unit s = .ok s') :
    Shows s s' (suite.marks budget num unit) := by
  obtain ⟨s₁, hinit, h⟩ := Exec.bind_eq_ok.mp h
  obtain ⟨⟨result, s₂⟩, hrun, h⟩ := Exec.bind_eq_ok.mp h
  have harmed : Shows s₁ { s₁ with test := { s₁.test with returnJmp := true } } [] := by
    refine ⟨rfl, rfl, ?_⟩
    rw [View.linesOf, ite_self, List.append_nil]
  have hunit := (harmed.quiet (note_quiet _ (.run num))).trans (Script.run_shows hrun).1
  refine ((runInit_shows hinit).trans hunit).trans ?_
  change runDestroy malloc budget suite num s₂ = .ok s' at h
  rw [runDestroy] at h
  cases hdestroy : suite.destroy with
  | none =>
      rw [hdestroy] at h
      obtain rfl := Except.ok.inj h
      exact (Quiet.refl s₂).shows
  | some destroy =>
      rw [hdestroy] at h
      exact runDestroy_loop_shows budget 0 h

/-! ### Units -/

theorem htestInit_view {name : Text} {log : Bool} {code : ℤ}
    (h : htestInit name log s = .ok (code, s')) :
    code = 0 ∧ s'.output = s.output ∧ s'.test.log = log ∧ s'.test.view = View.fresh name := by
  obtain ⟨s₁, hinit, heq⟩ := Exec.bind_eq_ok.mp h
  obtain ⟨rfl, rfl⟩ := Prod.mk.inj (Except.ok.inj heq)
  obtain ⟨htest, houtput⟩ := listNodeInit_quiet hinit
  rw [htest]
  exact ⟨rfl, houtput, rfl, rfl⟩

/-- The status of the test is counted, and its line is logged. -/
theorem recordStatus_eq (num : ℕ) (stats : Stats) (s : State) :
    recordStatus num { stats with total := stats.total + 1 } s =
      (stats.count s.test.view.verdict,
        s.log s.test.log (resultLine num s.test.view.name s.test.view.verdict)) := by
  cases hstatus : s.test.status <;>
    simp [recordStatus, hstatus, Stats.count, Test.view, resultLine, StatusMsg.behind,
      messageBehind]

/-- Lines are logged where the suite logs. -/
def Logs (s s' : State) (log : Bool) (lines : List Text) : Prop :=
  s'.output = s.output ++ if log then lines else []

theorem Logs.trans {log : Bool} {lines lines' : List Text} (h : Logs s s' log lines)
    (h' : Logs s' s'' log lines') : Logs s s'' log (lines ++ lines') := by
  rw [Logs, h', h, List.append_assoc]
  split <;> rfl

theorem log_logs (s : State) (log : Bool) (line : Text) : Logs s (s.log log line) log [line] := by
  cases log with
  | true => rfl
  | false => exact (List.append_nil _).symm

theorem Logs.quiet {log : Bool} {lines : List Text} (h : Logs s s' log lines)
    (h' : Quiet s' s'') : Logs s s'' log lines := h'.output.trans h

/-- The end of a pass counts the verdict in the test, and logs it. -/
theorem recordStatus_report {num : ℕ} {stats stats' : Stats} {verdict : Verdict} {name : Text}
    {log : Bool} (hverdict : s.test.view.verdict = verdict) (hname : s.test.view.name = name)
    (hlog : s.test.log = log) (h : (do
        let s' ← htestDestroy (recordStatus num { stats with total := stats.total + 1 } s).2
        Except.ok ((recordStatus num { stats with total := stats.total + 1 } s).1, s')) =
      Except.ok (stats', s')) :
    stats' = stats.count verdict ∧ Logs s s' log [resultLine num name verdict] := by
  rw [recordStatus_eq, hverdict, hname, hlog] at h
  obtain ⟨s₁, hdestroy, heq⟩ := Exec.bind_eq_ok.mp h
  obtain ⟨rfl, rfl⟩ := Prod.mk.inj (Except.ok.inj heq)
  exact ⟨rfl, (log_logs s log _).quiet (htestDestroy_quiet hdestroy)⟩

theorem runUnit_report {malloc : Malloc} {budget : ℕ} {suite : Suite} {num : ℕ}
    {unit : TestUnit} {stats stats' : Stats}
    (h : runUnit malloc budget suite num unit stats s = .ok (stats', s')) :
    stats' = stats.count (suite.verdict budget num unit) ∧
      Logs s s' suite.log (suite.unitLines budget num unit) := by
  obtain ⟨⟨code, s₁⟩, hinit, h⟩ := Exec.bind_eq_ok.mp h
  obtain ⟨rfl, houtput, hlog, hview⟩ := htestInit_view hinit
  simp only [ne_eq, not_true_eq_false, if_false] at h
  rw [Suite.verdict, Suite.unitLines, Suite.verdict]
  cases hskip : suite.skip with
  | true =>
      rw [hskip, if_pos rfl, Exec.ok_bind] at h
      let skipped : State := { s₁ with test := { s₁.test with status := .skipped } }
      have hmsg : s₁.test.statusMsg.chars = [] := congrArg (fun view => view.verdict.msg) hview
      have hskipped : skipped.test.view.verdict = { status := .skipped, msg := [] } := by
        rw [Verdict.mk.injEq]
        exact ⟨rfl, hmsg⟩
      have hname : skipped.test.view.name = unit.name :=
        congrArg (fun view => view.name) hview
      have hlog' : skipped.test.log = suite.log := hlog
      obtain ⟨hstats, hline⟩ := recordStatus_report hskipped hname hlog' h
      rw [if_pos rfl, if_pos rfl, List.nil_append]
      refine ⟨hstats, ?_⟩
      rw [Logs, ← houtput]
      exact hline
  | false =>
      rw [hskip, if_neg Bool.false_ne_true] at h
      obtain ⟨s₂, hcase, h⟩ := Exec.bind_eq_ok.mp h
      obtain ⟨hlog₂, hview₂, houtput₂⟩ := runCase_shows hcase
      rw [hview] at hview₂
      rw [hlog, hview, houtput] at houtput₂
      have hname₂ : s₂.test.view.name = unit.name := by
        rw [hview₂, foldl_after_name]
        rfl
      obtain ⟨hstats, hline⟩ :=
        recordStatus_report (congrArg View.verdict hview₂) hname₂ (hlog₂.trans hlog) h
      rw [if_neg Bool.false_ne_true, if_neg Bool.false_ne_true]
      exact ⟨hstats, Logs.trans houtput₂ hline⟩

theorem runUnits_report {malloc : Malloc} {budget : ℕ} {suite : Suite} {num : ℕ}
    {units : List TestUnit} {stats stats' : Stats}
    (h : runUnits malloc budget suite num units stats s = .ok (stats', s')) :
    stats' = (suite.verdicts budget num units).foldl Stats.count stats ∧
      Logs s s' suite.log (suite.unitsLines budget num units) := by
  induction units generalizing num stats s with
  | nil =>
      obtain ⟨rfl, rfl⟩ := Prod.mk.inj (Except.ok.inj h)
      refine ⟨rfl, ?_⟩
      rw [Logs, Suite.unitsLines, ite_self, List.append_nil]
  | cons unit units ih =>
      obtain ⟨⟨stats₁, s₁⟩, hunit, h⟩ := Exec.bind_eq_ok.mp h
      obtain ⟨rfl, hlines⟩ := runUnit_report hunit
      obtain ⟨hstats, hrest⟩ := ih h
      exact ⟨hstats, hlines.trans hrest⟩

theorem logResults_logs (suite : Suite) (stats : Stats) (s : State) :
    Logs s (logResults suite stats s) suite.log
      ((if stats.total = 0 then [ascii "# Warning: Test suite empty"] else []) ++
        [resultsLine stats]) := by
  rw [logResults]
  by_cases hempty : stats.total = 0
  · rw [if_pos hempty, if_pos hempty]
    exact (log_logs s suite.log _).trans (log_logs _ suite.log _)
  · rw [if_neg hempty, if_neg hempty]
    exact log_logs s suite.log _

end Showing

/-! ## Counts -/

section Counts

variable (budget : ℕ) (suite : Suite)

theorem foldl_count (verdicts : List Verdict) (stats : Stats) :
    verdicts.foldl Stats.count stats =
      { total := stats.total + verdicts.length
        passed := stats.passed + verdicts.countP fun v => v.status = .passed
        failed := stats.failed + verdicts.countP fun v => v.status = .failed
        skipped := stats.skipped + verdicts.countP fun v => v.status = .skipped } := by
  induction verdicts generalizing stats with
  | nil => rfl
  | cons v verdicts ih =>
      rw [List.foldl_cons, ih]
      simp only [Stats.count, List.length_cons, List.countP_cons, decide_eq_true_eq,
        Stats.mk.injEq]
      omega

theorem length_verdicts (num : ℕ) (units : List TestUnit) :
    (suite.verdicts budget num units).length = units.length := by
  induction units generalizing num with
  | nil => rfl
  | cons unit units ih => rw [Suite.verdicts, List.length_cons, List.length_cons, ih]

theorem isTestLine_resultLine (num : ℕ) (name : Text) (verdict : Verdict) :
    isTestLine (resultLine num name verdict) = true := by
  obtain ⟨status, msg⟩ := verdict
  cases status <;> simp [isTestLine, resultLine]

/-- A line tells of a failure exactly if the verdict is one. -/
theorem prefix_resultLine (num : ℕ) (name : Text) (verdict : Verdict) :
    (ascii "not ok ").isPrefixOf (resultLine num name verdict) =
        decide (verdict.status = .failed) ∧
      (ascii "ok ").isPrefixOf (resultLine num name verdict) =
        decide (verdict.status ≠ .failed) := by
  obtain ⟨status, msg⟩ := verdict
  cases status
  · exact ⟨rfl, by simp [resultLine]⟩
  · exact ⟨rfl, by simp [resultLine]⟩
  · exact ⟨by simp [resultLine], rfl⟩

theorem isTestLine_hash (line : Text) : isTestLine (chr '#' :: line) = false := rfl

theorem isTestLine_namedLine (name line : Text) : isTestLine (namedLine name line) = false := by
  simp only [namedLine, List.append_assoc]
  rfl

theorem isTestLine_failedLine (name : Text) (assertion : Assertion) :
    isTestLine (failedLine name assertion) = false := by
  simp only [failedLine, List.append_assoc]
  exact isTestLine_hash _

/-- Only `htest_log` can make a line look like one with a verdict. -/
theorem lines_filter (view : View) (mark : Mark) :
    (view.lines mark).filter isTestLine = mark.logged.filter isTestLine := by
  cases mark with
  | status status msg =>
      rw [View.lines]
      split
      · exact List.filter_cons_of_neg (Bool.eq_false_iff.mp (isTestLine_namedLine _ _))
      · rfl
  | data data => rfl
  | line text => rfl
  | named text => exact List.filter_cons_of_neg (Bool.eq_false_iff.mp (isTestLine_namedLine _ _))
  | failure assertion behind =>
      rw [View.lines, List.filter_cons_of_neg (Bool.eq_false_iff.mp (isTestLine_failedLine _ _))]
      exact List.filter_cons_of_neg (Bool.eq_false_iff.mp (isTestLine_hash _))

theorem linesOf_filter (view : View) (marks : List Mark) :
    (view.linesOf marks).filter isTestLine =
      (marks.flatMap Mark.logged).filter isTestLine := by
  induction marks generalizing view with
  | nil => rfl
  | cons mark marks ih =>
      rw [View.linesOf, List.flatMap_cons, List.filter_append, List.filter_append, lines_filter, ih]

/-- Lines that look like ones with a verdict are counted apart from the others. -/
theorem countP_filter_isTestLine {p : Text → Bool}
    (hp : ∀ line, p line = true → isTestLine line = true) (lines : List Text) :
    (lines.filter isTestLine).countP p = lines.countP p := by
  rw [List.countP_filter]
  refine List.countP_congr fun line _ => ?_
  rw [Bool.and_eq_true]
  exact ⟨And.left, fun h => ⟨h, hp line h⟩⟩

/-- The lines that a unit logs have one with its verdict, behind those of `htest_log`. -/
theorem unitsLines_filter_cons (num : ℕ) (unit : TestUnit) (units : List TestUnit) :
    (suite.unitsLines budget num (unit :: units)).filter isTestLine =
      (if suite.skip then [] else (suite.marks budget num unit).flatMap Mark.logged).filter
          isTestLine ++
        resultLine num unit.name (suite.verdict budget num unit) ::
          (suite.unitsLines budget (num + 1) units).filter isTestLine := by
  have hcode : (if suite.skip then []
      else (View.fresh unit.name).linesOf (suite.marks budget num unit)).filter isTestLine =
        (if suite.skip then [] else (suite.marks budget num unit).flatMap Mark.logged).filter
          isTestLine := by
    split
    · rfl
    · exact linesOf_filter _ _
  rw [Suite.unitsLines, Suite.unitLines, List.filter_append, List.filter_append, hcode,
    List.filter_cons_of_pos (isTestLine_resultLine _ _ _), List.append_assoc]
  rfl

/-- Lines are counted by the verdicts, and those of `htest_log` besides. -/
theorem unitsLines_countP {p : Text → Bool}
    (hp : ∀ line, p line = true → isTestLine line = true) (num : ℕ) (units : List TestUnit) :
    (suite.unitsLines budget num units).countP p =
      (suite.resultLines budget num units).countP p +
        (suite.loggedLines budget num units).countP p := by
  induction units generalizing num with
  | nil => rfl
  | cons unit units ih =>
      rw [← countP_filter_isTestLine hp, unitsLines_filter_cons, List.countP_append,
        List.countP_cons, countP_filter_isTestLine hp, countP_filter_isTestLine hp, ih,
        Suite.resultLines, Suite.loggedLines, List.countP_append, List.countP_cons]
      omega

theorem unitsLines_filter (num : ℕ) (units : List TestUnit)
    (h : ∀ line ∈ suite.loggedLines budget num units, isTestLine line = false) :
    (suite.unitsLines budget num units).filter isTestLine =
      suite.resultLines budget num units := by
  induction units generalizing num with
  | nil => rfl
  | cons unit units ih =>
      obtain ⟨hunit, hunits⟩ := List.forall_mem_append.mp h
      have hcode : (if suite.skip then []
          else (suite.marks budget num unit).flatMap Mark.logged).filter isTestLine = [] := by
        rw [List.filter_eq_nil_iff]
        exact fun line hline => Bool.eq_false_iff.mp (hunit line hline)
      rw [unitsLines_filter_cons, hcode, ih (num + 1) hunits]
      rfl

/-- The lines of a report that look like ones with a verdict are those of its units. -/
theorem report_filter_isTestLine :
    (suite.report budget).filter isTestLine =
      (suite.unitsLines budget 1 suite.units).filter isTestLine := by
  have hhead : [ascii "# Suite: " ++ suite.name].filter isTestLine = [] :=
    List.filter_cons_of_neg (Bool.eq_false_iff.mp (isTestLine_hash _))
  have hempty : (if suite.units = [] then [ascii "# Warning: Test suite empty"] else []).filter
      isTestLine = [] := by
    split <;> rfl
  have hlast : [resultsLine (suite.tally budget)].filter isTestLine = [] := by
    refine List.filter_cons_of_neg (Bool.eq_false_iff.mp ?_)
    simp only [resultsLine, List.append_assoc]
    exact isTestLine_hash _
  rw [Suite.report, List.filter_append, List.filter_append, List.filter_append, hhead, hempty,
    hlast, List.nil_append, List.append_nil, List.append_nil]

theorem report_countP {p : Text → Bool}
    (hp : ∀ line, p line = true → isTestLine line = true) :
    (suite.report budget).countP p =
      (suite.resultLines budget 1 suite.units).countP p +
        (suite.loggedLines budget 1 suite.units).countP p := by
  rw [← countP_filter_isTestLine hp, report_filter_isTestLine, countP_filter_isTestLine hp,
    unitsLines_countP budget suite hp]

/-- The lines that look like ones with a verdict are these exactly if no line of `htest_log`
does. -/
theorem report_filter_iff :
    (suite.report budget).filter isTestLine = suite.resultLines budget 1 suite.units ↔
      ∀ line ∈ suite.loggedLines budget 1 suite.units, isTestLine line = false := by
  rw [report_filter_isTestLine]
  refine ⟨fun h => ?_, unitsLines_filter budget suite 1 suite.units⟩
  have hcount := unitsLines_countP budget suite (p := isTestLine) (fun _ hline => hline) 1
    suite.units
  rw [← countP_filter_isTestLine (p := isTestLine) fun _ hline => hline, h] at hcount
  have hnone : (suite.loggedLines budget 1 suite.units).countP isTestLine = 0 := by omega
  exact fun line hline => Bool.eq_false_iff.mpr (List.countP_eq_zero.mp hnone line hline)

/-- The lines with the verdicts are counted by the verdicts. -/
theorem resultLines_countP {p : Text → Bool} {q : Verdict → Bool}
    (hpq : ∀ num name verdict, p (resultLine num name verdict) = q verdict) (num : ℕ)
    (units : List TestUnit) :
    (suite.resultLines budget num units).countP p =
      (suite.verdicts budget num units).countP q := by
  induction units generalizing num with
  | nil => rfl
  | cons unit units ih =>
      rw [Suite.resultLines, Suite.verdicts, List.countP_cons, List.countP_cons, ih, hpq]

theorem tally_eq : suite.tally budget =
    { total := suite.units.length
      passed := (suite.verdicts budget 1 suite.units).countP fun v => v.status = .passed
      failed := (suite.verdicts budget 1 suite.units).countP fun v => v.status = .failed
      skipped := (suite.verdicts budget 1 suite.units).countP fun v => v.status = .skipped } := by
  rw [Suite.tally, foldl_count, length_verdicts]
  simp [Stats.zero]

theorem countP_not_failed (verdicts : List Verdict) :
    verdicts.countP (fun v => decide (v.status ≠ .failed)) =
      (verdicts.countP fun v => v.status = .passed) +
        verdicts.countP fun v => v.status = .skipped := by
  induction verdicts with
  | nil => rfl
  | cons v verdicts ih =>
      rw [List.countP_cons, List.countP_cons, List.countP_cons, ih]
      cases v.status <;> simp only [ne_eq, reduceCtorEq, decide_true, decide_false, if_true,
        if_false, not_true_eq_false, not_false_eq_true, Bool.false_eq_true] <;> omega

theorem report_log (log : Bool) :
    (∀ num units, ({ suite with log := log } : Suite).verdicts budget num units =
        suite.verdicts budget num units) ∧
      ∀ num units, ({ suite with log := log } : Suite).unitsLines budget num units =
        suite.unitsLines budget num units := by
  constructor
  · intro num units
    induction units generalizing num with
    | nil => rfl
    | cons unit units ih => exact congrArg (suite.verdict budget num unit :: ·) (ih (num + 1))
  · intro num units
    induction units generalizing num with
    | nil => rfl
    | cons unit units ih => exact congrArg (suite.unitLines budget num unit ++ ·) (ih (num + 1))

end Counts

/-- `htest_run_suite`, where it returns, logs the report of the suite, or nothing where there is
no file.  The statistics are the numbers of the report's lines with a verdict, one for each unit.
The lines that look like these are these and the ones among them that the code of the units gives
to `htest_log`. -/
theorem htestRunSuite_report {malloc : Malloc} {budget : ℕ} {suite : Suite} {log : Bool}
    {s s' : State} {code : ℤ} {stats : Stats}
    (hrun : htestRunSuite malloc budget suite log s = .ok (code, stats, s')) :
    s'.output = s.output ++ (if log then suite.report budget else []) ∧
      stats = suite.tally budget ∧
      stats.total = suite.units.length ∧
      (suite.report budget).countP (fun line => (ascii "not ok ").isPrefixOf line) =
        stats.failed + (suite.loggedLines budget 1 suite.units).countP
          (fun line => (ascii "not ok ").isPrefixOf line) ∧
      (suite.report budget).countP (fun line => (ascii "ok ").isPrefixOf line) =
        stats.passed + stats.skipped + (suite.loggedLines budget 1 suite.units).countP
          (fun line => (ascii "ok ").isPrefixOf line) ∧
      ((suite.report budget).filter isTestLine = suite.resultLines budget 1 suite.units ↔
        ∀ line ∈ suite.loggedLines budget 1 suite.units, isTestLine line = false) := by
  obtain ⟨⟨stats₁, s₁⟩, hunits, heq⟩ := Exec.bind_eq_ok.mp hrun
  simp only [Except.ok.injEq, Prod.mk.injEq] at heq
  obtain ⟨-, rfl, rfl⟩ := heq
  obtain ⟨hstats, hlines⟩ := runUnits_report hunits
  obtain ⟨hverdicts, hunitsLines⟩ := report_log budget suite log
  rw [hverdicts] at hstats
  rw [hunitsLines] at hlines
  have htally : stats₁ = suite.tally budget := hstats
  have htotal : (suite.tally budget).total = suite.units.length := by rw [tally_eq]
  have hempty : (suite.tally budget).total = 0 ↔ suite.units = [] := by
    rw [htotal, List.length_eq_zero_iff]
  refine ⟨?_, htally, by rw [htally, htotal], ?_, ?_, report_filter_iff budget suite⟩
  · have hhead := log_logs { s with test := Test.zero } log (ascii "# Suite: " ++ suite.name)
    have hall := (hhead.trans hlines).trans
      (logResults_logs { suite with log := log } stats₁ s₁)
    simp only [htally, hempty] at hall
    rw [htally, hall, Suite.report]
    simp only [List.append_assoc]
  · have hfailed : ∀ line, (ascii "not ok ").isPrefixOf line = true → isTestLine line = true := by
      intro line hline
      rw [isTestLine, hline, Bool.or_true]
    rw [htally, tally_eq, report_countP budget suite hfailed,
      resultLines_countP budget suite fun num name v => (prefix_resultLine num name v).1]
  · have hok : ∀ line, (ascii "ok ").isPrefixOf line = true → isTestLine line = true := by
      intro line hline
      rw [isTestLine, hline, Bool.true_or]
    rw [htally, tally_eq, report_countP budget suite hok,
      resultLines_countP budget suite fun num name v => (prefix_resultLine num name v).2,
      countP_not_failed]

/-- An assertion that fails. -/
def sumsDiffer : Assertion where
  result := false
  line := 7
  message := ascii "Expected operands to be equal"
  file := ascii "sums.c"
  func := ascii "sub"

/-- A suite of two units, which log a line each, and of which one fails an assertion. -/
def oneFails : Suite where
  units :=
    [{ name := ascii "add"
       run := { steps := [.info (ascii "carried"), .assert { sumsDiffer with result := true } []]
                ending := .returns () } },
      { name := ascii "sub"
        run := { steps := [.setData 0x4241, .log .info (ascii "ok 9"), .assert sumsDiffer []]
                 ending := .returns () } }]
  name := ascii "sums"
  skip := false
  init := none
  destroy := none
  log := false

/-- The assertion prints the bytes of the test where its message should be. -/
theorem htestRunSuite_report_two :
    ∃ code stats s', htestRunSuite bump 1 oneFails true blank = .ok (code, stats, s') ∧
      s'.output = [ascii "# Suite: sums", ascii "    # add: carried", ascii "ok 1 - add",
        ascii "ok 9", ascii "# Assertion Failed: test sub at sums.c:7:sub:", ascii "# AB",
        ascii "not ok 2 - sub",
        ascii "# Results: passed: 1, failed: 1, skipped: 0, total: 2\n"] := by
  obtain ⟨⟨code, stats, s'⟩, hrun⟩ : ∃ r, htestRunSuite bump 1 oneFails true blank = .ok r :=
    ⟨_, rfl⟩
  have hreport : oneFails.report 1 = [ascii "# Suite: sums", ascii "    # add: carried",
      ascii "ok 1 - add", ascii "ok 9", ascii "# Assertion Failed: test sub at sums.c:7:sub:",
      ascii "# AB", ascii "not ok 2 - sub",
      ascii "# Results: passed: 1, failed: 1, skipped: 0, total: 2\n"] := by
    decide
  obtain ⟨houtput, -⟩ := htestRunSuite_report hrun
  exact ⟨code, stats, s', hrun, houtput.trans hreport⟩

end Hlibc.Htest
