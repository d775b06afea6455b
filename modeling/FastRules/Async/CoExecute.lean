import FastRules.Async.Coroutine
import FastRules.Async.Executor
import FastRules.Async.Levels
import FastRules.Workflow.CompileParallel

/-!
# Executing a workflow as a coroutine

`coExecuteWorkflow`: it compiles the workflow, executes it with `executeParallelAsync`, rethrows the
first exception of a task and otherwise returns the results. It does all this before it returns to
its caller, so that `AsyncWorkflowTask::get` never reports an exception of it
(`coExecuteWorkflow_get_iff`).
-/

namespace FastRules

open Program

/-- An `AsyncRuleResult`. -/
structure AsyncRuleResult where
  result : RuleResult
  exception : Option Exn := none

/-- The loop of `coExecuteWorkflow` over the results. -/
def takeResults : List AsyncRuleResult → Except Exn (List RuleResult)
  | [] => .ok []
  | ar :: rest =>
    match ar.exception with
    | some e => .error e
    | none => (takeResults rest).map fun results ↦ ar.result :: results

/-- Clone the engine and compile the rules into the clone, so many times. -/
def CompileCall.createAsyncPool (x : CompileCall) (rules : List Rule) :
    ℕ → CompileProgram (Except String Unit)
  | 0 => return .ok ()
  | poolSize + 1 => do
    let clone ← CompileOp.perform (.clone x.engine)
    match ← compileRules x.lib clone rules with
    | .error e => return .error e
    | .ok _ => x.createAsyncPool rules poolSize

/-- A call of `coExecuteWorkflow`, and the state it is made in. -/
structure CoExecution where
  call : CompileCall
  workflow : Workflow
  parameters : List RuleParameter
  threadCount : ℕ
  start : CompileState (Thread 1)
  answers : Answers

namespace CoExecution

variable (x : CoExecution)

/-- The rules as validation leaves them. -/
def rules : List Rule :=
  if x.start.compiled then x.workflow.rules
  else (x.workflow.validate x.call.idOrder x.call.order).2.rules

/-- How `AsyncWorkflow::compile` may end: `Workflow::compile` throws, or the rules are compiled into
each engine of a pool. -/
inductive Compiles : Except String Unit → Prop
  | workflow {run : CompileRun 1} {e : String}
      (hreach : CompileRun.Reaches x.call x.rules (x.workflow.compile x.call x.start) run)
      (hend : run.EndsWith (.error e)) : Compiles (.error e)
  | pool {run : CompileRun 1} {outcome : Except String Unit} {s : CompileState (Thread 1)}
      (hreach : CompileRun.Reaches x.call x.rules (x.workflow.compile x.call x.start) run)
      (hend : run.EndsWith (.ok ()))
      (hsteps : Steps (CompileState.step x.call.lib none)
        (x.call.createAsyncPool x.rules (max x.threadCount 2), run.config.state)
        (.ret outcome, s)) :
      Compiles outcome

/-- What `AsyncWorkflow::executeParallelAsync` may return. Which tasks end with an exception is up
to the run. -/
def Executes (asyncResults : List AsyncRuleResult) : Prop :=
  ∃ levels, Loop.Returns asyncLevelStep (asyncLevelInit x.call.order x.rules) levels ∧
    ∃ c, (AsyncCall.mk levels x.threadCount x.parameters x.answers).Returned c ∧
      asyncResults.map AsyncRuleResult.result = c.state.allResults

/-- A run of the body: how the workflow was compiled, and if it was, what was executed. -/
structure Runs (compiled : Except String Unit) (asyncResults : List AsyncRuleResult) : Prop where
  compiles : x.Compiles compiled
  executes : compiled.isOk = true → x.Executes asyncResults

/-- How the body of `coExecuteWorkflow` ends. The exceptions of a compilation are no
`RuleException`s. -/
def outcome (compiled : Except String Unit) (asyncResults : List AsyncRuleResult) :
    Except Exn (List RuleResult) :=
  match compiled with
  | .error message => .error (.standard message)
  | .ok _ => takeResults asyncResults

/-- The body does not suspend itself. -/
def body (compiled : Except String Unit) (asyncResults : List AsyncRuleResult) :
    CoroutineBody (List RuleResult) :=
  .finish (outcome compiled asyncResults)

/-- The task that `coExecuteWorkflow` returns, wherever it has been moved and however often it has
been asked, reports how the body has ended. -/
def Reported (compiled : Except String Unit) (asyncResults : List AsyncRuleResult) : Prop :=
  ∀ (calls : List TaskCall) (i : ℕ) (f : Frame (List RuleResult)),
    (Tasks.created (body compiled asyncResults)).performAll calls i = some f →
      f.get.1 = outcome compiled asyncResults

theorem takeResults_isOk {asyncResults : List AsyncRuleResult} :
    (takeResults asyncResults).isOk = true ↔ ∀ ar ∈ asyncResults, ar.exception = none := by
  induction asyncResults with
  | nil => simp [takeResults, Except.isOk, Except.toBool]
  | cons ar rest ih =>
    rw [takeResults, List.forall_mem_cons, ← ih]
    rcases ar.exception with - | e
    · rcases takeResults rest with e | results <;> simp [Except.map, Except.isOk, Except.toBool]
    · simp [Except.isOk, Except.toBool]

theorem outcome_isOk {compiled : Except String Unit} {asyncResults : List AsyncRuleResult} :
    (outcome compiled asyncResults).isOk = true ↔
      compiled.isOk = true ∧ ∀ ar ∈ asyncResults, ar.exception = none := by
  rcases compiled with message | ⟨⟩
  · exact iff_of_false Bool.false_ne_true fun h ↦ absurd h.1 Bool.false_ne_true
  · exact takeResults_isOk.trans (and_iff_right rfl).symm

theorem reported_iff {compiled : Except String Unit} {asyncResults : List AsyncRuleResult} :
    Reported compiled asyncResults ↔
      compiled.isOk = true ∧ ∀ ar ∈ asyncResults, ar.exception = none := by
  rw [← outcome_isOk, ← Frame.get_eq_iff]
  refine ⟨fun h ↦ h [] 0 _ rfl, fun h calls i f hf ↦ ?_⟩
  rw [Tasks.eq_create_of_performAll hf, h]

/-! ### When everything compiles -/

section Compile

variable {x : CoExecution}

/-- The compilation of the workflow. -/
abbrev setting (x : CoExecution) : CompileSetting (Thread 1) :=
  ⟨x.call, x.rules, x.start⟩

/-- The workflow was compiled before, or it is valid. -/
def Valid (x : CoExecution) : Prop :=
  x.start.compiled = true ∨ (x.workflow.validate x.call.idOrder x.call.order).1 = .ok ()

/-- Nothing can happen to a call that has returned. -/
theorem eq_of_reaches_returned {rules : List Rule} {outcome : Except String Unit}
    {s : CompileState (Thread 1)} {run : CompileRun 1}
    (h : CompileRun.Reaches x.call rules (.caller (return outcome) s) run) :
    run = .caller (return outcome) s := by
  induction h with
  | refl => rfl
  | tail _ hstep ih =>
    subst ih
    rcases hstep with ⟨hstep⟩
    obtain ⟨op, next, a, hthread, -⟩ := hstep.alone (i := none) fun j hj ↦ by
      obtain ⟨i, rfl⟩ := Option.ne_none_iff_exists'.1 hj
      rfl
    cases hthread

/-- How `Workflow::compile` ends. -/
theorem workflow_compile_isOk (ht : x.setting.Proper) {run : CompileRun 1}
    {outcome : Except String Unit}
    (hreach : CompileRun.Reaches x.call x.rules (x.workflow.compile x.call x.start) run)
    (hend : run.EndsWith outcome) :
    x.setting.Inv run.config.state ∧ (outcome.isOk = true → x.Valid) ∧
      (outcome.isOk = false → ¬(x.Valid ∧ x.setting.AllCompile)) := by
  have hreturned {o : Except String Unit}
      (hcall : x.workflow.compile x.call x.start = .caller (return o) x.start) :
      run.config.state = x.start ∧ outcome = o := by
    rw [hcall] at hreach
    obtain rfl := eq_of_reaches_returned hreach
    exact ⟨rfl, (Program.ret.inj hend.2).symm⟩
  rcases hcompiled : x.start.compiled with - | -
  · rcases hvalidate : x.workflow.validate x.call.idOrder x.call.order with ⟨message | ⟨⟩, w⟩
    · obtain ⟨hstate, rfl⟩ := hreturned (o := .error message) (by
        rw [Workflow.compile, if_neg (by simp [hcompiled]), hvalidate])
      refine ⟨hstate ▸ ht.start_inv, fun h ↦ absurd h Bool.false_ne_true, fun _ h ↦ ?_⟩
      rcases h.1 with h | h
      · rw [hcompiled] at h
        cases h
      · rw [hvalidate] at h
        cases h
    · have hcall :
          x.workflow.compile x.call x.start = .caller (x.call.compileAll x.rules) x.start := by
        rw [Workflow.compile, if_neg (by simp [hcompiled]), rules, if_neg (by simp [hcompiled]),
          hvalidate]
      have hrun : CompileSetting.RunInv x.setting (.caller (x.call.compileAll x.rules) x.start) :=
        CompileSetting.runInv_caller (CompileSetting.compileAll_ensures ht ht.start_inv hcompiled)
      rw [hcall] at hreach
      have houtcome := (hrun.reaches ht Nat.one_pos hreach).outcome hend
      exact ⟨houtcome.inv, fun _ ↦ .inr (by rw [hvalidate]),
        fun hfailed h ↦ (houtcome.failed hfailed).1 h.2⟩
  · obtain ⟨hstate, rfl⟩ := hreturned (o := .ok ()) (by rw [Workflow.compile, if_pos hcompiled])
    exact ⟨hstate ▸ ht.start_inv, fun _ ↦ .inl hcompiled, fun h ↦ absurd h.symm Bool.false_ne_true⟩

end Compile

end CoExecution

namespace CompileSetting

variable {t : CompileSetting (Thread 1)} {s : CompileState (Thread 1)}

/-- The engines of the pool are new, so every rule is compiled into each of them. -/
theorem createAsyncPool_ensures (ht : t.Proper) (poolSize : ℕ) (hinv : t.Inv s) :
    Ensures (alone t.call.lib none)
      (fun outcome _ ↦ (outcome.isOk = true → 0 < poolSize → t.AllCompile) ∧
        (outcome.isOk = false → ¬t.AllCompile))
      (t.call.createAsyncPool t.rules poolSize) s := by
  induction poolSize generalizing s with
  | zero => exact ⟨fun _ h ↦ absurd h (Nat.lt_irrefl 0), fun h ↦ absurd h.symm Bool.false_ne_true⟩
  | succ poolSize ih =>
    refine ensures_perform_bind trivial fun clone s₁ h₁ ↦ ?_
    have hpre : (t.interface [] none).pre (.clone t.call.engine) s := rfl
    obtain ⟨hinv₁, -, -, hnew, hlt⟩ := step_facts ht hinv hpre h₁
    refine (ensures_bind _ _ _).2
      ((compileRules_alone ht hinv₁ (.inr ⟨hnew, hlt⟩)).mono fun result s₂ h₂ ↦ ?_)
    obtain ⟨⟨-, hok, hbad⟩, -, hinv₂⟩ := h₂
    rcases result with e | ⟨⟩
    · refine ⟨fun h ↦ absurd h Bool.false_ne_true, fun _ hall ↦ ?_⟩
      obtain ⟨r, hr, hfails⟩ := hbad rfl
      exact hfails (hall r hr)
    · have hall : t.AllCompile := fun r hr ↦ (hok rfl r hr).2 hnew
      exact (ih hinv₂).mono fun outcome _ h ↦ ⟨fun _ _ ↦ hall, h.2⟩

end CompileSetting

namespace CoExecution

variable {x : CoExecution}

/-- The workflow is compiled if it is valid and all texts load. -/
theorem Compiles.isOk_iff (ht : x.setting.Proper) {compiled : Except String Unit}
    (h : x.Compiles compiled) : compiled.isOk = true ↔ x.Valid ∧ x.setting.AllCompile := by
  cases h with
  | workflow hreach hend =>
    obtain ⟨-, -, hfailed⟩ := workflow_compile_isOk ht hreach hend
    exact iff_of_false Bool.false_ne_true (hfailed rfl)
  | pool hreach hend hsteps =>
    obtain ⟨hinv, hvalid, -⟩ := workflow_compile_isOk ht hreach hend
    obtain ⟨hok, hbad⟩ := Ensures.of_steps
      (I := CompileSetting.alone x.call.lib none)
      (CompileSetting.createAsyncPool_ensures ht (max x.threadCount 2) hinv) hsteps
    constructor
    · exact fun h ↦ ⟨hvalid rfl, hok h (by omega)⟩
    · intro h
      by_contra hnot
      exact hbad (by simpa using hnot) h.2

/-- A task of `coExecuteWorkflow` reports how the body has ended exactly if the workflow was
compiled and no task has ended with an exception. Under what callers promise, it was compiled if it
is valid and all texts of its rules load. -/
theorem coExecuteWorkflow_get_iff (x : CoExecution) {compiled : Except String Unit}
    {asyncResults : List AsyncRuleResult} (h : x.Runs compiled asyncResults) :
    (Reported compiled asyncResults ↔
      compiled.isOk = true ∧ ∀ ar ∈ asyncResults, ar.exception = none) ∧
    (x.setting.Proper → (Reported compiled asyncResults ↔
      (x.Valid ∧ x.setting.AllCompile) ∧ ∀ ar ∈ asyncResults, ar.exception = none)) := by
  refine ⟨reported_iff, fun ht ↦ ?_⟩
  rw [reported_iff, h.compiles.isOk_iff ht]

/-! ### Examples -/

/-- A call with a workflow of one rule, an engine that compiles everything, and two threads. -/
def single (rule : Rule) : CoExecution where
  call := TenRules.callWith 0
  workflow := { rules := [rule] }
  parameters := []
  threadCount := 2
  start := TenRules.start 1
  answers := fun _ _ ↦ True

/-- A rule that is not active. -/
def inactiveRule : Rule :=
  { id := 1, action := "x", isActive := false }

theorem inactive_proper : (single inactiveRule).setting.Proper where
  objects _ hp _ hq _ := (List.mem_singleton.1 hp).trans (List.mem_singleton.1 hq).symm
  unlocked _ := rfl
  engine_lt := Nat.zero_lt_two
  unborn _ _ _ := rfl
  noResets := rfl

theorem inactive_compiles : (single inactiveRule).Compiles (.ok ()) := by
  have hcall : (single inactiveRule).workflow.compile (TenRules.callWith 0) (TenRules.start 1) =
      .caller ((TenRules.callWith 0).compileAll (single inactiveRule).rules) (TenRules.start 1) :=
        rfl
  have hcompile : Guarded (CompileState.handle TenRules.lib 0 none) CompileState.Enabled
      ((TenRules.callWith 0).compileAll (single inactiveRule).rules) (TenRules.start 1) := by decide
  obtain ⟨run,
    (hreach : CompileRun.Reaches (TenRules.callWith 0) (single inactiveRule).rules _ run),
    hend, hstate⟩ := CompileRun.exists_run (x := TenRules.callWith 0) hcompile
  have hpool : Guarded (CompileState.handle TenRules.lib 0 none) CompileState.Enabled
      ((TenRules.callWith 0).createAsyncPool (single inactiveRule).rules 2)
      (((TenRules.callWith 0).compileAll (single inactiveRule).rules).run
        (CompileState.handle TenRules.lib 0 none) (TenRules.start 1)).2 := by decide
  obtain ⟨s, hsteps⟩ : ∃ s, Steps (CompileState.step TenRules.lib none)
      ((TenRules.callWith 0).createAsyncPool (single inactiveRule).rules 2, run.config.state)
      (.ret (.ok ()), s) := by
    rw [hstate]
    exact ⟨_, hpool.steps fun op s henabled ↦ ⟨henabled, 0, rfl⟩⟩
  exact .pool (hcall ▸ hreach) hend hsteps

theorem inactive_executes :
    (single inactiveRule).Executes
      [{ result := { ruleName := "", skipped := true, success := true } }] := by
  refine ⟨[(single inactiveRule).rules], ⟨3, rfl⟩, ?_⟩
  let call : AsyncCall := ⟨[(single inactiveRule).rules], 2, [], fun _ _ ↦ True⟩
  refine ⟨⟨call.task, call.startLevel call.start.state (single inactiveRule).rules⟩,
    ⟨.single (.other (.startLevel rfl fun i t ht _ ↦ ?_)), rfl, rfl⟩, rfl⟩
  cases ht

theorem inactive_reported :
    Reported (.ok ()) [{ result := { ruleName := "", skipped := true, success := true } }] ∧
      (single inactiveRule).Valid ∧ (single inactiveRule).setting.AllCompile := by
  have hiff := coExecuteWorkflow_get_iff (single inactiveRule)
    ⟨inactive_compiles, fun _ ↦ inactive_executes⟩
  have hreported := hiff.1.2 ⟨rfl, by simp⟩
  exact ⟨hreported, ((hiff.2 inactive_proper).1 hreported).1⟩

/-- A rule that depends on a rule that is not there. -/
def danglingRule : Rule :=
  { id := 1, action := "x", dependsOnRuleName := some "A" }

/-- The workflow is not valid, and its task reports that it was executed without any results. -/
theorem dangling_notReported :
    (single danglingRule).Runs (.error "Rule depends on non-existent rule: A") [] ∧
      (Frame.create (body (.error "Rule depends on non-existent rule: A") [])).get.1 = .ok [] ∧
      ¬Reported (.error "Rule depends on non-existent rule: A") [] := by
  let run : CompileRun 1 :=
    .caller (return .error "Rule depends on non-existent rule: A") (single danglingRule).start
  let x := single danglingRule
  have hreach : CompileRun.Reaches x.call x.rules (x.workflow.compile x.call x.start) run := .refl
  refine ⟨⟨.workflow hreach ⟨rfl, rfl⟩, fun h ↦ absurd h Bool.false_ne_true⟩, rfl, ?_⟩
  rw [reported_iff]
  exact fun h ↦ absurd h.1 Bool.false_ne_true

end CoExecution

end FastRules
