import FastRules.Rule.Semantics
import Mathlib.Data.List.Count

/-!
# What an execution records

Each execution of an active rule that is not answered from the cache makes one `recordExecution`.
The early return of the `try` block leaves out the rest: it makes no `recordExecutionTime` and
returns the metrics as they were initialised. So the metrics are complete unless a child fails or
the expression is false (`metrics_complete_iff`).
-/

namespace FastRules

open Program

/-! ### Records -/

/-- The request is a `recordExecution`. -/
def Op.recordsExecution : Op → Bool
  | recordExecution _ => true
  | _ => false

/-- The request is a `recordExecutionTime`. -/
def Op.recordsTime : Op → Bool
  | recordExecutionTime _ => true
  | _ => false

/-- The request is neither. -/
def Op.RecordsNothing (op : Op) : Prop :=
  op.recordsExecution = false ∧ op.recordsTime = false

namespace Trace

/-- How often `recordExecution` was called. -/
def executions (t : Trace) : ℕ :=
  t.countP fun e ↦ e.op.recordsExecution

/-- How often `recordExecutionTime` was called. -/
def executionTimes (t : Trace) : ℕ :=
  t.countP fun e ↦ e.op.recordsTime

theorem executions_append (t t' : Trace) : executions (t ++ t') = executions t + executions t' :=
  List.countP_append

theorem executionTimes_append (t t' : Trace) :
    executionTimes (t ++ t') = executionTimes t + executionTimes t' :=
  List.countP_append

/-- A program that records nothing. -/
theorem records_of_asks {α : Type} {p : RuleProgram α} (hp : Asks Op.RecordsNothing p)
    {t : Trace} {a : α} (h : p.Traces t a) : executions t = 0 ∧ executionTimes t = 0 := by
  have hnone := h.forall_mem hp
  refine ⟨List.countP_eq_zero.2 fun e he ↦ ?_, List.countP_eq_zero.2 fun e he ↦ ?_⟩
  · rw [(hnone e he).1]
    exact Bool.false_ne_true
  · rw [(hnone e he).2]
    exact Bool.false_ne_true

end Trace

open Trace

section Pieces

variable {engine : EnginePtr} {context : ContextPtr} {parameters : List RuleParameter} {r : Rule}

theorem Op.Evaluates.recordsNothing {op : Op} (h : op.Evaluates engine context r) :
    op.RecordsNothing := by
  cases op <;> first | exact ⟨rfl, rfl⟩ | exact absurd h id

theorem storeInCache_recordsNothing (result : RuleResult) :
    Asks Op.RecordsNothing (r.storeInCache parameters result) := by
  rw [Rule.storeInCache]
  split_ifs
  · exact ⟨⟨rfl, rfl⟩, fun _ ↦ trivial⟩
  · trivial

theorem lookupCache_recordsNothing : Asks Op.RecordsNothing (r.lookupCache parameters) := by
  rw [Rule.lookupCache]
  split_ifs
  · exact ⟨⟨rfl, rfl⟩, fun _ ↦ trivial⟩
  · trivial

theorem publishChildren_recordsNothing : ∀ (children : List Rule) (results : List RuleResult),
    Asks Op.RecordsNothing (Rule.publishChildren context children results)
  | [], _ => trivial
  | _ :: _, [] => trivial
  | _ :: children, _ :: results =>
    ⟨⟨rfl, rfl⟩, fun _ ↦ publishChildren_recordsNothing children results⟩

theorem checkRateLimit_recordsNothing : Asks Op.RecordsNothing r.checkRateLimit := by
  refine (asks_request.2 ⟨rfl, rfl⟩).bind fun byId ↦ Asks.bind ?_ fun _ ↦ asks_pure _ _
  rw [Rule.allowedByName]
  split_ifs
  · exact asks_request.2 ⟨rfl, rfl⟩
  · exact asks_pure _ _

/-- The `try` block records nothing before it ends, given the results of the children. -/
theorem attempt_recordsNothing (results : List RuleResult) :
    Asks Op.RecordsNothing (r.attempt engine context parameters (pure results)) := by
  refine checkRateLimit_recordsNothing.bind fun allowed ↦ ?_
  rcases allowed with e | -
  · trivial
  · dsimp only
    split
    · trivial
    · refine Asks.bind (asks_pure _ _) fun results ↦
        (publishChildren_recordsNothing r.childRules results).bind fun _ ↦ ?_
      split
      · trivial
      · exact ((evaluate_asks engine context parameters r).mono
          fun _ ↦ Op.Evaluates.recordsNothing).bind fun _ ↦ trivial

end Pieces

/-! ### How an execution ends -/

/-- The early return. -/
def Rule.Ending.IsFailed : Rule.Ending → Prop
  | failed _ => True
  | _ => False

/-- One execution and one execution time are recorded, and the metrics of the result tell of one
evaluation and whether it failed. -/
structure MetricsComplete (own : Trace) (a : RuleResult) : Prop where
  executions : executions own = 1
  executionTimes : executionTimes own = 1
  evaluationCount : a.metrics.evaluationCount = 1
  failureCount : a.metrics.failureCount = if a.isSuccess then 0 else 1

section Settle

variable {context : ContextPtr} {parameters : List RuleParameter} {r : Rule} {startTime : Time}
  {result a : RuleResult} {t : Trace}

theorem handleException_records {e : Exn} {message : String}
    (h : (r.handleException context e).Traces t message) :
    executions t = 1 ∧ executionTimes t = 0 := by
  cases e <;>
  · obtain ⟨_, _, rfl, h₁⟩ := traces_perform_bind.1 h
    obtain ⟨_, _, rfl, h₂⟩ := traces_perform_bind.1 h₁
    obtain ⟨rfl, -⟩ := traces_pure.1 h₂
    exact ⟨rfl, rfl⟩

theorem conclude_records (h : (r.conclude context parameters startTime result).Traces t a) :
    executions t = 0 ∧ executionTimes t = 1 ∧ a.metrics.evaluationCount = 1 ∧
      a.metrics.failureCount = (if result.success then 0 else 1) ∧
      a.isSuccess = result.isSuccess := by
  obtain ⟨endTime, _, rfl, h₁⟩ := traces_perform_bind.1 h
  obtain ⟨_, _, rfl, h₂⟩ := traces_perform_bind.1 h₁
  obtain ⟨_, _, rfl, h₃⟩ := traces_perform_bind.1 h₂
  obtain ⟨store, _, _, rfl, hstore, h₄⟩ := traces_bind.1 h₃
  obtain ⟨rfl, rfl⟩ := traces_pure.1 h₄
  obtain ⟨hexecutions, htimes⟩ := records_of_asks (storeInCache_recordsNothing _) hstore
  rw [List.append_nil]
  refine ⟨hexecutions, ?_, rfl, rfl, rfl⟩
  show executionTimes ([_, _, _] ++ store) = 1
  rw [executionTimes_append, htimes]
  rfl

/-- However the `try` block ends, one execution is recorded. The metrics are completed unless it was
left by the early return. -/
theorem settle_complete_iff {ending : Rule.Ending}
    (hresult : result.exception = none ∧ result.skipped = false)
    (h : (r.settle context parameters startTime result ending).Traces t a) :
    MetricsComplete t a ↔ ¬ending.IsFailed := by
  cases ending with
  | failed message =>
    refine iff_of_false ?_ (not_not.2 trivial)
    obtain ⟨_, _, rfl, h₁⟩ := traces_perform_bind.1 h
    obtain ⟨store, _, _, rfl, hstore, h₂⟩ := traces_bind.1 h₁
    obtain ⟨_, _, rfl, h₃⟩ := traces_perform_bind.1 h₂
    obtain ⟨rfl, rfl⟩ := traces_pure.1 h₃
    -- the early return: the execution is recorded, its time is not
    have htimes := (records_of_asks (storeInCache_recordsNothing _) hstore).2
    rintro ⟨-, hone, -, -⟩
    change executionTimes (([_] : Trace) ++ (store ++ [_])) = 1 at hone
    rw [executionTimes_append, executionTimes_append, htimes] at hone
    exact Nat.zero_ne_one hone
  | thrown e =>
    refine iff_of_true ?_ id
    obtain ⟨caught, rest, message, rfl, hcaught, hrest⟩ := traces_bind.1 h
    obtain ⟨hone, hnone⟩ := handleException_records hcaught
    obtain ⟨hexecutions, htimes, hcount, hfailures, hsuccess⟩ := conclude_records hrest
    refine ⟨?_, ?_, hcount, ?_⟩
    · rw [executions_append, hone, hexecutions]
    · rw [executionTimes_append, hnone, htimes]
    · rw [hfailures, hsuccess]
      rfl
  | completed =>
    refine iff_of_true ?_ id
    obtain ⟨_, rest, rfl, hrest⟩ := traces_perform_bind.1 h
    obtain ⟨hexecutions, htimes, hcount, hfailures, hsuccess⟩ := conclude_records hrest
    refine ⟨?_, ?_, hcount, ?_⟩
    · show executions ([_] ++ rest) = 1
      rw [executions_append, hexecutions]
      rfl
    · show executionTimes ([_] ++ rest) = 1
      rw [executionTimes_append, htimes]
      rfl
    · rw [hfailures, hsuccess]
      simp [RuleResult.isSuccess, hresult]

end Settle

/-! ### How the `try` block ends -/

/-- The request asks the limiter. -/
def Op.AsksLimiter : Op → Prop
  | isAllowed _ _ => True
  | _ => False

/-- The request begins an expression. -/
def Op.beginsExpression : Op → Bool
  | beginExpression _ _ _ => true
  | _ => false

/-- The limiter answers a question with no. -/
def Denied (t : Trace) : Prop :=
  ∃ limiter key, (⟨.isAllowed limiter key, false⟩ : Exchange Op Op.Ans) ∈ t

theorem denied_append {t t' : Trace} : Denied (t ++ t') ↔ Denied t ∨ Denied t' := by
  simp only [Denied, List.mem_append, exists_or]

theorem not_denied_of_forall {t : Trace} (h : ∀ e ∈ t, ¬e.op.AsksLimiter) : ¬Denied t := by
  rintro ⟨limiter, key, hmem⟩
  exact h _ hmem trivial

section OpClasses

variable {op : Op} {engine : EnginePtr} {context : ContextPtr} {r : Rule}

theorem Op.UsesClockOnly.not_asksLimiter (h : op.UsesClockOnly) : ¬op.AsksLimiter := by
  cases op <;> first | exact absurd h id | exact id

theorem Op.UsesClockOnly.not_beginsExpression (h : op.UsesClockOnly) :
    op.beginsExpression = false := by
  cases op <;> first | exact absurd h id | rfl

theorem Op.Evaluates.not_asksLimiter (h : op.Evaluates engine context r) : ¬op.AsksLimiter := by
  cases op <;> first | exact absurd h id | exact id

theorem Op.RunsScript.not_beginsExpression (h : op.RunsScript context) :
    op.beginsExpression = false := by
  cases op <;> first | exact absurd h id | rfl

theorem Op.AsksLimiter.not_beginsExpression (h : op.AsksLimiter) : op.beginsExpression = false := by
  cases op <;> first | exact absurd h id | rfl

end OpClasses

section Attempt

variable {engine : EnginePtr} {context : ContextPtr} {parameters : List RuleParameter} {r : Rule}
  {t : Trace}

/-- The check fails exactly if a question is answered with no. -/
theorem checkRateLimit_denied_iff {x : Except Exn Unit} (h : r.checkRateLimit.Traces t x) :
    Denied t ↔ ∃ e, x = .error e := by
  obtain ⟨byId, _, rfl, h₁⟩ := traces_perform_bind.1 h
  obtain ⟨asked, _, allowed, rfl, hname, h₂⟩ := traces_bind.1 h₁
  obtain ⟨rfl, rfl⟩ := traces_pure.1 h₂
  rw [Rule.allowedByName] at hname
  split_ifs at hname with hask
  · obtain ⟨answer, _, rfl, h₃⟩ := traces_ask.1 hname
    obtain ⟨rfl, rfl⟩ := traces_ret.1 h₃
    have hbyId : byId = true := by
      simp only [Bool.and_eq_true] at hask
      exact hask.1.1
    rcases answer with - | - <;> simp [Denied, hbyId]
  · obtain ⟨rfl, rfl⟩ := traces_pure.1 hname
    rcases byId with - | - <;> simp [Denied]

theorem checkRateLimit_asksLimiter : Asks Op.AsksLimiter r.checkRateLimit := by
  refine (asks_request.2 trivial).bind fun byId ↦ Asks.bind ?_ fun _ ↦ asks_pure _ _
  rw [Rule.allowedByName]
  split_ifs
  · exact asks_request.2 trivial
  · exact asks_pure _ _

theorem publishChildren_usesClockOnly : ∀ (children : List Rule) (results : List RuleResult),
    Asks Op.UsesClockOnly (Rule.publishChildren context children results)
  | [], _ => trivial
  | _ :: _, [] => trivial
  | _ :: children, _ :: results => ⟨trivial, fun _ ↦ publishChildren_usesClockOnly children results⟩

/-- An evaluation begins the expression once, at the start. -/
theorem evaluateExpression_begins {outcome : Except Exn Bool}
    (h : (r.evaluateExpression engine context parameters).Traces t outcome) :
    ∃ answer rest, t = ⟨.beginExpression engine r parameters, answer⟩ :: rest ∧
      ∀ e ∈ rest, e.op.beginsExpression = false := by
  obtain ⟨answer, rest, rfl, hrest⟩ := traces_perform_bind.1 h
  refine ⟨answer, rest, rfl, ?_⟩
  rcases answer with e | - | script
  · obtain ⟨rfl, -⟩ := traces_pure.1 hrest
    exact fun e he ↦ absurd he List.not_mem_nil
  · obtain ⟨rfl, -⟩ := traces_pure.1 hrest
    exact fun e he ↦ absurd he List.not_mem_nil
  · exact hrest.forall_mem ((evaluateScript_asks engine context _ _ script).mono
      fun _ ↦ Op.RunsScript.not_beginsExpression)

/-- Where one evaluation begins and no other, there is one outcome. -/
theorem evaluateExpression_unique {before after before' t' after' : Trace}
    {outcome outcome' : Except Exn Bool}
    (h : (r.evaluateExpression engine context parameters).Traces t outcome)
    (h' : (r.evaluateExpression engine context parameters).Traces t' outcome')
    (hbefore : ∀ e ∈ before, e.op.beginsExpression = false)
    (hafter : ∀ e ∈ after, e.op.beginsExpression = false)
    (heq : before ++ (t ++ after) = before' ++ (t' ++ after')) : outcome = outcome' := by
  obtain ⟨answer, rest, rfl, hrest⟩ := evaluateExpression_begins h
  obtain ⟨answer', rest', rfl, -⟩ := evaluateExpression_begins h'
  have hnot {u : Trace} (hu : ∀ e ∈ u, e.op.beginsExpression = false) :
      (⟨.beginExpression engine r parameters, answer'⟩ : Exchange Op Op.Ans) ∉ u :=
    fun hmem ↦ Bool.false_ne_true (hu _ hmem).symm
  obtain ⟨-, hfirst, htail⟩ := (List.append_cons_inj_of_notMem (hnot hbefore)
    (hnot (List.forall_mem_append.2 ⟨hrest, hafter⟩))).1 heq
  have hrests : ⟨.beginExpression engine r parameters, answer⟩ :: rest ++ after =
      ⟨.beginExpression engine r parameters, answer'⟩ :: rest' ++ after' := by
    rw [List.cons_append, List.cons_append, hfirst]
    exact congrArg _ htail
  exact (h.eq_of_append_eq h' hrests).2.1

theorem performAction_not_beginsExpression :
    Asks (fun op ↦ op.beginsExpression = false) (r.performAction engine context parameters) := by
  rw [Rule.performAction]
  split_ifs
  · have hbegin : Asks (fun op ↦ op.beginsExpression = false)
        (request (.beginAction engine r parameters)) := ⟨rfl, fun _ ↦ trivial⟩
    refine hbegin.bind fun script ↦ ?_
    rcases script with e | - | script
    · trivial
    · trivial
    · exact (evaluateScript_asks engine context _ _ script).mono
        fun _ ↦ Op.RunsScript.not_beginsExpression
  · exact asks_pure _ _

variable (engine context parameters r)

/-- The limiter allows the execution, the parameters have their types, and then a child has failed
or the expression is evaluated to false. -/
structure Rule.ReturnsEarly (own : Trace) (results : List RuleResult) : Prop where
  allowed : ¬Denied own
  valid : ParameterValidator.validateTypes parameters = .ok ()
  failed : (∃ x ∈ results, x.isSuccess = false) ∨
    ∃ before evaluation after, own = before ++ (evaluation ++ after) ∧
      (r.evaluateExpression engine context parameters).Traces evaluation (.ok false)

variable {engine context parameters r}

/-- The two Lua steps end in the early return exactly if the expression is false. -/
theorem evaluate_isFailed_iff {ending : Rule.Ending} {before after : Trace}
    (h : (r.evaluate engine context parameters).Traces t ending)
    (hbefore : ∀ e ∈ before, e.op.beginsExpression = false)
    (hafter : ∀ e ∈ after, e.op.beginsExpression = false) :
    ending.IsFailed ↔ ∃ before' evaluation after', before ++ (t ++ after) =
        before' ++ (evaluation ++ after') ∧
      (r.evaluateExpression engine context parameters).Traces evaluation (.ok false) := by
  obtain ⟨evaluation, rest, passed, rfl, hcheck, hrest⟩ := traces_bind.1 h
  -- after the expression no other one is evaluated, and only `false` ends in the early return
  have hstep :
      (∀ e ∈ rest, e.op.beginsExpression = false) ∧ (ending.IsFailed ↔ passed = .ok false) := by
    rcases passed with e | - | -
    · obtain ⟨rfl, rfl⟩ := traces_pure.1 hrest
      exact ⟨fun e he ↦ absurd he List.not_mem_nil, iff_of_false id (by simp)⟩
    · obtain ⟨rfl, rfl⟩ := traces_pure.1 hrest
      exact ⟨fun e he ↦ absurd he List.not_mem_nil, iff_of_true trivial rfl⟩
    · obtain ⟨action, _, outcome, rfl, hperform, hreturn⟩ := traces_bind.1 hrest
      have haction := hperform.forall_mem performAction_not_beginsExpression
      rcases outcome with e | truthy <;> obtain ⟨rfl, rfl⟩ := traces_pure.1 hreturn <;>
        rw [List.append_nil] <;> exact ⟨haction, iff_of_false id (by simp)⟩
  obtain ⟨haction, hfailed⟩ := hstep
  rw [hfailed]
  rcases checkExpression_traces hcheck with ⟨-, rfl, rfl⟩ | ⟨-, hevaluate⟩
  · -- a rule without an expression: nothing in the trace begins an evaluation
    refine iff_of_false (by simp) ?_
    rintro ⟨before', evaluation', after', heq, hfalse⟩
    obtain ⟨answer, rest', rfl, -⟩ := evaluateExpression_begins hfalse
    have hmem : (⟨.beginExpression engine r parameters, answer⟩ : Exchange Op Op.Ans) ∈
        before ++ ([] ++ rest ++ after) := by
      rw [heq]
      simp
    have hnone : ∀ e ∈ before ++ ([] ++ rest ++ after), e.op.beginsExpression = false :=
      List.forall_mem_append.2 ⟨hbefore, List.forall_mem_append.2 ⟨haction, hafter⟩⟩
    exact Bool.false_ne_true (hnone _ hmem).symm
  · constructor
    · rintro rfl
      exact ⟨before, evaluation, rest ++ after, by simp, hevaluate⟩
    · rintro ⟨before', evaluation', after', heq, hfalse⟩
      rw [List.append_assoc] at heq
      exact evaluateExpression_unique hevaluate hfalse hbefore
        (List.forall_mem_append.2 ⟨haction, hafter⟩) heq

/-- The `try` block is left by the early return exactly under that condition. -/
theorem attempt_isFailed_iff {results : List RuleResult} {x : List RuleResult × Rule.Ending}
    {before after : Trace}
    (h : (r.attempt engine context parameters (pure results)).Traces t x)
    (hbefore : ∀ e ∈ before, e.op.UsesClockOnly) (hafter : ∀ e ∈ after, e.op.UsesClockOnly) :
    x.2.IsFailed ↔
      r.ReturnsEarly engine context parameters (before ++ (t ++ after)) results := by
  obtain ⟨check, rest, allowed, rfl, hcheck, h₁⟩ := traces_bind.1 h
  have hdenied := checkRateLimit_denied_iff hcheck
  -- the limiter has refused
  rcases allowed with e | ⟨⟩
  · obtain ⟨rfl, rfl⟩ := traces_pure.1 h₁
    refine iff_of_false id fun hearly ↦ hearly.allowed ?_
    rw [denied_append, denied_append, denied_append]
    exact .inr (.inl (.inl (hdenied.2 ⟨e, rfl⟩)))
  dsimp only at h₁
  split at h₁
  · -- a parameter does not have its type: an exception, which is no early return
    rename_i message hinvalid
    obtain ⟨rfl, rfl⟩ := traces_pure.1 h₁
    refine iff_of_false id fun hearly ↦ ?_
    exact absurd (hinvalid.symm.trans hearly.valid) (by simp)
  rename_i hvalid
  obtain ⟨_, _, _, rfl, hresults, h₂⟩ := traces_bind.1 h₁
  obtain ⟨rfl, rfl⟩ := traces_pure.1 hresults
  obtain ⟨publishing, _, _, rfl, hpublish, h₃⟩ := traces_bind.1 h₂
  have hpublishing := hpublish.forall_mem (publishChildren_usesClockOnly r.childRules results)
  -- what comes before and after does not ask the limiter, so it cannot be what was denied
  have hquiet {u : Trace} (hu : ∀ e ∈ u, e.op.UsesClockOnly) : ¬Denied u :=
    not_denied_of_forall fun e he ↦ (hu e he).not_asksLimiter
  have hchecked : ¬Denied check := by
    rw [hdenied]
    simp
  split at h₃
  · -- a child has failed
    rename_i c hfind
    obtain ⟨rfl, rfl⟩ := traces_pure.1 h₃
    refine iff_of_true trivial ⟨?_, hvalid, .inl ⟨c, List.mem_of_find?_eq_some hfind, ?_⟩⟩
    · simp [denied_append, hquiet hbefore, hquiet hafter, hquiet hpublishing, hchecked]
    · simpa using List.find?_some hfind
  · rename_i hfind
    obtain ⟨evaluation, _, ending, rfl, hevaluate, hreturn⟩ := traces_bind.1 h₃
    obtain ⟨rfl, rfl⟩ := traces_pure.1 hreturn
    have hallowed : ¬Denied evaluation := not_denied_of_forall
      (hevaluate.forall_mem ((evaluate_asks engine context parameters r).mono
        fun _ ↦ Op.Evaluates.not_asksLimiter))
    have hall : ¬∃ x ∈ results, x.isSuccess = false := by
      simpa using hfind
    -- the evaluation of the expression is the first one in the trace
    have hbegun : ∀ e ∈ before ++ (check ++ publishing), e.op.beginsExpression = false := by
      refine List.forall_mem_append.2 ⟨fun e he ↦ (hbefore e he).not_beginsExpression,
        List.forall_mem_append.2 ⟨fun e he ↦ ?_, fun e he ↦
          (hpublishing e he).not_beginsExpression⟩⟩
      exact (hcheck.forall_mem checkRateLimit_asksLimiter e he).not_beginsExpression
    refine (evaluate_isFailed_iff hevaluate hbegun
      fun e he ↦ (hafter e he).not_beginsExpression).trans ⟨fun hfalse ↦ ?_, fun hearly ↦ ?_⟩
    · refine ⟨?_, hvalid, .inr (by simpa [List.append_assoc] using hfalse)⟩
      simp [denied_append, hquiet hbefore, hquiet hafter, hquiet hpublishing, hchecked, hallowed]
    · simpa [List.append_assoc] using hearly.failed.resolve_left hall

end Attempt

/-! ### The rule itself and its children -/

section Own

variable (engine : EnginePtr) (context : ContextPtr) (parameters : List RuleParameter) (r : Rule)

/-- The requests `t` of an execution are its own and, in one place, those of the executions of its
children. Its own are those it would make if the executions of the children were replaced by their
results. -/
structure Rule.SplitsInto (t own below : Trace) (results : List RuleResult) (a : RuleResult) :
    Prop where
  inserted : ∃ before after, own = before ++ after ∧ t = before ++ (below ++ after)
  own : (r.executeWith engine context parameters (pure results)).Traces own a
  below : below = [] ∨ (executeRules engine context parameters r.childRules).Traces below results

variable {engine context parameters r}

theorem attempt_splits {p : RuleProgram (List RuleResult)} {t : Trace}
    {x : List RuleResult × Rule.Ending} (h : (r.attempt engine context parameters p).Traces t x) :
    ∃ before below after results, t = before ++ (below ++ after) ∧
      (below = [] ∨ p.Traces below results) ∧
      (r.attempt engine context parameters (pure results)).Traces (before ++ after) x := by
  obtain ⟨check, rest, allowed, rfl, hcheck, h₁⟩ := traces_bind.1 h
  rcases allowed with e | ⟨⟩
  · exact ⟨check, [], rest, [], rfl, .inl rfl, traces_bind.2 ⟨check, rest, _, rfl, hcheck, h₁⟩⟩
  dsimp only at h₁
  split at h₁
  · rename_i message hinvalid
    refine ⟨check, [], rest, [], rfl, .inl rfl, traces_bind.2 ⟨check, rest, _, rfl, hcheck, ?_⟩⟩
    dsimp only
    rwa [hinvalid]
  · rename_i hvalid
    obtain ⟨below, after, results, rfl, hbelow, h₂⟩ := traces_bind.1 h₁
    refine ⟨check, below, after, results, rfl, .inr hbelow,
      traces_bind.2 ⟨check, after, _, rfl, hcheck, ?_⟩⟩
    dsimp only
    rw [hvalid]
    exact traces_bind.2 ⟨[], after, results, rfl, .ret results, h₂⟩

theorem executeWith_splits {p : RuleProgram (List RuleResult)} {t : Trace} {a : RuleResult}
    (h : (r.executeWith engine context parameters p).Traces t a) :
    ∃ before below after results, t = before ++ (below ++ after) ∧
      (below = [] ∨ p.Traces below results) ∧
      (r.executeWith engine context parameters (pure results)).Traces (before ++ after) a := by
  obtain ⟨lookup, rest, cached, rfl, hlookup, h₁⟩ := traces_bind.1 h
  rcases cached with - | result
  · obtain ⟨executedAt, rest, rfl, h₂⟩ := traces_perform_bind.1 h₁
    dsimp only at h₂
    split_ifs at h₂ with hactive
    · obtain ⟨startTime, rest, rfl, h₃⟩ := traces_perform_bind.1 h₂
      obtain ⟨trying, settling, x, rfl, hattempt, hsettle⟩ := traces_bind.1 h₃
      -- the `try` block is where the children are executed
      obtain ⟨before, below, after, results, rfl, hbelow, hown⟩ := attempt_splits hattempt
      refine ⟨lookup ++ ([⟨.now, executedAt⟩, ⟨.now, startTime⟩] ++ before), below,
        after ++ settling,
        results, by simp, hbelow, ?_⟩
      have hall : (r.executeWith engine context parameters (pure results)).Traces
          (lookup ++ (⟨.now, executedAt⟩ :: ⟨.now, startTime⟩ :: ((before ++ after) ++ settling)))
          a := by
        refine traces_bind.2 ⟨lookup, _, _, rfl, hlookup, traces_perform_bind.2 ⟨_, _, rfl, ?_⟩⟩
        dsimp only
        rw [if_pos hactive]
        exact traces_perform_bind.2 ⟨_, _, rfl, traces_bind.2 ⟨_, _, x, rfl, hown, hsettle⟩⟩
      simpa using hall
    · refine ⟨lookup ++ ⟨.now, executedAt⟩ :: rest, [], [], [], by simp, .inl rfl, ?_⟩
      rw [List.append_nil]
      refine traces_bind.2 ⟨lookup, _, _, rfl, hlookup, traces_perform_bind.2 ⟨_, _, rfl, ?_⟩⟩
      dsimp only
      rwa [if_neg hactive]
  · refine ⟨lookup ++ rest, [], [], [], by simp, .inl rfl, ?_⟩
    rw [List.append_nil]
    exact traces_bind.2 ⟨lookup, rest, _, rfl, hlookup, h₁⟩

/-- Every execution splits like this. -/
theorem execute_splitsInto {t : Trace} {a : RuleResult}
    (h : (r.execute engine context parameters).Traces t a) :
    ∃ own below results, r.SplitsInto engine context parameters t own below results a := by
  rw [Rule.execute_eq] at h
  obtain ⟨before, below, after, results, ht, hbelow, hown⟩ := executeWith_splits h
  exact ⟨before ++ after, below, results, ⟨before, after, rfl, ht⟩, hown, hbelow⟩

/-- The cache answers with a result. -/
def isHit : Exchange Op Op.Ans → Bool
  | ⟨.lookupCache _ _, some _⟩ => true
  | _ => false

/-- The execution is answered from the cache. -/
def CacheHit (own : Trace) : Prop :=
  ∃ e ∈ own, isHit e = true

/-- The requests of the rule itself, without a cache hit: what comes before the `try` block, the
block, and what comes after it. -/
theorem executeWith_complete_iff {results : List RuleResult} {own : Trace} {a : RuleResult}
    (hactive : r.isActive = true)
    (h : (r.executeWith engine context parameters (pure results)).Traces own a)
    (hmiss : ¬CacheHit own) :
    MetricsComplete own a ↔ ¬r.ReturnsEarly engine context parameters own results := by
  obtain ⟨lookup, rest, cached, rfl, hlookup, h₁⟩ := traces_bind.1 h
  have hcached : cached = none := by
    rw [Rule.lookupCache] at hlookup
    split_ifs at hlookup
    · obtain ⟨answer, _, rfl, hanswer⟩ := traces_ask.1 hlookup
      obtain ⟨rfl, rfl⟩ := traces_ret.1 hanswer
      rcases answer with - | result
      · rfl
      · exact absurd ⟨_, List.mem_append_left _ List.mem_cons_self, rfl⟩ hmiss
    · exact (traces_pure.1 hlookup).2.symm
  subst hcached
  obtain ⟨executedAt, _, rfl, h₂⟩ := traces_perform_bind.1 h₁
  dsimp only at h₂
  rw [if_pos hactive] at h₂
  obtain ⟨startTime, _, rfl, h₃⟩ := traces_perform_bind.1 h₂
  obtain ⟨trying, settling, x, rfl, hattempt, hsettle⟩ := traces_bind.1 h₃
  have hbegun : ∀ e ∈ lookup ++ [⟨.now, executedAt⟩, ⟨.now, startTime⟩], e.op.UsesClockOnly := by
    refine List.forall_mem_append.2
      ⟨hlookup.forall_mem (lookupCache_usesClockOnly parameters r), fun e he ↦ ?_⟩
    simp only [List.mem_cons, List.not_mem_nil, or_false] at he
    rcases he with rfl | rfl <;> trivial
  have hsettling := hsettle.forall_mem (settle_usesClockOnly context parameters r startTime _ x.2)
  have hown : lookup ++ (⟨.now, executedAt⟩ :: ⟨.now, startTime⟩ :: (trying ++ settling)) =
      (lookup ++ [⟨.now, executedAt⟩, ⟨.now, startTime⟩]) ++ (trying ++ settling) := by
    simp
  -- nothing is recorded before the `try` block has ended
  obtain ⟨hlookupNone, hlookupNoTime⟩ := records_of_asks lookupCache_recordsNothing hlookup
  obtain ⟨htryingNone, htryingNoTime⟩ := records_of_asks (attempt_recordsNothing results) hattempt
  have hexecutions : executions ((lookup ++ [⟨.now, executedAt⟩, ⟨.now, startTime⟩]) ++
      (trying ++ settling)) = executions settling := by
    rw [executions_append, executions_append, executions_append, hlookupNone, htryingNone]
    simp [executions, Op.recordsExecution]
  have htimes : executionTimes ((lookup ++ [⟨.now, executedAt⟩, ⟨.now, startTime⟩]) ++
      (trying ++ settling)) = executionTimes settling := by
    rw [executionTimes_append, executionTimes_append, executionTimes_append, hlookupNoTime,
      htryingNoTime]
    simp [executionTimes, Op.recordsTime]
  rw [hown, ← attempt_isFailed_iff hattempt hbegun hsettling, ← settle_complete_iff ⟨rfl, rfl⟩
    hsettle]
  constructor
  · rintro ⟨hone, htime, hcount, hfailures⟩
    exact ⟨hexecutions ▸ hone, htimes ▸ htime, hcount, hfailures⟩
  · rintro ⟨hone, htime, hcount, hfailures⟩
    exact ⟨hexecutions.trans hone, htimes.trans htime, hcount, hfailures⟩

/-- **The metrics are complete** exactly if the execution does not end in the early return: an
execution of an active rule splits into its own requests and those of its children's executions, and
without a cache hit it records one execution and one execution time of its own and returns complete
metrics, unless the limiter allows it, the parameters have their types, and a child fails or the
expression is false. -/
theorem metrics_complete_iff {t : Trace} {a : RuleResult} (hactive : r.isActive = true)
    (h : (r.execute engine context parameters).Traces t a) :
    (∃ own below results, r.SplitsInto engine context parameters t own below results a) ∧
      ∀ own below results, r.SplitsInto engine context parameters t own below results a →
        ¬CacheHit own →
        (MetricsComplete own a ↔ ¬r.ReturnsEarly engine context parameters own results) :=
  ⟨execute_splitsInto h, fun _ _ _ hsplit hmiss ↦
    executeWith_complete_iff hactive hsplit.own hmiss⟩

end Own

namespace SilentFailure

/-- A rule without an expression, which passes. -/
def silent : Rule :=
  { id := 1, name := "A" }

/-- A rule with one. -/
def failing : Rule :=
  { id := 1, name := "A", expression := "false" }

/-- Every expression evaluates to false. -/
def everythingFails : Environment Unit :=
  .ofScripts fun _ ↦ some (.ret (.ok false))

/-- What the execution of the rule without an expression requests. -/
def silentTrace : Trace :=
  exchanges everythingFails.handle (silent.execute 0 0 []) { env := () }

theorem silent_complete : MetricsComplete silentTrace
    ((silent.execute 0 0 []).run everythingFails.handle { env := () }).1 := by
  have ht : (silent.execute 0 0 []).Traces silentTrace _ :=
    traces_exchanges everythingFails.handle _ _
  have hsplit : silent.SplitsInto 0 0 [] silentTrace silentTrace [] [] _ :=
    ⟨⟨[], silentTrace, rfl, rfl⟩, ht, .inl rfl⟩
  have hmiss : ¬CacheHit silentTrace := by
    rintro ⟨e, he, hhit⟩
    revert e
    decide
  refine ((metrics_complete_iff rfl ht).2 silentTrace [] [] hsplit hmiss).2 ?_
  rintro ⟨-, -, hchild | ⟨before, evaluation, after, heq, hfalse⟩⟩
  · simp at hchild
  · have hnone : ∀ e ∈ silentTrace, e.op.beginsExpression = false := by decide
    obtain ⟨answer, rest, rfl, -⟩ := evaluateExpression_begins hfalse
    rw [heq] at hnone
    exact Bool.false_ne_true (hnone ⟨.beginExpression 0 silent [], answer⟩ (by simp)).symm

/-- An expression that is false: one execution is recorded but no execution time, and the metrics of
the result tell of no evaluation. -/
theorem failing_incomplete :
    ∃ t a, (failing.execute 0 0 []).Traces t a ∧ failing.isActive = true ∧ ¬CacheHit t ∧
      executions t = 1 ∧ executionTimes t = 0 ∧ a.isSuccess = false ∧ a.metrics = {} := by
  refine ⟨_, _, traces_exchanges everythingFails.handle (failing.execute 0 0 []) { env := () },
    rfl, ?_,
    rfl, rfl, rfl, rfl⟩
  rintro ⟨e, he, hhit⟩
  revert e
  decide

end SilentFailure

end FastRules
