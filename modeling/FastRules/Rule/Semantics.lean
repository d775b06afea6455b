import FastRules.Foundations.Trace
import FastRules.Rule.CacheKey

/-!
# The semantics of a rule tree

What an execution of a rule tree may look like (`Rule.Execution`): the children one after the other
in list order, then the expression if all of them were a success, then the action if the expression
passed. Every run of `Rule::execute` looks like this, whatever the caches, the limiter, the clock
and the engine answer and whatever other threads do between two requests (`execute_execution`).

Whether a result is a success then tells whether every result below it is: a result is only a
success if the children were. Results that come out of a cache are the exception to this argument,
so it is an invariant of the caches (`agreement`), kept by any number of executions that share them.
-/

namespace FastRules

open Program

/-! ### Results -/

/-- The result is a success exactly if it and every result below it are. -/
def RuleResult.Agrees (a : RuleResult) : Prop :=
  a.isSuccess = a.isFullySuccessful

theorem RuleResult.agrees_of_failure {a : RuleResult} (h : a.isSuccess = false) : a.Agrees := by
  rw [Agrees, isFullySuccessful_eq, h, Bool.false_and]

theorem RuleResult.agrees_of_children {a : RuleResult}
    (h : ∀ x ∈ a.childResults, x.isSuccess = true ∧ x.Agrees) : a.Agrees := by
  have hall : allFullySuccessful a.childResults = true :=
    allFullySuccessful_iff.2 fun x hx ↦ (h x hx).2 ▸ (h x hx).1
  rw [Agrees, isFullySuccessful_eq, hall, Bool.and_true]

section Answers

variable (c : ContextPtr) (parameters : List RuleParameter) {ok : (op : Op) → op.Ans → Prop}

/-- Publishing and caching do not change whether a result is a success. -/
theorem conclude_isSuccess (r : Rule) (startTime : Time) (result : RuleResult) :
    Yields ok (fun a ↦ a.isSuccess = result.isSuccess)
      (r.conclude c parameters startTime result) :=
  yields_bind_of fun _ ↦ yields_bind_of fun _ ↦ yields_bind_of fun _ ↦ yields_bind_of fun _ ↦
    yields_pure.2 rfl

/-- The result is a success exactly if the `try` block was completed. -/
theorem settle_isSuccess (r : Rule) (startTime : Time) {result : RuleResult}
    (hresult : result.exception = none ∧ result.skipped = false) (ending : Rule.Ending) :
    Yields ok (fun a ↦ a.isSuccess = true ↔ ending = .completed)
      (r.settle c parameters startTime result ending) := by
  cases ending with
  | failed message =>
    exact yields_bind_of fun _ ↦ yields_bind_of fun _ ↦ yields_bind_of fun _ ↦
      yields_pure.2 (by simp [RuleResult.isSuccess])
  | thrown e =>
    refine yields_bind_of fun message ↦ (conclude_isSuccess c parameters r startTime _).mono ?_
    intro a ha
    rw [ha]
    simp [RuleResult.isSuccess]
  | completed =>
    refine yields_bind_of fun _ ↦ (conclude_isSuccess c parameters r startTime _).mono ?_
    intro a ha
    rw [ha]
    simp [RuleResult.isSuccess, hresult]

/-- However the execution ends, the result holds the results of the children. -/
theorem settle_childResults (r : Rule) (startTime : Time) (result : RuleResult)
    (ending : Rule.Ending) :
    Yields ok (fun a ↦ a.childResults = result.childResults)
      (r.settle c parameters startTime result ending) := by
  have hconclude (result' : RuleResult) : Yields ok (fun a ↦ a.childResults = result'.childResults)
      (r.conclude c parameters startTime result') :=
    yields_bind_of fun _ ↦ yields_bind_of fun _ ↦ yields_bind_of fun _ ↦ yields_bind_of fun _ ↦
      yields_pure.2 rfl
  cases ending with
  | failed message =>
    exact yields_bind_of fun _ ↦ yields_bind_of fun _ ↦ yields_bind_of fun _ ↦ yields_pure.2 rfl
  | thrown e => exact yields_bind_of fun message ↦ hconclude _
  | completed => exact yields_bind_of fun _ ↦ hconclude _

end Answers

/-! ### What an execution looks like -/

/-- The requests of a rule execution with their answers. -/
abbrev Trace := List (Exchange Op Op.Ans)

/-- The request starts the evaluation of an expression or an action. -/
def Op.BeginsEvaluation : Op → Prop
  | beginExpression _ _ _ => True
  | beginAction _ _ _ => True
  | _ => False

/-- No expression and no action is evaluated. -/
def NothingEvaluated (t : Trace) : Prop :=
  ∀ e ∈ t, ¬e.op.BeginsEvaluation

theorem NothingEvaluated.append {t t' : Trace} (h : NothingEvaluated t) (h' : NothingEvaluated t') :
    NothingEvaluated (t ++ t') := fun e he ↦
  (List.mem_append.1 he).elim (h e) (h' e)

/-- Requests that evaluate none of the rules evaluate nothing. -/
theorem nothingEvaluated_of_onBehalf {engine : EnginePtr} {c : ContextPtr} {α : Type}
    {p : RuleProgram α} (hp : Asks (Op.OnBehalf engine c []) p) {t : Trace} {a : α}
    (h : p.Traces t a) : NothingEvaluated t := by
  refine h.forall_mem (P := fun op ↦ ¬op.BeginsEvaluation) (hp.mono fun op hop ↦ ?_)
  cases op
  case beginExpression => exact absurd hop.2 List.not_mem_nil
  case beginAction => exact absurd hop.2 List.not_mem_nil
  all_goals exact id

theorem nothingEvaluated_of_bookkeeping {c : ContextPtr} {α : Type} {p : RuleProgram α}
    (hp : Asks (Op.IsBookkeeping c) p) {t : Trace} {a : α} (h : p.Traces t a) :
    NothingEvaluated t :=
  -- bookkeeping is on behalf of any engine
  have hbehalf : Asks (Op.OnBehalf 0 c []) p := hp.mono fun _ ↦ Op.IsBookkeeping.onBehalf
  nothingEvaluated_of_onBehalf hbehalf h

section Execution

variable (engine : EnginePtr) (context : ContextPtr) (parameters : List RuleParameter)

mutual

/-- An execution of a rule: the requests it makes and the result it returns. -/
inductive Rule.Execution : Rule → Trace → RuleResult → Prop
  /-- The result comes out of the cache. -/
  | cached {r : Rule} {a : RuleResult} {record : ExecutionRecord} :
    Rule.Execution r
      [⟨.lookupCache r.toRuleFields parameters, some a⟩, ⟨.recordExecution record, ()⟩] a
  /-- The rule is not active, the limiter refuses, or a parameter does not have its type. -/
  | notBegun {r : Rule} {t : Trace} {a : RuleResult} (ht : NothingEvaluated t)
      (ha : a.isSuccess = false) (hchildren : a.childResults = []) : Rule.Execution r t a
  | childFailed {r : Rule} {before after : Trace} {ts : List Trace} {results : List RuleResult}
      {a : RuleResult} (hbefore : NothingEvaluated before)
      (hchildren : ExecutedInOrder r.childRules ts results)
      (hfailed : ∃ x ∈ results, x.isSuccess = false) (hafter : NothingEvaluated after)
      (ha : a.isSuccess = false) (hresults : a.childResults = results) :
      Rule.Execution r (before ++ ts.flatten ++ after) a
  | expressionFailed {r : Rule} {before publishing evaluation after : Trace} {ts : List Trace}
      {results : List RuleResult} {outcome : Except Exn Bool} {a : RuleResult}
      (hbefore : NothingEvaluated before) (hchildren : ExecutedInOrder r.childRules ts results)
      (hall : ∀ x ∈ results, x.isSuccess = true) (hpublishing : NothingEvaluated publishing)
      (hexpression : r.expression ≠ "")
      (hevaluation : (r.evaluateExpression engine context parameters).Traces evaluation outcome)
      (houtcome : outcome ≠ .ok true) (hafter : NothingEvaluated after)
      (ha : a.isSuccess = false) (hresults : a.childResults = results) :
      Rule.Execution r (before ++ ts.flatten ++ publishing ++ evaluation ++ after) a
  /-- The expression is empty or evaluates to true, and the action is empty or executed. -/
  | acted {r : Rule} {before publishing evaluation action after : Trace} {ts : List Trace}
      {results : List RuleResult} {outcome : Except Exn Bool} {a : RuleResult}
      (hbefore : NothingEvaluated before) (hchildren : ExecutedInOrder r.childRules ts results)
      (hall : ∀ x ∈ results, x.isSuccess = true) (hpublishing : NothingEvaluated publishing)
      (hevaluation : (r.expression = "" ∧ evaluation = []) ∨
        (r.evaluateExpression engine context parameters).Traces evaluation (.ok true))
      (haction : (r.action = "" ∧ action = [] ∧ outcome = .ok true) ∨
        (r.executeAction engine context parameters).Traces action outcome)
      (hafter : NothingEvaluated after) (ha : a.isSuccess = outcome.isOk)
      (hresults : a.childResults = results) :
      Rule.Execution r (before ++ ts.flatten ++ publishing ++ evaluation ++ action ++ after) a

/-- The rules are executed one after the other, in list order. -/
inductive ExecutedInOrder : List Rule → List Trace → List RuleResult → Prop
  | nil : ExecutedInOrder [] [] []
  | cons {child : Rule} {children : List Rule} {t : Trace} {ts : List Trace} {a : RuleResult}
      {results : List RuleResult} (hchild : Rule.Execution child t a)
      (hrest : ExecutedInOrder children ts results) :
      ExecutedInOrder (child :: children) (t :: ts) (a :: results)

end

/-! ### Every execution looks like this -/

variable {engine context parameters}

theorem executeRules_inOrder {children : List Rule}
    (h : ∀ r ∈ children, ∀ t a, (r.execute engine context parameters).Traces t a →
      r.Execution engine context parameters t a) {t : Trace} {results : List RuleResult}
    (ht : (executeRules engine context parameters children).Traces t results) :
    ∃ ts, t = ts.flatten ∧ ExecutedInOrder engine context parameters children ts results := by
  induction children generalizing t results with
  | nil =>
    obtain ⟨rfl, rfl⟩ := traces_pure.1 ht
    exact ⟨[], rfl, .nil⟩
  | cons child children ih =>
    rw [executeRules, traces_bind] at ht
    obtain ⟨t₁, t₂, a, rfl, hchild, ht⟩ := ht
    obtain ⟨t₂, t₃, rest, rfl, hrest, ht⟩ := traces_bind.1 ht
    obtain ⟨rfl, rfl⟩ := traces_pure.1 ht
    obtain ⟨ts, rfl, hinorder⟩ := ih (fun r hr ↦ h r (List.mem_cons_of_mem child hr)) hrest
    refine ⟨t₁ :: ts, by simp, .cons (h child List.mem_cons_self t₁ a hchild) hinorder⟩

theorem checkExpression_traces {r : Rule} {t : Trace} {passed : Except Exn Bool}
    (h : (r.checkExpression engine context parameters).Traces t passed) :
    (r.expression = "" ∧ t = [] ∧ passed = .ok true) ∨
      (r.expression ≠ "" ∧ (r.evaluateExpression engine context parameters).Traces t passed) := by
  rw [Rule.checkExpression] at h
  split_ifs at h with hempty
  · exact .inr ⟨hempty, h⟩
  · obtain ⟨rfl, rfl⟩ := traces_pure.1 h
    exact .inl ⟨not_not.1 hempty, rfl, rfl⟩

theorem performAction_traces {r : Rule} {t : Trace} {outcome : Except Exn Bool}
    (h : (r.performAction engine context parameters).Traces t outcome) :
    (r.action = "" ∧ t = [] ∧ outcome = .ok true) ∨
      (r.executeAction engine context parameters).Traces t outcome := by
  rw [Rule.performAction] at h
  split_ifs at h with hempty
  · exact .inr h
  · obtain ⟨rfl, rfl⟩ := traces_pure.1 h
    exact .inl ⟨not_not.1 hempty, rfl, rfl⟩

/-- The two Lua steps: the action is only executed if the expression has passed. -/
theorem evaluate_traces {r : Rule} {t : Trace} {ending : Rule.Ending}
    (h : (r.evaluate engine context parameters).Traces t ending) :
    (ending ≠ .completed ∧ r.expression ≠ "" ∧ ∃ outcome, outcome ≠ .ok true ∧
      (r.evaluateExpression engine context parameters).Traces t outcome) ∨
    ∃ evaluation action outcome, t = evaluation ++ action ∧
      ((r.expression = "" ∧ evaluation = []) ∨
        (r.evaluateExpression engine context parameters).Traces evaluation (.ok true)) ∧
      ((r.action = "" ∧ action = [] ∧ outcome = .ok true) ∨
        (r.executeAction engine context parameters).Traces action outcome) ∧
      (ending = .completed ↔ outcome.isOk = true) := by
  obtain ⟨evaluation, t, passed, rfl, hcheck, ht⟩ := traces_bind.1 h
  have hexpression := checkExpression_traces hcheck
  rcases passed with e | - | -
  · obtain ⟨rfl, rfl⟩ := traces_pure.1 ht
    rcases hexpression with ⟨-, -, hok⟩ | ⟨hnonempty, htraces⟩
    · cases hok
    · rw [List.append_nil]
      exact .inl ⟨by simp, hnonempty, .error e, by simp, htraces⟩
  · obtain ⟨rfl, rfl⟩ := traces_pure.1 ht
    rcases hexpression with ⟨-, -, hok⟩ | ⟨hnonempty, htraces⟩
    · cases hok
    · rw [List.append_nil]
      exact .inl ⟨by simp, hnonempty, .ok false, by simp, htraces⟩
  · obtain ⟨action, t, outcome, rfl, hperform, ht⟩ := traces_bind.1 ht
    refine .inr ⟨evaluation, action ++ t, outcome, rfl,
      hexpression.imp (fun h ↦ ⟨h.1, h.2.1⟩) fun h ↦ h.2, ?_⟩
    rcases outcome with e | truthy
    · obtain ⟨rfl, rfl⟩ := traces_pure.1 ht
      rw [List.append_nil]
      exact ⟨performAction_traces hperform, by simp [Except.isOk, Except.toBool]⟩
    · obtain ⟨rfl, rfl⟩ := traces_pure.1 ht
      rw [List.append_nil]
      exact ⟨performAction_traces hperform, by simp [Except.isOk, Except.toBool]⟩

/-- The `try` block: the Lua steps are only reached if all children were executed with success. -/
theorem attempt_traces {r : Rule} {executeChildren : RuleProgram (List RuleResult)} {t : Trace}
    {x : List RuleResult × Rule.Ending}
    (h : (r.attempt engine context parameters executeChildren).Traces t x) :
    (NothingEvaluated t ∧ x.1 = [] ∧ x.2 ≠ .completed) ∨
    ∃ before children rest, t = before ++ (children ++ rest) ∧ NothingEvaluated before ∧
      executeChildren.Traces children x.1 ∧
      (((∃ a ∈ x.1, a.isSuccess = false) ∧ NothingEvaluated rest ∧ x.2 ≠ .completed) ∨
        (∀ a ∈ x.1, a.isSuccess = true) ∧ ∃ publishing evaluation,
          rest = publishing ++ evaluation ∧ NothingEvaluated publishing ∧
          (r.evaluate engine context parameters).Traces evaluation x.2) := by
  obtain ⟨before, t, allowed, rfl, hlimit, ht⟩ := traces_bind.1 h
  have hbefore : NothingEvaluated before :=
    nothingEvaluated_of_bookkeeping (checkRateLimit_asks context r) hlimit
  rcases allowed with e | ⟨⟩
  · obtain ⟨rfl, rfl⟩ := traces_pure.1 ht
    rw [List.append_nil]
    exact .inl ⟨hbefore, rfl, by simp⟩
  dsimp only at ht
  split at ht
  · obtain ⟨rfl, rfl⟩ := traces_pure.1 ht
    rw [List.append_nil]
    exact .inl ⟨hbefore, rfl, by simp⟩
  -- the children are executed and then published
  obtain ⟨children, t, results, rfl, hchildren, hafter⟩ := traces_bind.1 ht
  obtain ⟨publishing, t, ⟨⟩, rfl, hpublish, hsteps⟩ := traces_bind.1 hafter
  have hpublishing : NothingEvaluated publishing := nothingEvaluated_of_onBehalf
    (publishChildren_asks engine context [] r.childRules results) hpublish
  refine .inr ⟨before, children, publishing ++ t, rfl, hbefore, ?_⟩
  split at hsteps
  · rename_i a hfind
    obtain ⟨rfl, rfl⟩ := traces_pure.1 hsteps
    have hfailed : a.isSuccess = false := by simpa using List.find?_some hfind
    rw [List.append_nil]
    exact ⟨hchildren, .inl ⟨⟨a, List.mem_of_find?_eq_some hfind, hfailed⟩, hpublishing, by simp⟩⟩
  · rename_i hfind
    obtain ⟨evaluation, t, ending, rfl, hevaluate, hreturn⟩ := traces_bind.1 hsteps
    obtain ⟨rfl, rfl⟩ := traces_pure.1 hreturn
    rw [List.append_nil]
    have hall : ∀ a ∈ results, a.isSuccess = true := by simpa using hfind
    exact ⟨hchildren, .inr ⟨hall, publishing, evaluation, rfl, hpublishing, hevaluate⟩⟩

theorem settle_traces {r : Rule} {startTime : Time} {result a : RuleResult}
    (hresult : result.exception = none ∧ result.skipped = false) {ending : Rule.Ending} {t : Trace}
    (h : (r.settle context parameters startTime result ending).Traces t a) :
    NothingEvaluated t ∧ a.childResults = result.childResults ∧
      (a.isSuccess = true ↔ ending = .completed) :=
  ⟨nothingEvaluated_of_onBehalf (settle_asks 0 context parameters [] r startTime result ending) h,
    h.of_yields (settle_childResults context parameters r startTime result ending),
    h.of_yields (settle_isSuccess context parameters r startTime hresult ending)⟩

theorem executeUncached_execution {r : Rule} {executeChildren : RuleProgram (List RuleResult)}
    (hchildren : ∀ t results, executeChildren.Traces t results →
      ∃ ts, t = ts.flatten ∧ ExecutedInOrder engine context parameters r.childRules ts results)
    {t t' : Trace} {a : RuleResult} (hlookup : NothingEvaluated t')
    (h : (r.executeUncached engine context parameters executeChildren).Traces t a) :
    r.Execution engine context parameters (t' ++ t) a := by
  obtain ⟨executedAt, t, rfl, ht⟩ := traces_perform_bind.1 h
  have hnow (time : Time) : NothingEvaluated [⟨.now, time⟩] := by
    simp [NothingEvaluated, Op.BeginsEvaluation]
  dsimp only at ht
  split_ifs at ht
  · obtain ⟨startTime, t, rfl, hrun⟩ := traces_perform_bind.1 ht
    obtain ⟨trying, after, x, rfl, hattempt, hsettle⟩ := traces_bind.1 hrun
    obtain ⟨hafter, hresults, hsuccess⟩ := settle_traces ⟨rfl, rfl⟩ hsettle
    have hfailure : x.2 ≠ .completed → a.isSuccess = false := fun hne ↦
      Bool.eq_false_iff.2 fun htrue ↦ hne (hsuccess.1 htrue)
    have hbegun := hlookup.append ((hnow executedAt).append (hnow startTime))
    -- one constructor of `Execution` for each way the `try` block may end
    rcases attempt_traces hattempt with ⟨hnothing, hnil, hending⟩ |
      ⟨before, children, rest, rfl, hbefore, htraces, hrest⟩
    · have hall := (hbegun.append hnothing).append hafter
      simpa only [List.append_assoc, List.cons_append, List.nil_append] using
        Rule.Execution.notBegun hall (hfailure hending) (hresults.trans hnil)
    obtain ⟨ts, rfl, hinorder⟩ := hchildren children x.1 htraces
    rcases hrest with ⟨hfailed, hnothing, hending⟩ |
      ⟨hall, publishing, evaluation, rfl, hpublishing, hevaluate⟩
    · simpa only [List.append_assoc, List.cons_append, List.nil_append] using
        Rule.Execution.childFailed (hbegun.append hbefore) hinorder hfailed
          (hnothing.append hafter) (hfailure hending) hresults
    rcases evaluate_traces hevaluate with ⟨hending, hnonempty, outcome, houtcome, hexpression⟩ |
      ⟨evaluation, action, outcome, rfl, hexpression, haction, hending⟩
    · simpa only [List.append_assoc, List.cons_append, List.nil_append] using
        Rule.Execution.expressionFailed (hbegun.append hbefore) hinorder hall hpublishing hnonempty
          hexpression houtcome hafter (hfailure hending) hresults
    · have hok : a.isSuccess = outcome.isOk := Bool.eq_iff_iff.2 (hsuccess.trans hending)
      simpa only [List.append_assoc, List.cons_append, List.nil_append] using
        Rule.Execution.acted (hbegun.append hbefore) hinorder hall hpublishing hexpression haction
          hafter hok hresults
  · obtain ⟨rfl, rfl⟩ := traces_pure.1 ht
    exact .notBegun (hlookup.append (hnow executedAt)) (by simp [RuleResult.isSuccess]) rfl

theorem executeWith_execution {r : Rule} {executeChildren : RuleProgram (List RuleResult)}
    (hchildren : ∀ t results, executeChildren.Traces t results →
      ∃ ts, t = ts.flatten ∧ ExecutedInOrder engine context parameters r.childRules ts results)
    {t : Trace} {a : RuleResult}
    (h : (r.executeWith engine context parameters executeChildren).Traces t a) :
    r.Execution engine context parameters t a := by
  obtain ⟨t', t, cached, rfl, hlookup, ht⟩ := traces_bind.1 h
  rcases cached with - | result
  · exact executeUncached_execution hchildren
      (nothingEvaluated_of_bookkeeping (lookupCache_asks context parameters r) hlookup) ht
  · rw [Rule.lookupCache] at hlookup
    split_ifs at hlookup
    · obtain ⟨answer, t', rfl, hanswer⟩ := traces_ask.1 hlookup
      obtain ⟨rfl, rfl⟩ := traces_ret.1 hanswer
      obtain ⟨⟨⟩, t, rfl, hreturn⟩ := traces_perform_bind.1 ht
      obtain ⟨rfl, rfl⟩ := traces_pure.1 hreturn
      exact .cached
    · exact absurd (traces_pure.1 hlookup).2 (by simp)

/-- Whatever its requests are answered, an execution of a rule executes the children in list order,
evaluates the expression only if they all were a success, and executes the action only if the
expression passed; and so do the executions of the children. -/
theorem execute_execution (r : Rule) {t : Trace} {a : RuleResult}
    (h : (r.execute engine context parameters).Traces t a) :
    r.Execution engine context parameters t a := by
  induction r using Rule.induction_children generalizing t a with
  | h r ih =>
    rw [Rule.execute_eq] at h
    exact executeWith_execution
      (fun t results ↦ executeRules_inOrder fun q hq _ _ ↦ ih q hq) h

end Execution

/-! ### What the caches hold -/

/-- What goes into the caches agrees, and so does what comes out of them. -/
def agreement : Interface Op Op.Ans Unit :=
  Interface.answers
    (fun
      | .storeInCache _ _ a => a.Agrees
      | _ => True)
    (fun
      | .lookupCache _ _, found => ∀ a ∈ found, a.Agrees
      | _, _ => True)

/-- The request puts nothing into a cache. -/
def Op.StoresNothing : Op → Prop
  | storeInCache _ _ _ => False
  | _ => True

theorem Op.IsQuiet.storesNothing {op : Op} (h : op.IsQuiet) : op.StoresNothing := by
  cases op <;> trivial

theorem agreement_bind {α β : Type} {p : RuleProgram α} (hp : Asks Op.StoresNothing p)
    {f : α → RuleProgram β} {Q : β → Prop} (h : ∀ a, Ensures agreement (fun b _ ↦ Q b) (f a) ()) :
    Ensures agreement (fun b _ ↦ Q b) (p >>= f) () := by
  rw [ensures_bind]
  refine (hp.ensures_true (fun op _ hop ↦ ?_) ()).mono fun a _ _ ↦ h a
  cases op <;> trivial

section Agreement

variable (engine : EnginePtr) (c : ContextPtr) (parameters : List RuleParameter)

theorem storeInCache_agrees (r : Rule) {result : RuleResult} (h : result.Agrees) {β : Type}
    {f : Unit → RuleProgram β} {Q : β → Prop} (hf : Ensures agreement (fun b _ ↦ Q b) (f ()) ()) :
    Ensures agreement (fun b _ ↦ Q b) (r.storeInCache parameters result >>= f) () := by
  rw [Rule.storeInCache]
  split_ifs
  · exact ⟨h, fun _ _ _ ↦ hf⟩
  · exact hf

theorem conclude_agrees (r : Rule) (startTime : Time) {result : RuleResult}
    (h : result.isSuccess = true → ∀ x ∈ result.childResults, x.isSuccess = true ∧ x.Agrees) :
    Ensures agreement (fun a _ ↦ a.Agrees) (r.conclude c parameters startTime result) () := by
  refine ⟨trivial, fun endTime _ _ ↦ ⟨trivial, fun _ _ _ ↦ ⟨trivial, fun _ _ _ ↦ ?_⟩⟩⟩
  have hagrees : RuleResult.Agrees { result with metrics := {
      evaluationCount := 1
      failureCount := if result.success then 0 else 1
      totalExecutionTime := endTime - startTime
      lastExecuted := endTime } } := by
    by_cases hsuccess : result.isSuccess = true
    · exact RuleResult.agrees_of_children (h hsuccess)
    · exact RuleResult.agrees_of_failure (Bool.eq_false_iff.2 hsuccess)
  exact storeInCache_agrees parameters r hagrees hagrees

theorem settle_agrees (r : Rule) (startTime : Time) {result : RuleResult} {ending : Rule.Ending}
    (h : ending = .completed → ∀ x ∈ result.childResults, x.isSuccess = true ∧ x.Agrees) :
    Ensures agreement (fun a _ ↦ a.Agrees) (r.settle c parameters startTime result ending) () := by
  cases ending with
  | failed message =>
    have hagrees : RuleResult.Agrees { result with success := false, exception := some message } :=
      RuleResult.agrees_of_failure rfl
    exact ⟨trivial, fun _ _ _ ↦ storeInCache_agrees parameters r hagrees
      ⟨trivial, fun _ _ _ ↦ hagrees⟩⟩
  | thrown e =>
    refine agreement_bind ((handleException_quiet c r e).mono fun _ ↦ Op.IsQuiet.storesNothing)
      fun message ↦ conclude_agrees c parameters r startTime fun hsuccess ↦ ?_
    exact absurd hsuccess (by simp [RuleResult.isSuccess])
  | completed =>
    exact ⟨trivial, fun _ _ _ ↦ conclude_agrees c parameters r startTime fun _ ↦ h rfl⟩

theorem publishChildren_storesNothing : ∀ (children : List Rule) (results : List RuleResult),
    Asks Op.StoresNothing (Rule.publishChildren c children results)
  | [], _ => trivial
  | _ :: _, [] => trivial
  | _ :: children, _ :: results =>
    ⟨trivial, fun _ ↦ publishChildren_storesNothing children results⟩

/-- The `try` block is only completed if all children were a success. -/
theorem attempt_agrees (r : Rule) {executeChildren : RuleProgram (List RuleResult)}
    (hchildren : Ensures agreement (fun results _ ↦ ∀ x ∈ results, x.Agrees) executeChildren ()) :
    Ensures agreement
      (fun x _ ↦ x.2 = .completed → ∀ a ∈ x.1, a.isSuccess = true ∧ a.Agrees)
      (r.attempt engine c parameters executeChildren) () := by
  refine agreement_bind ((checkRateLimit_quiet r).mono fun _ ↦ Op.IsQuiet.storesNothing)
    fun allowed ↦ ?_
  rcases allowed with e | ⟨⟩
  · exact fun h ↦ absurd h (by simp)
  dsimp only
  split
  · exact fun h ↦ absurd h (by simp)
  rw [ensures_bind]
  refine hchildren.mono fun results _ hresults ↦
    agreement_bind (publishChildren_storesNothing c r.childRules results) fun _ ↦ ?_
  split
  · exact fun h ↦ absurd h (by simp)
  · rename_i hfind
    refine agreement_bind ((evaluate_asks engine c parameters r).mono
      fun _ h ↦ h.isQuiet.storesNothing) fun ending ↦ ?_
    exact fun _ a ha ↦ ⟨by simpa using List.find?_eq_none.1 hfind a ha, hresults a ha⟩

theorem executeWith_agrees (r : Rule) {executeChildren : RuleProgram (List RuleResult)}
    (hchildren : Ensures agreement (fun results _ ↦ ∀ x ∈ results, x.Agrees) executeChildren ()) :
    Ensures agreement (fun a _ ↦ a.Agrees) (r.executeWith engine c parameters executeChildren)
      () := by
  have huncached : Ensures agreement (fun a _ ↦ a.Agrees)
      (r.executeUncached engine c parameters executeChildren) () := by
    refine ⟨trivial, fun executedAt _ _ ↦ ?_⟩
    dsimp only
    split_ifs
    · refine ⟨trivial, fun startTime _ _ ↦ ?_⟩
      show Ensures _ _ (r.attempt engine c parameters executeChildren >>= _) ()
      rw [ensures_bind]
      refine (attempt_agrees engine c parameters r hchildren).mono fun x _ h ↦ ?_
      exact settle_agrees c parameters r startTime h
    · exact RuleResult.agrees_of_failure (by simp [RuleResult.isSuccess])
  rw [Rule.executeWith, Rule.lookupCache]
  split_ifs
  · refine ⟨trivial, fun found _ hfound ↦ ?_⟩
    rcases found with - | a
    · exact huncached
    · exact ⟨trivial, fun _ _ _ ↦ hfound a rfl⟩
  · exact huncached

theorem executeRules_agrees_of {children : List Rule}
    (h : ∀ r ∈ children, Ensures agreement (fun a _ ↦ a.Agrees) (r.execute engine c parameters)
    ()) :
    Ensures agreement (fun results _ ↦ ∀ x ∈ results, x.Agrees)
      (executeRules engine c parameters children) () := by
  induction children with
  | nil => exact fun x hx ↦ absurd hx List.not_mem_nil
  | cons child children ih =>
    rw [executeRules, ensures_bind]
    refine (h child List.mem_cons_self).mono fun a _ ha ↦ ?_
    rw [ensures_bind]
    refine (ih fun q hq ↦ h q (List.mem_cons_of_mem child hq)).mono fun results _ hresults ↦ ?_
    exact List.forall_mem_cons.2 ⟨ha, hresults⟩

/-- If what the caches answer agrees, so do the result of an execution and all results it stores. -/
theorem execute_agrees (r : Rule) :
    Ensures agreement (fun a _ ↦ a.Agrees) (r.execute engine c parameters) () := by
  induction r using Rule.induction_children with
  | h r ih =>
    rw [Rule.execute_eq]
    exact executeWith_agrees engine c parameters r (executeRules_agrees_of engine c parameters ih)

end Agreement

/-! ### Executions that share a world -/

/-- A call of `Rule::execute`. -/
structure RuleCall where
  engine : EnginePtr
  context : ContextPtr
  parameters : List RuleParameter
  rule : Rule

/-- The execution that is called. -/
def RuleCall.execute (x : RuleCall) : RuleProgram RuleResult :=
  x.rule.execute x.engine x.context x.parameters

namespace World

variable {E : Type}

/-- Every result in the caches agrees. -/
def CachesAgree (w : World E) : Prop :=
  ∀ ptr, ∀ e ∈ (w.caches ptr).entries, e.2.result.Agrees

/-- Anything has happened except that a new result got into a cache: entries may have been dropped,
invalidated or copied together with their rule. -/
def NothingStored (w w' : World E) : Prop :=
  ∀ ptr', ∀ e' ∈ (w'.caches ptr').entries,
    ∃ ptr, ∃ e ∈ (w.caches ptr).entries, e'.2.result = e.2.result

theorem CachesAgree.nothingStored {w w' : World E} (h : w.CachesAgree) (hw : w.NothingStored w') :
    w'.CachesAgree := by
  intro ptr' e' he'
  obtain ⟨ptr, e, he, hresult⟩ := hw ptr' e' he'
  rw [hresult]
  exact h ptr e he

end World

namespace Environment

variable {E : Type} (env : Environment E)

/-- The caches keep to the agreement. -/
theorem handle_agreement {op : Op} {w : World E} (h : w.CachesAgree) (hpre : agreement.pre op ()) :
    (env.handle op w).2.CachesAgree ∧ agreement.step op () (env.handle op w).1 () := by
  cases op with
  | lookupCache rule parameters =>
    refine ⟨fun ptr e he ↦ h ptr e (lookupCache_entries_subset rule parameters he), ?_⟩
    intro a ha
    obtain ⟨entry, hentry, rfl⟩ := mem_of_lookupCache ha
    exact h _ _ hentry
  | storeInCache rule parameters result =>
    refine ⟨fun ptr e he ↦ ?_, trivial⟩
    rcases mem_storeInCache he with ⟨-, -, hresult⟩ | hold
    · rw [hresult]
      exact hpre
    · exact h ptr e hold
  | _ => exact ⟨h, trivial⟩

end Environment

section Histories

variable {ι E : Type} [DecidableEq ι]

/-- What a request of any of the executions does. -/
def Environment.answers (env : Environment E) (_ : ι) (op : Op) (w : World E) (a : op.Ans)
    (w' : World E) : Prop :=
  env.handle op w = (a, w')

/-- The executions are about to start. -/
def executionsIn (w : World E) (call : ι → RuleCall) :
    Interleaving.Config ι Op Op.Ans RuleResult (Interleaving.Observed ι Op Op.Ans (World E)) :=
  ⟨fun i ↦ (call i).execute, ⟨w, fun _ ↦ []⟩⟩

/-- Any number of steps, in any order, of the executions and of others. -/
def Environment.Reaches (env : Environment E)
    (c c' : Interleaving.Config ι Op Op.Ans RuleResult
    (Interleaving.Observed ι Op Op.Ans (World E))) :
    Prop :=
  Interleaving.Reaches (Interleaving.observed env.answers)
    (Interleaving.unobserved World.NothingStored) c c'

/-- The executions rely on each other for what the caches hold. -/
theorem agreement_compatible (env : Environment E) :
    Interleaving.Compatible (Interleaving.observed (env.answers (ι := ι)))
      (Interleaving.unobserved World.NothingStored) (fun s ↦ s.state.CachesAgree) (fun _ _ ↦ ())
      (fun _ ↦ agreement) (fun _ a _ ↦ RuleResult.Agrees a) where
  own i op s a s' hs hpre hstep := by
    have hanswer : env.handle op s.state = (a, s'.state) := hstep.1
    obtain ⟨hkept, hagrees⟩ := env.handle_agreement hs hpre
    rw [hanswer] at hkept hagrees
    exact ⟨hkept, hagrees⟩
  foreign _ _ _ _ _ _ _ _ _ _ := rfl
  other _ _ _ hs _ hother := ⟨hs.nothingStored hother.1, fun _ ↦ rfl⟩

/-- The semantics of rule trees: in whatever order executions make their requests, starting with
empty caches, an execution that has returned looks as it should, and its result is a success exactly
if it and every result below it are. -/
theorem execute_ruleTree (env : Environment E) (call : ι → RuleCall) {w : World E}
    (hempty : ∀ ptr, (w.caches ptr).entries = [])
    {c : Interleaving.Config ι Op Op.Ans RuleResult (Interleaving.Observed ι Op Op.Ans (World E))}
    (h : env.Reaches (executionsIn w call) c) {i : ι} {a : RuleResult}
    (hreturned : c.thread i = .ret a) :
    (a.isSuccess = true ↔ a.isFullySuccessful = true) ∧
      (call i).rule.Execution (call i).engine (call i).context (call i).parameters
        (c.state.history i) a := by
  refine ⟨?_, execute_execution (call i).rule (h.traces_of_ret rfl hreturned)⟩
  have hstart : w.CachesAgree := fun ptr e he ↦ by
    rw [hempty] at he
    exact absurd he List.not_mem_nil
  have hagrees := ((agreement_compatible env).ensures ⟨hstart, fun j ↦ execute_agrees
    (call j).engine (call j).context (call j).parameters (call j).rule⟩ h).2 i
  rw [hreturned] at hagrees
  exact Bool.eq_iff_iff.1 hagrees

/-- An execution can make its run alone. -/
theorem exists_returned (env : Environment E) (call : ι → RuleCall) (w : World E) (i : ι) :
    ∃ c, env.Reaches (executionsIn w call) c ∧
      c.thread i = .ret ((call i).execute.run env.handle w).1 := by
  have hstep (op : Op) (w : World E) :
      env.answers i op w (env.handle op w).1 (env.handle op w).2 := rfl
  obtain ⟨s', hreach⟩ := Interleaving.Reaches.exists_ret hstep (executionsIn w call)
  exact ⟨_, hreach, Function.update_self i _ _⟩

end Histories

/-! ### Examples -/

/-- A rule with a child; both pass. -/
def payment : Rule :=
  { id := 1, name := "payment", expression := "card.valid"
    childRules := [{ id := 2, name := "card", expression := "card" }] }

/-- Every expression evaluates to true. -/
def everythingPasses : Environment Unit :=
  .ofScripts fun _ ↦ some (.ret (.ok true))

/-- Executing it is a success at every level. -/
theorem payment_executes :
    ∃ (c : Interleaving.Config Unit Op Op.Ans RuleResult _) (a : RuleResult),
      everythingPasses.Reaches (executionsIn { env := () } fun _ ↦ ⟨0, 0, [], payment⟩) c ∧
      c.thread () = .ret a ∧ a.isSuccess = true ∧ a.isFullySuccessful = true ∧
      payment.Execution 0 0 [] (c.state.history ()) a := by
  obtain ⟨c, hreach, hreturned⟩ :=
    exists_returned everythingPasses (fun _ ↦ ⟨0, 0, [], payment⟩) { env := () } ()
  obtain ⟨hsuccess, hexecution⟩ := execute_ruleTree everythingPasses
    (fun _ ↦ ⟨0, 0, [], payment⟩) (fun _ ↦ rfl) hreach hreturned
  exact ⟨c, _, hreach, hreturned, rfl, hsuccess.1 rfl, hexecution⟩

end FastRules
